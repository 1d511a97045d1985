import WebGpuDD.SendBuffer
import WebGpuDD.Lib.Regions
import WebGpuDD.Lib.Runs

/-!
# The regions of a `SendBuffer`

A `SendBuffer` whose callers may write into any region that `GetCmdSpace` has returned
since the last flush, in any order and as often as they like. What a caller sees of a
region is its start and its contents; the buffer is the frames of these contents, one
behind the other.
-/

namespace WebGpuDD

open LittleEndian Memory CommandTransport

/-- The frames of the regions' contents. -/
def framesOf (rs : List (Region Byte)) : List Byte := frames (rs.map Region.contents)

theorem framesOf_append (rs rs' : List (Region Byte)) :
    framesOf (rs ++ rs') = framesOf rs ++ framesOf rs' := by
  rw [framesOf, List.map_append, frames_append]
  rfl

theorem framesOf_cons (r : Region Byte) (rs : List (Region Byte)) :
    framesOf (r :: rs) = frame r.contents ++ framesOf rs := rfl

theorem framesOf_length (rs : List (Region Byte)) :
    (framesOf rs).length = Region.extent 12 rs := by
  induction rs with
  | nil => rfl
  | cons r rs ih => rw [framesOf_cons, List.length_append, frame_length, ih, Region.extent_cons]

/-- A write leaves the frames in front of the region and behind it alone. -/
theorem framesOf_write (pre post : List (Region Byte)) (r : Region Byte) {i : ℕ} {xs : List Byte}
    (h : i + xs.length ≤ r.contents.length) :
    framesOf (pre ++ r.write i xs :: post) =
      overwrite (framesOf (pre ++ r :: post)) ((framesOf pre).length + (12 + i)) xs := by
  have hframe : overwrite (frame r.contents) (12 + i) xs = frame (r.write i xs).contents := by
    have happ := overwrite_append_left (commandHeader r.contents.length) r.contents i xs
    rw [commandHeader_length] at happ
    rw [frame, happ, frame, Region.write_length r h]
    rfl
  rw [framesOf_append, framesOf_append, framesOf_cons, framesOf_cons, overwrite_append_left,
    overwrite_append_right _ (by rw [frame_length]; omega), hframe]

namespace SendBuffer

/-- What the flushes inside `GetCmdSpace` returned, one for each time it recurses. -/
def internalFlushes (k : Kernel) (size : ℕ) (b : SendBuffer) (t : CommandTransport) : List Bool :=
  if tooLarge size then []
  else if b.full size then
    match _h : b.flush k t with
    | (false, _, _) => [false]
    | (true, b', t') => true :: internalFlushes k size b' t'
  else []
termination_by b.mOffset
decreasing_by
  rename_i hfull
  have h0 := flush_mOffset k b t
  simp_all [full]
  omega

section

variable (k : Kernel) {size : ℕ} {b : SendBuffer} (t : CommandTransport)

theorem full_of_empty (hs : size ≤ getMaximumAllocationSize) (h : b.mOffset = 0) :
    b.full size = false := by
  have hnot : ¬ b.full size = true := by
    rw [full_iff hs, h]
    unfold getMaximumAllocationSize at hs
    omega
  simpa using hnot

theorem internalFlushes_of_tooLarge (h : tooLarge size = true) :
    b.internalFlushes k size t = [] := by
  rw [internalFlushes, if_pos h]

theorem internalFlushes_of_not_full (h : b.full size = false) :
    b.internalFlushes k size t = [] := by
  rw [internalFlushes]
  split
  · rfl
  · rw [if_neg (by simp [h])]

theorem internalFlushes_of_flush (hs : ¬ tooLarge size = true) (hf : b.full size = true) :
    b.internalFlushes k size t = (b.flush k t).1 ::
      if (b.flush k t).1 then (b.flush k t).2.1.internalFlushes k size (b.flush k t).2.2 else [] := by
  rw [internalFlushes, if_neg hs, if_pos hf]
  split <;> rename_i h <;> simp [h]

/-- A size up to the maximum fits into the emptied buffer: there is no second flush. -/
theorem internalFlushes_of_full (hs : size ≤ getMaximumAllocationSize)
    (hf : b.full size = true) : b.internalFlushes k size t = [(b.flush k t).1] := by
  have hempty : (b.flush k t).2.1.full size = false := full_of_empty hs (flush_mOffset k b t)
  rw [internalFlushes_of_flush k t (by simp [tooLarge_eq_false hs]) hf,
    internalFlushes_of_not_full k _ hempty, ite_self]

/-- A flush that makes room has something to send. -/
theorem flush_sends {t : CommandTransport} (ht : t.Open) (hb : b.mOffset ≤ 2000000)
    (hfull : b.full size = true) :
    (b.flush k t).2.2.Open ∧ (b.flush k t).2.2.sends = t.sends + 1 := by
  have hpos : 0 < b.mOffset := Nat.zero_lt_of_lt (of_decide_eq_true hfull)
  rw [flush, if_neg (by omega)]
  constructor
  · simpa [Open] using ht
  · apply send_sends k ht
    apply List.ne_nil_of_length_pos
    rw [load_length, sizeAdd_of_lt (by omega)]
    omega

/-- Each of them is one call of `Send`, whatever the size and whatever the socket answers. -/
theorem getCmdSpace_sends {t : CommandTransport} (ht : t.Open) (hb : b.mOffset ≤ 2000000) :
    (b.getCmdSpace k size t).2.2.sends = t.sends + (b.internalFlushes k size t).length := by
  fun_induction getCmdSpace k size b t with
  | case1 b t hlarge => rw [internalFlushes_of_tooLarge k t hlarge]; rfl
  | case2 b t hlarge hfull b' t' hfailed =>
    have hsend := (flush_sends k ht hb hfull).2
    rw [hfailed] at hsend
    rw [internalFlushes_of_flush k t hlarge hfull, hfailed]
    exact hsend
  | case3 b t hlarge hfull b' t' hdone ih =>
    obtain ⟨hopen, hsend⟩ := flush_sends k ht hb hfull
    have h0 := flush_mOffset k b t
    rw [hdone] at hopen hsend h0
    have hb' : b'.mOffset ≤ 2000000 := h0.le.trans (Nat.zero_le _)
    have hlength : (b.internalFlushes k size t).length =
        (b'.internalFlushes k size t').length + 1 := by
      rw [internalFlushes_of_flush k t hlarge hfull, hdone, if_pos rfl, List.length_cons]
    rw [ih hopen hb', hsend, hlength]
    omega
  | case4 b t hlarge hfull =>
    rw [internalFlushes_of_not_full k t (by simpa using hfull)]
    rfl

/-- The reservation of a size up to the maximum behind a flush that makes room. -/
theorem getCmdSpace_behind_flush (hs : size ≤ getMaximumAllocationSize)
    (hf : b.full size = true) :
    b.getCmdSpace k size t =
      if (b.flush k t).1 then
        (some 12, ⟨12 + size, store (b.flush k t).2.1.mBuffer 0 (commandHeader size)⟩,
          (b.flush k t).2.2)
      else (none, (b.flush k t).2) := by
  have h0 := flush_mOffset k b t
  rw [getCmdSpace_of_full k t hs hf,
    getCmdSpace_of_not_full k _ hs (full_of_empty hs h0) (by rw [h0]; exact Nat.zero_le _), h0,
    Nat.zero_add, Nat.zero_add]

end

end SendBuffer

/-! ## The buffer and its callers -/

/-- A `SendBuffer` on its transport, with the regions it returned since the last flush. -/
structure SendRegions where
  buf : SendBuffer
  conn : CommandTransport
  regions : List (Region Byte)

/-- What a caller does with a `SendBuffer`. A write copies `xs` to a place in the
`i`-th of the regions. -/
inductive RegionOp where
  | getCmdSpace (size : ℕ)
  | write (i place : ℕ) (xs : List Byte)
  | flush

/-- The size does not wrap in the admission test of `GetCmdSpace`. -/
def RegionOp.NoWrap : RegionOp → Prop
  | .getCmdSpace size => size + 2 * 12 < 2 ^ 64
  | _ => True

namespace SendRegions

/-- Nothing is reserved. -/
structure Fresh (s : SendRegions) : Prop where
  empty : s.buf.mOffset = 0
  regions : s.regions = []

/-- The regions that the flushes inside `GetCmdSpace` leave, if it makes any. -/
def kept (k : Kernel) (size : ℕ) (s : SendRegions) : List (Region Byte) :=
  if s.buf.internalFlushes k size s.conn = [] then s.regions else []

/-- One operation; a write is possible only inside a region. -/
def step (k : Kernel) (s : SendRegions) : RegionOp → Option SendRegions
  | .getCmdSpace size =>
    let r := s.buf.getCmdSpace k size s.conn
    match r.1 with
    | none => some ⟨r.2.1, r.2.2, s.kept k size⟩
    | some p => some ⟨r.2.1, r.2.2, s.kept k size ++ [⟨p, load r.2.1.mBuffer p size⟩]⟩
  | .write i place xs =>
    match s.regions[i]? with
    | none => none
    | some r =>
      if place + xs.length ≤ r.contents.length then
        some { s with buf := s.buf.write (r.start + place) xs
                      regions := s.regions.set i (r.write place xs) }
      else none
  | .flush =>
    let r := s.buf.flush k s.conn
    some ⟨r.2.1, r.2.2, []⟩

/-- The buffer holds the frames of the regions, which are laid out in it. -/
structure Inv (s : SendRegions) : Prop where
  holds : s.buf.Holds (s.regions.map Region.contents)
  laid : Region.Laid 12 0 s.regions

theorem inv_of_empty {s : SendRegions} (h : s.buf.mOffset = 0) (hr : s.regions = []) : s.Inv where
  holds := by
    rw [hr]
    exact SendBuffer.holds_nil h
  laid := by
    rw [hr]
    trivial

/-- A reservation puts its region behind those there are. -/
theorem Inv.reserve {s : SendRegions} (h : s.Inv) {size : ℕ}
    (hs : size ≤ SendBuffer.getMaximumAllocationSize) (hf : s.buf.full size = false)
    (t : CommandTransport) (b : SendBuffer)
    (hb : b = ⟨s.buf.mOffset + (12 + size),
      store s.buf.mBuffer s.buf.mOffset (commandHeader size)⟩) :
    Inv ⟨b, t, s.regions ++ [⟨s.buf.mOffset + 12, load b.mBuffer (s.buf.mOffset + 12) size⟩]⟩ where
  holds := by
    subst hb
    -- the payload is what the region happens to hold
    have hlen : (load (store s.buf.mBuffer s.buf.mOffset (commandHeader size))
        (s.buf.mOffset + 12) size).length = size := load_length _ _ _
    have hc := h.holds.command (hlen.le.trans hs) (by rwa [hlen])
    simp only [load_length, SendBuffer.write, store_load] at hc
    rw [List.map_append]
    exact hc
  laid := by
    rw [Region.laid_concat, Nat.zero_add, ← framesOf_length]
    exact ⟨h.laid, congrArg (· + 12) h.holds.offset⟩

theorem Inv.granted {k : Kernel} {s s' : SendRegions} (h : s.Inv) {size : ℕ}
    (hs : size ≤ SendBuffer.getMaximumAllocationSize)
    (hstep : s.step k (.getCmdSpace size) = some s') : s'.Inv := by
  by_cases hf : s.buf.full size = true
  · have h0 := s.buf.flush_mOffset k s.conn
    have hkept : s.kept k size = [] := by
      rw [kept, SendBuffer.internalFlushes_of_full k s.conn hs hf, if_neg (by simp)]
    simp only [step, SendBuffer.getCmdSpace_behind_flush k s.conn hs hf, hkept] at hstep
    by_cases hr : (s.buf.flush k s.conn).1 = true
    · -- the flush went through: the region is the only one
      have hinv : Inv ⟨(s.buf.flush k s.conn).2.1, (s.buf.flush k s.conn).2.2, []⟩ :=
        inv_of_empty h0 rfl
      have hres := hinv.reserve hs (SendBuffer.full_of_empty hs h0) (s.buf.flush k s.conn).2.2 _ rfl
      simp only [h0, Nat.zero_add] at hres
      rw [if_pos hr] at hstep
      rw [← Option.some.inj hstep]
      exact hres
    · rw [if_neg hr] at hstep
      rw [← Option.some.inj hstep]
      exact inv_of_empty h0 rfl
  · have hf' : s.buf.full size = false := by simpa using hf
    have hkept : s.kept k size = s.regions := by
      rw [kept, SendBuffer.internalFlushes_of_not_full k s.conn hf', if_pos rfl]
    simp only [step, SendBuffer.getCmdSpace_of_not_full k s.conn hs hf' h.holds.room,
      hkept] at hstep
    rw [← Option.some.inj hstep]
    exact h.reserve hs hf' s.conn _ rfl

/-- A write into one region changes that region's frame and no other byte. -/
theorem Inv.write {b : SendBuffer} {t : CommandTransport} {pre post : List (Region Byte)}
    {r : Region Byte} (h : Inv ⟨b, t, pre ++ r :: post⟩) {place : ℕ} {xs : List Byte}
    (hplace : place + xs.length ≤ r.contents.length) :
    Inv ⟨b.write (r.start + place) xs, t, pre ++ r.write place xs :: post⟩ := by
  have hstart : r.start + place = (framesOf pre).length + (12 + place) := by
    have hr := (Region.laid_append.mp h.laid).2.1
    rw [hr, framesOf_length]
    omega
  have hoff : b.mOffset = (framesOf (pre ++ r :: post)).length := h.holds.offset
  have hbytes : load b.mBuffer 0 b.mOffset = framesOf (pre ++ r :: post) := h.holds.bytes
  have hfit : r.start + place + xs.length ≤ b.mOffset := by
    rw [hoff, framesOf_append, framesOf_cons, List.length_append,
      List.length_append, frame_length]
    omega
  constructor
  · constructor
    · change b.mOffset = (framesOf (pre ++ r.write place xs :: post)).length
      rw [framesOf_write pre post r hplace, overwrite_length (by rw [← hoff]; omega), hoff]
    · change load (store b.mBuffer (r.start + place) xs) 0 b.mOffset =
        framesOf (pre ++ r.write place xs :: post)
      have hwithin := load_store_within b.mBuffer 0 hfit
      rw [Nat.zero_add, hbytes] at hwithin
      rw [hwithin, framesOf_write pre post r hplace, hstart]
    · exact h.holds.room
  · exact h.laid.write hplace

theorem Inv.step {k : Kernel} {s s' : SendRegions} (h : s.Inv) {op : RegionOp}
    (hw : op.NoWrap) (hstep : s.step k op = some s') : s'.Inv := by
  cases op with
  | getCmdSpace size =>
    rcases le_or_gt size SendBuffer.getMaximumAllocationSize with hs | hs
    · exact h.granted hs hstep
    · -- a refused size changes nothing
      have hlarge := SendBuffer.tooLarge_eq_true hs hw
      simp only [SendRegions.step, SendBuffer.getCmdSpace_of_tooLarge k s.buf s.conn hlarge, kept,
        SendBuffer.internalFlushes_of_tooLarge k s.conn hlarge, if_true] at hstep
      rw [← Option.some.inj hstep]
      exact h
  | write i place xs =>
    simp only [SendRegions.step] at hstep
    split at hstep
    · cases hstep
    · rename_i r hr
      split at hstep
      · rename_i hplace
        obtain ⟨hi, hri⟩ := List.getElem?_eq_some_iff.mp hr
        have hsplit : s.regions = s.regions.take i ++ r :: s.regions.drop (i + 1) := by
          rw [← hri, List.cons_getElem_drop_succ, List.take_append_drop]
        have hinv : Inv ⟨s.buf, s.conn, s.regions.take i ++ r :: s.regions.drop (i + 1)⟩ := by
          rw [← hsplit]
          exact h
        rw [← Option.some.inj hstep, List.set_eq_take_append_cons_drop, if_pos hi]
        exact hinv.write hplace
      · cases hstep
  | flush =>
    rw [← Option.some.inj hstep]
    exact inv_of_empty (s.buf.flush_mOffset k s.conn) rfl

theorem Fresh.inv {s : SendRegions} (h : s.Fresh) : s.Inv := inv_of_empty h.empty h.regions

/-! ## What holds between the operations -/

/-- What the callers and the peer rely on between two operations. -/
structure Sound (s : SendRegions) : Prop where
  offset : s.buf.mOffset ≤ 2000000 - 12
  /-- The bytes in use are the frames of the commands, as they were written. -/
  bytes : load s.buf.mBuffer 0 s.buf.mOffset = frames (s.regions.map Region.contents)
  inside : ∀ r ∈ s.regions, 12 ≤ r.start ∧ r.stop ≤ s.buf.mOffset
  disjoint : s.regions.Pairwise fun r r' => Disjoint r.addresses r'.addresses
  headers : ∀ r ∈ s.regions, ∀ r' ∈ s.regions, Disjoint r.addresses (r'.gapAddresses 12)
  /-- A flush with something pending is one `Send`. -/
  flush : 0 < s.buf.mOffset → ∀ k t,
    s.buf.flush k t = ((t.send k (batchBytes (s.regions.map Region.contents))).1 == 0,
      ⟨0, store s.buf.mBuffer s.buf.mOffset flushHeader⟩,
      (t.send k (batchBytes (s.regions.map Region.contents))).2)
  flushRoom : (batchBytes (s.regions.map Region.contents)).length ≤ 2000000

theorem Inv.sound {s : SendRegions} (h : s.Inv) : s.Sound := by
  have hoff : s.buf.mOffset = (framesOf s.regions).length := h.holds.offset
  constructor
  · exact h.holds.room
  · exact h.holds.bytes
  · intro r hr
    have hin := h.laid.inside r hr
    rw [Nat.zero_add, Nat.zero_add, ← framesOf_length, ← hoff] at hin
    exact hin
  · exact h.laid.disjoint
  · exact h.laid.gaps
  · intro hpos k t
    apply SendBuffer.flush_of_holds k t h.holds
    rw [ne_eq, ← h.holds.eq_nil_iff]
    omega
  · rw [batchBytes_length, ← h.holds.offset]
    have := h.holds.room
    omega

/-- After any operations with sizes up to the advertised maximum, whatever the socket
does, the buffer is the frames of what its callers wrote. -/
theorem run_sound (k : Kernel) {s₀ s : SendRegions} (h₀ : s₀.Fresh) (ops : List RegionOp)
    (hsize : ∀ size, .getCmdSpace size ∈ ops → size ≤ SendBuffer.getMaximumAllocationSize)
    (hrun : Runs.run (step k) s₀ ops = some s) : s.Sound := by
  have hops : ∀ op ∈ ops, op.NoWrap := by
    intro op hop
    cases op with
    | getCmdSpace size =>
      have hs := hsize size hop
      rw [SendBuffer.getMaximumAllocationSize] at hs
      show size + 2 * 12 < 2 ^ 64
      omega
    | write i place xs => trivial
    | flush => trivial
  have halong : Runs.Along (step k) Inv s₀ ops :=
    Runs.along_of_stepsMeet (fun _ _ _ h hc hs => h.step hc hs) h₀.inv
      (Runs.stepsMeet_of_forall hops)
  exact (halong ops (List.prefix_refl ops) s hrun).sound

/-- A sender with nothing reserved and every byte of its buffer zero. -/
def new (connfd : ℤ) : SendRegions := ⟨⟨0, fun _ => 0⟩, ofFd connfd, []⟩

theorem new_fresh (connfd : ℤ) : (new connfd).Fresh := ⟨rfl, rfl⟩

/-- Two commands, the second one filled first. -/
def twoCommands : List RegionOp :=
  [.getCmdSpace 2, .getCmdSpace 1, .write 1 0 [9], .write 0 1 [8]]

theorem run_sound_twoCommands :
    ∃ s, Runs.run (step fun _ size => .accepted size) (new 3) twoCommands = some s ∧ s.Sound ∧
      s.regions = [⟨12, [0, 8]⟩, ⟨26, [9]⟩] := by
  have hregions : (Runs.run (step fun _ size => .accepted size) (new 3) twoCommands).map regions =
      some [⟨12, [0, 8]⟩, ⟨26, [9]⟩] := by decide +kernel
  obtain ⟨s, hs, hr⟩ := Option.map_eq_some_iff.mp hregions
  refine ⟨s, hs, ?_, hr⟩
  apply run_sound _ (new_fresh 3) twoCommands _ hs
  intro size hmem
  simp only [twoCommands, List.mem_cons, List.not_mem_nil, RegionOp.getCmdSpace.injEq,
    reduceCtorEq, or_false] at hmem
  unfold SendBuffer.getMaximumAllocationSize
  omega

end SendRegions

end WebGpuDD
