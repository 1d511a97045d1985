import WebGpuDD.RecvBuffer
import WebGpuDD.Lib.Regions

/-!
# The regions of a `RecvBuffer`

A `RecvBuffer` whose caller fills each region that it gets before the next call, with a
handler that may accept or reject every batch. Whatever was put into a region is either
still in the buffer or was handed to the handler once, in order.
-/

namespace WebGpuDD

open LittleEndian Memory

namespace RecvBuffer

variable {σ : Type*} (H : CommandHandler σ)

/-- What the flushes inside `GetCmdSpace` returned, one for each time it recurses. -/
def internalFlushes (size : ℕ) (b : RecvBuffer) (e : σ) : List Bool :=
  if 2000000 < size then []
  else if b.full size then
    match _h : b.flush H e with
    | (false, _, _) => [false]
    | (true, b', e') => true :: internalFlushes size b' e'
  else []
termination_by b.mOffset
decreasing_by
  rename_i hfull
  have h0 : (b.flush H e).2.1.mOffset = 0 := rfl
  simp_all [full]
  omega

section

variable {size : ℕ} {b : RecvBuffer} (e : σ)

theorem internalFlushes_of_tooLarge (h : 2000000 < size) : b.internalFlushes H size e = [] := by
  rw [internalFlushes, if_pos h]

theorem internalFlushes_of_fits (h : b.mOffset + size ≤ 2000000) :
    b.internalFlushes H size e = [] := by
  have hf : ¬ b.full size = true := by
    rw [full_iff (by omega)]
    omega
  rw [internalFlushes, if_neg (by omega), if_neg hf]

theorem internalFlushes_of_flush (hs : ¬ 2000000 < size) (hf : b.full size = true) :
    b.internalFlushes H size e = (b.flush H e).1 ::
      if (b.flush H e).1 then (b.flush H e).2.1.internalFlushes H size (b.flush H e).2.2 else [] := by
  rw [internalFlushes, if_neg hs, if_pos hf]
  split <;> rename_i h <;> simp [h]

theorem internalFlushes_of_full (hs : size ≤ 2000000) (h : 2000000 < b.mOffset + size) :
    b.internalFlushes H size e =
      [(H.handleCommands (load b.mBuffer 0 b.mOffset) e).1] := by
  have hempty : (b.flush H e).2.1.mOffset + size ≤ 2000000 := (Nat.zero_add size).le.trans hs
  rw [internalFlushes_of_flush H e (Nat.not_lt.mpr hs) ((full_iff hs).mpr h),
    internalFlushes_of_fits H _ hempty, ite_self]
  rfl

/-- Each of them is one call of `HandleCommands`, of which they are the answers. -/
theorem getCmdSpace_calls (answer : List (List Byte) → List Byte → Bool) (size : ℕ)
    (b : RecvBuffer) (log : List (List Byte)) :
    ∃ calls, (b.getCmdSpace (.recorder answer) size log).2.2 = log ++ calls ∧
      b.internalFlushes (.recorder answer) size log =
        calls.mapIdx fun i call => answer (log ++ calls.take i) call := by
  fun_induction getCmdSpace (.recorder answer) size b log with
  | case1 b log hlarge => exact ⟨[], by simp, internalFlushes_of_tooLarge _ log hlarge⟩
  | case2 b log hlarge hfull b' log' hfailed =>
    have hlog : log ++ [load b.mBuffer 0 b.mOffset] = log' := congrArg (·.2.2) hfailed
    have hanswer : answer log (load b.mBuffer 0 b.mOffset) = false := congrArg Prod.fst hfailed
    refine ⟨[load b.mBuffer 0 b.mOffset], hlog.symm, ?_⟩
    rw [internalFlushes_of_flush _ log hlarge hfull, hfailed, if_neg (by simp)]
    simp [hanswer]
  | case3 b log hlarge hfull b' log' hdone ih =>
    have hlog : log ++ [load b.mBuffer 0 b.mOffset] = log' := congrArg (·.2.2) hdone
    have hanswer : answer log (load b.mBuffer 0 b.mOffset) = true := congrArg Prod.fst hdone
    obtain ⟨calls, hcalls, hanswers⟩ := ih
    refine ⟨load b.mBuffer 0 b.mOffset :: calls, ?_, ?_⟩
    · rw [hcalls, ← hlog, List.append_assoc]
      rfl
    · rw [internalFlushes_of_flush _ log hlarge hfull, hdone, if_pos rfl, hanswers, ← hlog,
        List.mapIdx_cons]
      simp [hanswer]
  | case4 b log hlarge hfull =>
    refine ⟨[], by simp, ?_⟩
    rw [internalFlushes, if_neg hlarge, if_neg hfull]
    rfl

end

end RecvBuffer

/-- A `RecvBuffer` with the calls its handler got, the regions that it returned since the
last flush, and the contents of all regions it ever returned. -/
structure RecvRegions where
  buf : RecvBuffer
  log : List (List Byte)
  regions : List (Region Byte)
  returned : List (List Byte)

/-- What a caller does: reserve room for some contents and fill it, or flush. -/
inductive RecvOp where
  | getCmdSpace (contents : List Byte)
  | flush

namespace RecvRegions

variable (answer : List (List Byte) → List Byte → Bool)

structure Fresh (s : RecvRegions) : Prop where
  empty : s.buf.mOffset = 0
  log : s.log = []
  regions : s.regions = []
  returned : s.returned = []

/-- The regions that the flushes inside `GetCmdSpace` leave, if it makes any. -/
def kept (size : ℕ) (s : RecvRegions) : List (Region Byte) :=
  if s.buf.internalFlushes (.recorder answer) size s.log = [] then s.regions else []

def step (s : RecvRegions) : RecvOp → RecvRegions
  | .getCmdSpace contents =>
    let r := s.buf.getCmdSpace (.recorder answer) contents.length s.log
    match r.1 with
    | none => ⟨r.2.1, r.2.2, s.kept answer contents.length, s.returned⟩
    | some p => ⟨{ r.2.1 with mBuffer := store r.2.1.mBuffer p contents }, r.2.2,
        s.kept answer contents.length ++ [⟨p, contents⟩], s.returned ++ [contents]⟩
  | .flush =>
    let r := s.buf.flush (.recorder answer) s.log
    ⟨r.2.1, r.2.2, [], s.returned⟩

def run (s : RecvRegions) (ops : List RecvOp) : RecvRegions := ops.foldl (step answer) s

/-- The buffer holds the contents of the regions, which are laid out in it, and the
handler got what was returned before them. -/
structure Inv (s : RecvRegions) : Prop where
  room : s.buf.mOffset ≤ 2000000
  offset : s.buf.mOffset = Region.extent 0 s.regions
  bytes : load s.buf.mBuffer 0 s.buf.mOffset = (s.regions.map Region.contents).flatten
  laid : Region.Laid 0 0 s.regions
  log : s.log.flatten ++ (s.regions.map Region.contents).flatten = s.returned.flatten

variable {answer} {s : RecvRegions}

theorem Fresh.inv (h : s.Fresh) : s.Inv where
  room := by
    rw [h.empty]
    exact Nat.zero_le _
  offset := by
    rw [h.empty, h.regions]
    rfl
  bytes := by
    rw [h.empty, h.regions]
    rfl
  laid := by
    rw [h.regions]
    trivial
  log := by rw [h.log, h.regions, h.returned]; rfl

/-- A reservation in front of which nothing is flushed. -/
theorem Inv.reserve (h : s.Inv) {contents : List Byte}
    (hfit : s.buf.mOffset + contents.length ≤ 2000000) :
    Inv ⟨⟨s.buf.mOffset + contents.length, store s.buf.mBuffer s.buf.mOffset contents⟩, s.log,
      s.regions ++ [⟨s.buf.mOffset, contents⟩], s.returned ++ [contents]⟩ where
  room := hfit
  offset := by
    rw [Region.extent_append, h.offset]
    simp
  bytes := by
    have happ := load_store_append s.buf.mBuffer 0 s.buf.mOffset contents
    rw [Nat.zero_add, h.bytes] at happ
    rw [happ]
    simp
  laid := by
    rw [Region.laid_concat]
    exact ⟨h.laid, h.offset.trans (Nat.zero_add _).symm⟩
  log := by
    rw [List.flatten_append, ← h.log]
    simp

/-- A flush hands everything pending to the handler. -/
theorem Inv.flush (h : s.Inv) :
    Inv ⟨⟨0, s.buf.mBuffer⟩, s.log ++ [load s.buf.mBuffer 0 s.buf.mOffset], [], s.returned⟩ where
  room := Nat.zero_le _
  offset := rfl
  bytes := rfl
  laid := trivial
  log := by
    rw [List.flatten_append, h.bytes, ← h.log]
    simp

/-! ## What a call does -/

section Call

variable (s) {size : ℕ}

theorem kept_of_tooLarge (h : 2000000 < size) : s.kept answer size = s.regions := by
  rw [kept, RecvBuffer.internalFlushes_of_tooLarge _ _ h, if_pos rfl]

theorem kept_of_fits (h : s.buf.mOffset + size ≤ 2000000) : s.kept answer size = s.regions := by
  rw [kept, RecvBuffer.internalFlushes_of_fits _ _ h, if_pos rfl]

theorem kept_of_full (hs : size ≤ 2000000) (h : 2000000 < s.buf.mOffset + size) :
    s.kept answer size = [] := by
  rw [kept, RecvBuffer.internalFlushes_of_full _ _ hs h, if_neg (by simp)]

end Call

theorem Inv.step (h : s.Inv) (op : RecvOp) : (s.step answer op).Inv := by
  cases op with
  | flush => exact h.flush
  | getCmdSpace contents =>
    by_cases hs : 2000000 < contents.length
    · simp only [RecvRegions.step, RecvBuffer.getCmdSpace_of_tooLarge _ _ _ hs,
        s.kept_of_tooLarge hs]
      exact h
    · by_cases hfit : s.buf.mOffset + contents.length ≤ 2000000
      · simp only [RecvRegions.step, RecvBuffer.getCmdSpace_of_fits _ _ hfit, s.kept_of_fits hfit]
        exact h.reserve hfit
      · have hkept : s.kept answer contents.length = [] :=
          s.kept_of_full (Nat.not_lt.mp hs) (Nat.not_le.mp hfit)
        simp only [RecvRegions.step, hkept, RecvBuffer.getCmdSpace_of_full _ _ (Nat.not_lt.mp hs)
          (Nat.not_le.mp hfit), CommandHandler.recorder]
        cases answer s.log (load s.buf.mBuffer 0 s.buf.mOffset) with
        | true =>
          -- the batch was accepted: the region starts the emptied buffer
          have hres := h.flush.reserve (show 0 + contents.length ≤ 2000000 by omega)
          simpa using hres
        | false => exact h.flush

theorem Inv.run (h : s.Inv) (ops : List RecvOp) : (s.run answer ops).Inv := by
  induction ops generalizing s with
  | nil => exact h
  | cons op ops ih => exact ih (h.step op)

/-! ## What holds between the calls -/

/-- What a call for `size` bytes does: it flushes at most once; a region that it returns
lies inside the buffer and apart from those returned since the last flush; and it returns
none exactly where the size exceeds the buffer, with nothing changed, or where the
handler rejected the flush, with the buffer left empty. -/
structure Reserves (answer : List (List Byte) → List Byte → Bool) (s : RecvRegions)
    (size : ℕ) : Prop where
  oneFlush : (s.buf.internalFlushes (.recorder answer) size s.log).length ≤ 1
  region : ∀ p, (s.buf.getCmdSpace (.recorder answer) size s.log).1 = some p →
    p + size ≤ 2000000 ∧
      ∀ r ∈ s.kept answer size, Disjoint (Set.Ico p (p + size)) r.addresses
  refused : (s.buf.getCmdSpace (.recorder answer) size s.log).1 = none ↔
    2000000 < size ∨ s.buf.internalFlushes (.recorder answer) size s.log = [false]
  tooLarge : 2000000 < size →
    s.buf.getCmdSpace (.recorder answer) size s.log = (none, s.buf, s.log)
  rejected : s.buf.internalFlushes (.recorder answer) size s.log = [false] →
    (s.buf.getCmdSpace (.recorder answer) size s.log).2.1.mOffset = 0

theorem reserves_of_tooLarge {size : ℕ} (h : 2000000 < size) : s.Reserves answer size := by
  have hcall := RecvBuffer.getCmdSpace_of_tooLarge (.recorder answer) s.buf s.log h
  have hflush := RecvBuffer.internalFlushes_of_tooLarge (b := s.buf) (.recorder answer) s.log h
  constructor
  · rw [hflush]
    exact Nat.zero_le _
  · intro p hp
    rw [hcall] at hp
    cases hp
  · rw [hcall]
    exact iff_of_true rfl (.inl h)
  · exact fun _ => hcall
  · intro hrej
    rw [hflush] at hrej
    cases hrej

theorem Inv.reserves_of_fits (h : s.Inv) {size : ℕ} (hfit : s.buf.mOffset + size ≤ 2000000) :
    s.Reserves answer size := by
  have hcall := RecvBuffer.getCmdSpace_of_fits (.recorder answer) s.log hfit
  have hflush := RecvBuffer.internalFlushes_of_fits (.recorder answer) s.log hfit
  constructor
  · rw [hflush]
    exact Nat.zero_le _
  · intro p hp
    rw [hcall] at hp
    rw [← Option.some.inj hp, s.kept_of_fits hfit]
    refine ⟨hfit, ?_⟩
    -- the regions there are end where the new one starts
    intro r hr
    have hstop := (h.laid.inside r hr).2
    rw [Nat.zero_add, ← h.offset] at hstop
    simp only [Region.addresses, Set.disjoint_left, Set.mem_Ico]
    omega
  · rw [hcall, hflush]
    apply iff_of_false
    · simp
    · rw [not_or]
      exact ⟨by omega, by simp⟩
  · intro hs
    omega
  · intro hrej
    rw [hflush] at hrej
    cases hrej

theorem reserves_of_full {size : ℕ} (hs : size ≤ 2000000)
    (hfull : 2000000 < s.buf.mOffset + size) : s.Reserves answer size := by
  have hcall := RecvBuffer.getCmdSpace_of_full (.recorder answer) s.log hs hfull
  have hflush := RecvBuffer.internalFlushes_of_full (.recorder answer) s.log hs hfull
  constructor
  · rw [hflush]
    exact Nat.le_refl 1
  · intro p hp
    rw [hcall] at hp
    rw [s.kept_of_full hs hfull]
    split at hp
    · rw [← Option.some.inj hp, Nat.zero_add]
      exact ⟨hs, by simp⟩
    · cases hp
  · rw [hcall, hflush]
    split <;> rename_i hr <;> simp [hr, Nat.not_lt.mpr hs]
  · intro hlt
    omega
  · intro hrej
    rw [hflush, List.singleton_inj] at hrej
    rw [hcall, hrej, if_neg (by simp)]

theorem Inv.reserves (h : s.Inv) (size : ℕ) : s.Reserves answer size := by
  by_cases hs : 2000000 < size
  · exact reserves_of_tooLarge hs
  · by_cases hfit : s.buf.mOffset + size ≤ 2000000
    · exact h.reserves_of_fits hfit
    · exact reserves_of_full (Nat.not_lt.mp hs) (Nat.not_le.mp hfit)

/-- Nothing is lost and nothing is duplicated, and the next call does what it says for
every size. -/
structure Conserved (answer : List (List Byte) → List Byte → Bool) (s : RecvRegions) : Prop where
  room : s.buf.mOffset ≤ 2000000
  inside : ∀ r ∈ s.regions, r.stop ≤ s.buf.mOffset
  disjoint : s.regions.Pairwise fun r r' => Disjoint r.addresses r'.addresses
  /-- What the handler got and what is pending are the contents of all regions returned. -/
  contents : s.log.flatten ++ load s.buf.mBuffer 0 s.buf.mOffset = s.returned.flatten
  reserves : ∀ size, s.Reserves answer size

theorem Inv.conserved (h : s.Inv) : s.Conserved answer where
  room := h.room
  inside := by
    intro r hr
    rw [h.offset]
    have := (h.laid.inside r hr).2
    omega
  disjoint := h.laid.disjoint
  contents := by rw [h.bytes, h.log]
  reserves := h.reserves

/-- After any reservations and flushes, whatever the handler answers: the handler's calls
and the pending bytes are the contents of the regions returned, in order. -/
theorem run_conserved (answer : List (List Byte) → List Byte → Bool) {s : RecvRegions}
    (h : s.Fresh) (ops : List RecvOp) : (s.run answer ops).Conserved answer :=
  (h.inv.run ops).conserved

/-- A receiver with nothing reserved and every byte of its buffer zero. -/
def new : RecvRegions := ⟨⟨0, fun _ => 0⟩, [], [], []⟩

/-- Two commands, of which the handler rejects the first. -/
theorem run_conserved_rejected :
    (new.run (fun log _ => !log.isEmpty)
      [.getCmdSpace [1, 2], .flush, .getCmdSpace [3], .flush]).Conserved
        (fun log _ => !log.isEmpty) ∧
    (new.run (fun log _ => !log.isEmpty)
      [.getCmdSpace [1, 2], .flush, .getCmdSpace [3], .flush]).log = [[1, 2], [3]] :=
  ⟨run_conserved _ ⟨rfl, rfl, rfl, rfl⟩ _, by decide +kernel⟩

end RecvRegions

end WebGpuDD
