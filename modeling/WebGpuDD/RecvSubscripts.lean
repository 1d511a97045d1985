import WebGpuDD.RecvProgress
import WebGpuDD.BatchStream

/-!
# The subscripts of the receiving side

`std::array::operator[]` is defined below the size of the array only, also where nothing
but the address of the result is taken. `Recv` takes `&recv_buf[nread - bytes_left]` for
the body of a command before it knows whether the read holds a byte of it.
-/

namespace WebGpuDD

open LittleEndian Loop

/-! ## Headers at the end of a stream -/

namespace Reference

/-- The last byte of the stream completes the header of a command. -/
def CommandHeaderLast (bs : List Byte) : Prop :=
  ∃ pre b h, bs = pre ++ [b] ∧ (parse pre).completes b = some h ∧ h.type ≠ 2

section CommandHeaderLast

variable {bs xs got : List Byte}

theorem commandHeaderLast_concat {b : Byte} :
    CommandHeaderLast (bs ++ [b]) ↔ ∃ h, (parse bs).completes b = some h ∧ h.type ≠ 2 := by
  constructor
  · intro ⟨pre, c, h, hbs, hc⟩
    obtain ⟨rfl, hb⟩ := List.append_inj' hbs rfl
    rw [List.singleton_inj.mp hb]
    exact ⟨h, hc⟩
  · intro ⟨h, hc⟩
    exact ⟨bs, b, h, rfl, hc⟩

theorem not_commandHeaderLast_header (hp : (parse bs).phase = .header got) (hne : xs ≠ [])
    (hlt : got.length + xs.length < 12) : ¬ CommandHeaderLast (bs ++ xs) := by
  obtain ⟨ys, b, rfl⟩ := List.eq_nil_or_concat' xs |>.resolve_left hne
  rw [List.length_append, List.length_singleton] at hlt
  rw [← List.append_assoc, commandHeaderLast_concat, parse_append,
    run_header_part hp (by omega)]
  rintro ⟨h, hc, -⟩
  simp only [completes, List.length_append] at hc
  rw [if_pos (by omega)] at hc
  cases hc

theorem commandHeaderLast_iff (hp : (parse bs).phase = .header got) (hne : xs ≠ [])
    (hlen : got.length + xs.length = 12) :
    CommandHeaderLast (bs ++ xs) ↔ (CommandTlv.ofBytes (got ++ xs)).type ≠ 2 := by
  obtain ⟨ys, b, rfl, -, hcomp⟩ := header_last hp hlen hne
  rw [← List.append_assoc, commandHeaderLast_concat, hcomp]
  simp

theorem not_commandHeaderLast_command {len : ℕ} (hp : (parse bs).phase = .command len got)
    (hne : xs ≠ []) (hle : got.length + xs.length ≤ len) : ¬ CommandHeaderLast (bs ++ xs) := by
  obtain ⟨ys, b, rfl⟩ := List.eq_nil_or_concat' xs |>.resolve_left hne
  rw [List.length_append, List.length_singleton] at hle
  rw [← List.append_assoc, commandHeaderLast_concat, parse_append,
    run_command_part hp (by omega)]
  rintro ⟨h, hc, -⟩
  cases hc

end CommandHeaderLast

end Reference

/-! ## `mBuffer` -/

namespace RecvBuffer

variable {σ : Type*} (H : CommandHandler σ)

/-- The subscripts that `GetCmdSpace` applies to `mBuffer`: the fill level, before the
fit test, and once more behind a flush. -/
def getCmdSpaceSubscripts (size : ℕ) (b : RecvBuffer) (e : σ) : List ℕ :=
  if 2000000 < size then []
  else b.mOffset ::
    if b.full size then
      match _h : b.flush H e with
      | (false, _, _) => []
      | (true, b', e') => getCmdSpaceSubscripts size b' e'
    else []
termination_by b.mOffset
decreasing_by
  rename_i hfull
  have h0 : (b.flush H e).2.1.mOffset = 0 := rfl
  simp_all [full]
  omega

end RecvBuffer

/-- The subscripts of a recorded call of `GetCmdSpace`. -/
def Reservation.subscripts (q : Reservation) : List ℕ :=
  if 2000000 < q.size then []
  else if q.mOffset + q.size ≤ 2000000 ∨ q.result = none then [q.mOffset]
  else [q.mOffset, 0]

theorem RecvBuffer.getCmdSpaceSubscripts_of_fits {σ : Type*} (H : CommandHandler σ) {size : ℕ}
    {b : RecvBuffer} (e : σ) (h : b.mOffset + size ≤ 2000000) :
    b.getCmdSpaceSubscripts H size e = [b.mOffset] := by
  have hf : ¬ b.full size = true := by
    rw [full_iff (by omega)]
    omega
  rw [getCmdSpaceSubscripts, if_neg (by omega), if_neg hf]

/-- What is recorded of a call determines its subscripts. -/
theorem RecvBuffer.getCmdSpaceSubscripts_eq {σ : Type*} (H : CommandHandler σ) (size : ℕ)
    (b : RecvBuffer) (e : σ) : b.getCmdSpaceSubscripts H size e =
      Reservation.subscripts ⟨b.mOffset, size, (b.getCmdSpace H size e).1⟩ := by
  simp only [Reservation.subscripts]
  by_cases hs : 2000000 < size
  · rw [getCmdSpaceSubscripts, if_pos hs, if_pos hs]
  rw [if_neg hs]
  by_cases hfit : b.mOffset + size ≤ 2000000
  · rw [getCmdSpaceSubscripts_of_fits H e hfit, if_pos (.inl hfit)]
  · rw [getCmdSpace_of_full H e (by omega) (by omega), getCmdSpaceSubscripts, if_neg hs,
      if_pos ((full_iff (by omega)).mpr (by omega))]
    split
    · rename_i b' e' hflush
      simp only [flush, Prod.mk.injEq] at hflush
      simp [hflush]
    · rename_i b' e' hflush
      simp only [flush, Prod.mk.injEq] at hflush
      obtain ⟨h1, rfl, rfl⟩ := hflush
      rw [getCmdSpaceSubscripts_of_fits H _ (by simpa using hs)]
      simp [h1, hfit]

namespace Recv

open Reference (parse CommandHeaderLast FitsIn)

variable {σ : Type*} (H : CommandHandler σ) (e₀ : σ)

/-- The subscripts that the calls of `GetCmdSpace` applied to `mBuffer`. -/
def mBufferSubscripts (s : Recv σ) : List ℕ := s.reservations.flatMap Reservation.subscripts

/-- A call of `GetCmdSpace` adds the subscripts that it applies. -/
theorem mBufferSubscripts_reserve (size : ℕ) (s : Recv σ) :
    (s.reserve H size).mBufferSubscripts =
      s.mBufferSubscripts ++ s.rbuf.getCmdSpaceSubscripts H size s.env := by
  rw [RecvBuffer.getCmdSpaceSubscripts_eq]
  simp [mBufferSubscripts, reserve]

variable {H e₀} in
/-- A stream whose commands leave the receive buffer short of full keeps the subscripts of
`mBuffer` in range. -/
theorem run_mBufferSubscripts {s : Recv σ} (hs : s.Entered) (reads : List Received) {room : ℕ}
    (hroom : room < 2000000) (h : FitsIn room (receivedBytes reads)) :
    ∀ i ∈ (s.run H reads).mBufferSubscripts, i < 2000000 := by
  intro i hi
  obtain ⟨q, hq, hi⟩ := List.mem_flatMap.mp hi
  have hclean : Clean H s.env (receivedBytes reads) := clean_of_fits (h.fits hroom.le)
  obtain ⟨pre, b, post, t, hbs, ht, htype, rfl⟩ :=
    run_reservations_of_clean hs reads hclean q hq
  have hfit := h pre b post t hbs ht htype
  rw [Reservation.subscripts] at hi
  split_ifs at hi <;> simp at hi <;> omega

/-! ## `recv_buf` -/

/-- The subscripts that `Recv` has applied to `recv_buf`: 0 for `recv(2)`, and the source
of each `memcpy`. -/
def recvBufSubscripts (s : Recv σ) : List ℤ := 0 :: s.copies.map Memcpy.src

/-- All of them are below the size of `recv_buf`. -/
def RecvBufOk (s : Recv σ) : Prop := ∀ i ∈ s.recvBufSubscripts, 0 ≤ i ∧ i < 65536

theorem Entered.recvBufOk {s : Recv σ} (hs : s.Entered) : s.RecvBufOk := by
  simp [RecvBufOk, recvBufSubscripts, hs.copies]

theorem recvBufOk_concat {s s' : Recv σ} {c : Memcpy} (h : s'.copies = s.copies ++ [c]) :
    s'.RecvBufOk ↔ s.RecvBufOk ∧ 0 ≤ c.src ∧ c.src < 65536 := by
  simp only [RecvBufOk, recvBufSubscripts, h, List.map_append, List.map_cons, List.map_nil,
    ← List.cons_append, List.forall_mem_append, List.forall_mem_singleton]

/-- A read of 65,536 bytes that ends with the last byte of a command's header. -/
def Cut (bs data : List Byte) : Prop := data.length = 65536 ∧ CommandHeaderLast (bs ++ data)

/-- Behind the bytes `bs` there is such a read. -/
def CutBehindHeader : List Byte → List Received → Prop
  | _, [] => False
  | bs, .data c :: rs => Cut bs c.bytes ∨ CutBehindHeader (bs ++ c.bytes) rs
  | bs, .again :: rs => CutBehindHeader bs rs
  | _, .closed :: _ => False
  | _, .failed _ :: _ => False

section Pass

variable {H e₀} {s : Recv σ} {bs data done rest got xs post : List Byte}

/-- What the pass `f` adds to the subscripts: it ends in range unless it has consumed a read
that is cut behind a header. -/
def PassSubscripts (bs data : List Byte) (s : Recv σ) (f : Flow (Recv σ)) : Prop :=
  f.Ends (fun s' => s'.RecvBufOk ↔ s.RecvBufOk ∧ ¬ (s'.bytesLeft = 0 ∧ Cut bs data))
    (fun s' => (s'.RecvBufOk ↔ s.RecvBufOk) ∧ ¬ Cut bs data)

/-- One copy of bytes that are there, in a pass behind which the read is not cut. -/
theorem passSubscripts_next {s' : Recv σ} {c : Memcpy} {n : ℕ} (h : s'.copies = s.copies ++ [c])
    (hsrc : c.src = n) (hlt : n < 65536) (hno : s'.bytesLeft = 0 → ¬ Cut bs data) :
    PassSubscripts bs data s (.next s') := by
  show s'.RecvBufOk ↔ s.RecvBufOk ∧ ¬ (s'.bytesLeft = 0 ∧ Cut bs data)
  rw [recvBufOk_concat h, not_and]
  apply and_congr_right'
  exact iff_of_true (by omega) hno

/-- A command that is continued is copied from the start of `recv_buf`. -/
theorem command_subscripts {len : ℕ} (hrel : Rel H e₀ s (parse bs))
    (hp : (parse bs).phase = .command len got) (hb : s.bytesLeft = data.length)
    (hne : data ≠ []) : PassSubscripts bs data s (s.body H data) := by
  have hplace := hrel.place
  simp only [Place, hp] at hplace
  have hleft := hplace.cmdLenLeft
  have hpartly := hplace.partly
  rw [body_of_command hplace.recvCmd]
  apply passSubscripts_next (n := 0) rfl rfl (by decide)
  -- where the read is used up, its last byte belongs to the body
  intro hall hcut
  apply Reference.not_commandHeaderLast_command hp hne _ hcut.2
  simp only [hb, hleft] at hall
  split_ifs at hall <;> omega

/-- A header that the read leaves incomplete. -/
theorem headerPart_subscripts (hrel : Rel H e₀ s (parse (bs ++ done)))
    (hp : (parse (bs ++ done)).phase = .header got) (hsize : (done ++ rest).length ≤ 65536)
    (hb : s.bytesLeft = rest.length) (hne : rest ≠ []) (hlt : got.length + rest.length < 12) :
    PassSubscripts bs (done ++ rest) s (s.body H (done ++ rest)) := by
  have hplace := hrel.place
  simp only [Place, hp] at hplace
  have hleft := hplace.hdrLenLeft
  have hpos := List.length_pos_iff.mpr hne
  rw [List.length_append] at hsize
  rw [body_of_headerPart hplace.recvCmd (by omega)]
  constructor
  · rw [recvBufOk_concat rfl]
    apply and_iff_left
    simp only [List.length_append, hb]
    omega
  · intro hcut
    have hlast := hcut.2
    rw [← List.append_assoc] at hlast
    exact Reference.not_commandHeaderLast_header hp hne hlt hlast

/-- The header of a flush frame. -/
theorem flush_subscripts (hrel : Rel H e₀ s (parse (bs ++ done)))
    (hp : (parse (bs ++ done)).phase = .header got)
    (hsize : (done ++ (xs ++ post)).length ≤ 65536) (hb : s.bytesLeft = (xs ++ post).length)
    (hlen : got.length + xs.length = 12) (hxs : xs ≠ [])
    (ht : (CommandTlv.ofBytes (got ++ xs)).type = 2) :
    PassSubscripts bs (done ++ (xs ++ post)) s (s.body H (done ++ (xs ++ post))) := by
  obtain ⟨hbody, hdone⟩ := header_done hrel hp rfl hb hlen
  have hpos := List.length_pos_iff.mpr hxs
  simp only [List.length_append] at hsize hb
  rw [hbody, if_pos ht]
  apply passSubscripts_next (n := done.length) rfl
  · simp only [List.length_append, hb]
    omega
  · omega
  · -- where the read is used up, its last byte completes the flush header
    intro hall hcut
    have hpost : post = [] := by
      have hleft : ((s.headerRead (done ++ (xs ++ post))).flush H).bytesLeft = post.length :=
        hdone.bytesLeft
      exact List.length_eq_zero_iff.mp (by omega)
    have hlast := hcut.2
    rw [hpost, List.append_nil, ← List.append_assoc] at hlast
    exact (Reference.commandHeaderLast_iff hp hxs hlen).mp hlast ht

/-- Where the header of a command takes the last byte of a read, the subscript for its body
is `nread`. -/
theorem begin_subscript_iff {h : CommandTlv} (hp : (parse (bs ++ done)).phase = .header got)
    (hsize : (done ++ (xs ++ post)).length ≤ 65536) (hlen : got.length + xs.length = 12)
    (hxs : xs ≠ []) (hh : CommandTlv.ofBytes (got ++ xs) = h) (ht : h.type ≠ 2) :
    done.length + xs.length < 65536 ↔
      ¬ (post.length ≤ h.len ∧ Cut bs (done ++ (xs ++ post))) := by
  have hassoc : bs ++ (done ++ (xs ++ post)) = bs ++ done ++ xs ++ post := by simp
  simp only [List.length_append] at hsize
  by_cases hpost : post = []
  · subst hpost
    have hlast : CommandHeaderLast (bs ++ (done ++ (xs ++ []))) := by
      rw [hassoc, List.append_nil, Reference.commandHeaderLast_iff hp hxs hlen, hh]
      exact ht
    simp only [Cut, hlast, and_true, List.length_append, List.length_nil, Nat.zero_le, true_and]
      at hsize ⊢
    omega
  · have hpos := List.length_pos_iff.mpr hpost
    apply iff_of_true
    · omega
    · -- the last byte of the read belongs to the body
      rintro ⟨hle, -, hlast⟩
      rw [hassoc] at hlast
      have hphase := Reference.onHeader_command_phase (r := parse (bs ++ done)) ht
      rw [if_neg (by omega), ← hh, ← Reference.run_header_full hp hlen hxs,
        ← Reference.parse_append, hh] at hphase
      exact Reference.not_commandHeaderLast_command hphase hpost (by simpa using hle) hlast

/-- The header of a command, with the first copy of its body. -/
theorem begin_subscripts {h : CommandTlv} (hrel : Rel H e₀ s (parse (bs ++ done)))
    (hp : (parse (bs ++ done)).phase = .header got)
    (hsize : (done ++ (xs ++ post)).length ≤ 65536) (hb : s.bytesLeft = (xs ++ post).length)
    (hlen : got.length + xs.length = 12) (hxs : xs ≠ [])
    (hh : CommandTlv.ofBytes (got ++ xs) = h) (ht : h.type ≠ 2) (hsmall : h.len ≤ 2000000) :
    PassSubscripts bs (done ++ (xs ++ post)) s (s.body H (done ++ (xs ++ post))) := by
  obtain ⟨hbody, hdone⟩ := header_done hrel hp rfl hb hlen
  have hiff := begin_subscript_iff hp hsize hlen hxs hh ht
  rw [hh] at hbody hdone
  rw [hbody, if_neg ht]
  have hpos := List.length_pos_iff.mpr hxs
  have hssize : toSsize (s.headerRead (done ++ (xs ++ post))).tlv.len = h.len := by
    rw [hdone.tlv, toSsize_of_lt (by omega)]
  -- the first copy is that of the header
  have hheader : (s.headerRead (done ++ (xs ++ post))).RecvBufOk ↔ s.RecvBufOk := by
    rw [recvBufOk_concat rfl]
    apply and_iff_left
    simp only [List.length_append, hb] at hsize ⊢
    omega
  show (beginCommand _ _ _).RecvBufOk ↔ _
  rw [recvBufOk_concat (s := s.headerRead (done ++ (xs ++ post))) rfl, hheader]
  apply and_congr_right'
  simp only [hdone.bytesLeft, beginCommand, hssize]
  have hall : ((post.length : ℤ) - (if (h.len : ℤ) ≤ post.length then (h.len : ℤ) else post.length)
      = 0) ↔ post.length ≤ h.len := by
    split_ifs <;> omega
  rw [hall, ← hiff]
  simp only [List.length_append]
  omega

/-- A pass that starts in a header. -/
theorem header_subscripts (hrel : Rel H e₀ s (parse (bs ++ done)))
    (hp : (parse (bs ++ done)).phase = .header got) (hsize : (done ++ rest).length ≤ 65536)
    (hb : s.bytesLeft = rest.length) (hne : rest ≠ [])
    (hclean : Clean H e₀ (bs ++ (done ++ rest))) :
    PassSubscripts bs (done ++ rest) s (s.body H (done ++ rest)) := by
  have hplace := hrel.place
  simp only [Place, hp] at hplace
  have hpartly := hplace.partly
  by_cases hlt : got.length + rest.length < 12
  · exact headerPart_subscripts hrel hp hsize hb hne hlt
  obtain ⟨xs, post, rfl, hlen, hxs⟩ := Reference.header_split hpartly (Nat.not_lt.mp hlt)
  by_cases ht : (CommandTlv.ofBytes (got ++ xs)).type = 2
  · exact flush_subscripts hrel hp hsize hb hlen hxs ht
  · apply begin_subscripts hrel hp hsize hb hlen hxs rfl ht
    -- the command is not refused
    obtain ⟨ys, b, rfl, -, hcomp⟩ := Reference.header_last hp hlen hxs
    have hno := hclean (bs ++ done ++ ys) b post _ (by simp) hcomp
    exact Nat.le_of_not_lt fun hbig => hno ⟨ht, .inl hbig⟩

end Pass

section Run

variable {H e₀} {s : Recv σ} {bs : List Byte}

/-- A pass that starts at a loop head of the read `c`. -/
theorem head_subscripts {t : Recv σ} {c : Chunk} (hsim : Sim H e₀ s bs)
    (hrun : s.outcome = .running) (hclean : Clean H e₀ (bs ++ c.bytes))
    (hhead : Head guard (body H c.bytes) (s.entry c) t) (hpos : 0 < t.bytesLeft) :
    PassSubscripts bs c.bytes t (t.body H c.bytes) := by
  obtain ⟨-, done, rest, hdata, hb, hrel, hends⟩ := head_rel hsim hrun hclean hhead
  have hsize := c.le
  have hrest : rest ≠ [] := by
    intro hnil
    simp [hb, hnil] at hpos
  rw [hdata] at hclean hsize ⊢
  cases hp : (parse (bs ++ done)).phase with
  | header got => exact header_subscripts hrel hp hsize hb hrest hclean
  | command len got =>
    have hplace := hrel.place
    simp only [Place, hp] at hplace
    obtain rfl := (hends hplace.recvCmd).resolve_right hrest
    rw [List.append_nil] at hp hrel
    exact command_subscripts hrel hp hb hrest

/-- At a loop head the subscripts are in range unless the read is used up and cut behind a
header. -/
theorem head_recvBufOk {t : Recv σ} {c : Chunk} (hsim : Sim H e₀ s bs)
    (hrun : s.outcome = .running) (hclean : Clean H e₀ (bs ++ c.bytes))
    (hhead : Head guard (body H c.bytes) (s.entry c) t) :
    t.RecvBufOk ↔ s.RecvBufOk ∧ ¬ (t.bytesLeft = 0 ∧ Cut bs c.bytes) := by
  induction hhead with
  | enter =>
    have hpos := List.length_pos_iff.mpr c.nonempty
    show s.RecvBufOk ↔ _
    simp only [entry]
    apply (and_iff_left _).symm
    omega
  | @pass t t' hhead hg hb ih =>
    simp only [guard, Bool.and_eq_true, decide_eq_true_eq] at hg
    have hpass := head_subscripts hsim hrun hclean hhead hg.1
    rw [hb] at hpass
    have hstep : t'.RecvBufOk ↔ t.RecvBufOk ∧ ¬ (t'.bytesLeft = 0 ∧ Cut bs c.bytes) := hpass
    rw [hstep, ih]
    apply and_congr_left'
    apply and_iff_left
    omega

/-- A read keeps the subscripts in range unless it is cut behind a header. -/
theorem onData_recvBufOk (c : Chunk) (hsim : Sim H e₀ s bs) (hrun : s.outcome = .running)
    (hclean : Clean H e₀ (bs ++ c.bytes)) :
    (s.onData H c.bytes).RecvBufOk ↔ s.RecvBufOk ∧ ¬ Cut bs c.bytes := by
  obtain ⟨t, ht, -⟩ := innerLoop_sim c.bytes hsim hrun
  rw [onData, ht]
  rcases whileLoop_left .enter ht with ⟨hhead, hg⟩ | ⟨t', hhead, hg, hexit⟩
  · obtain ⟨-, done, rest, -, hb, hrel, -⟩ := head_rel hsim hrun hclean hhead
    have hzero : t.bytesLeft = 0 := by
      simp only [guard, hrel.running, decide_true, Bool.and_true, decide_eq_false_iff_not] at hg
      omega
    show t.RecvBufOk ↔ _
    rw [head_recvBufOk hsim hrun hclean hhead]
    simp only [hzero, true_and]
  · -- the loop is left inside a header
    simp only [guard, Bool.and_eq_true, decide_eq_true_eq] at hg
    have hpass := head_subscripts hsim hrun hclean hhead hg.1
    rw [hexit] at hpass
    obtain ⟨hsame, hno⟩ := hpass
    show t.RecvBufOk ↔ _
    rw [hsame, head_recvBufOk hsim hrun hclean hhead]
    apply and_congr_right'
    apply iff_of_true
    · omega
    · exact hno

/-- Over a whole call. -/
theorem run_recvBufOk (hsim : Sim H e₀ s bs) (hrun : s.outcome = .running) (reads : List Received)
    (hclean : Clean H e₀ (bs ++ receivedBytes reads)) :
    (s.run H reads).RecvBufOk ↔ s.RecvBufOk ∧ ¬ CutBehindHeader bs reads := by
  induction reads generalizing s bs with
  | nil => simp [CutBehindHeader]
  | cons r rs ih =>
    rw [run_cons]
    have hstep : s.step H r = _ := if_pos hrun
    cases r with
    | data c =>
      rw [hstep]
      rw [receivedBytes, ← List.append_assoc] at hclean
      have hsim' := onData_sim c.bytes hsim hrun
      obtain ⟨hrel, -⟩ := hsim'.rel hclean.left
      show ((s.onData H c.bytes).run H rs).RecvBufOk ↔ _
      rw [ih hsim' hrel.running hclean, onData_recvBufOk c hsim hrun hclean.left, CutBehindHeader,
        not_or, and_assoc]
    | again =>
      rw [hstep]
      exact ih hsim hrun hclean
    | closed =>
      rw [run_of_not_running H (by rw [hstep]; simp), hstep]
      exact (and_iff_left fun hcut => hcut).symm
    | failed e =>
      rw [run_of_not_running H (by rw [hstep]; simp), hstep]
      exact (and_iff_left fun hcut => hcut).symm

end Run

end Recv

end WebGpuDD
