import WebGpuDD.CommandTlv

/-!
# `RecvBuffer`

The receiving half: `GetCmdSpace` packs commands without their headers, handing
what is pending to the handler first when a command would not fit, and `Flush`
hands over everything pending, also when that is nothing.
-/

namespace WebGpuDD

open LittleEndian Memory

/-- A `dawn::wire::CommandHandler` with the state it works on: whether
`HandleCommands` returned a non-null pointer, and the state behind the call. -/
structure CommandHandler (σ : Type*) where
  handleCommands : List Byte → σ → Bool × σ

namespace CommandHandler

variable {σ : Type*} (H : CommandHandler σ)

/-- The handler's state after some calls. -/
def after (e : σ) (calls : List (List Byte)) : σ :=
  calls.foldl (fun e b => (H.handleCommands b e).2) e

theorem after_concat (e : σ) (calls : List (List Byte)) (b : List Byte) :
    H.after e (calls ++ [b]) = (H.handleCommands b (H.after e calls)).2 := by
  simp [after]

/-- A handler that keeps the list of its calls and answers each from that list. -/
def recorder (answer : List (List Byte) → List Byte → Bool) :
    CommandHandler (List (List Byte)) where
  handleCommands b log := (answer log b, log ++ [b])

theorem recorder_after (answer : List (List Byte) → List Byte → Bool)
    (log calls : List (List Byte)) : (recorder answer).after log calls = log ++ calls := by
  induction calls generalizing log with
  | nil => simp [after]
  | cons b calls ih =>
    have h := ih (log ++ [b])
    simpa [after, recorder] using h

end CommandHandler

/-- `RecvBuffer`: the array of 2,000,000 bytes and the fill level. -/
structure RecvBuffer where
  mOffset : ℕ
  mBuffer : Mem Byte

namespace RecvBuffer

variable {σ : Type*} (H : CommandHandler σ)

/-- `RecvBuffer::Flush`. -/
def flush (b : RecvBuffer) (e : σ) : Bool × RecvBuffer × σ :=
  let r := H.handleCommands (load b.mBuffer 0 b.mOffset) e
  (r.1, { b with mOffset := 0 }, r.2)

/-- The fit test of `GetCmdSpace`. -/
def full (b : RecvBuffer) (size : ℕ) : Bool := sizeSub 2000000 size < b.mOffset

/-- `RecvBuffer::GetCmdSpace`: the offset of the region that it returns, or `none`
for `nullptr`. -/
def getCmdSpace (size : ℕ) (b : RecvBuffer) (e : σ) : Option ℕ × RecvBuffer × σ :=
  if 2000000 < size then (none, b, e)
  else if b.full size then
    match _h : b.flush H e with
    | (false, b', e') => (none, b', e')
    | (true, b', e') => getCmdSpace size b' e'
  else (some b.mOffset, { b with mOffset := sizeAdd b.mOffset size }, e)
termination_by b.mOffset
decreasing_by
  rename_i hfull
  have h0 : (b.flush H e).2.1.mOffset = 0 := rfl
  simp_all [full]
  omega

theorem full_iff {b : RecvBuffer} {size : ℕ} (h : size ≤ 2000000) :
    b.full size = true ↔ 2000000 < b.mOffset + size := by
  rw [full, decide_eq_true_eq, sizeSub_of_le (by omega) h]
  omega

theorem getCmdSpace_of_tooLarge {size : ℕ} (b : RecvBuffer) (e : σ) (h : 2000000 < size) :
    b.getCmdSpace H size e = (none, b, e) := by
  rw [getCmdSpace, if_pos h]

theorem getCmdSpace_of_fits {size : ℕ} {b : RecvBuffer} (e : σ) (h : b.mOffset + size ≤ 2000000) :
    b.getCmdSpace H size e =
      (some b.mOffset, { b with mOffset := b.mOffset + size }, e) := by
  have hf : b.full size = false := by
    have hnot : ¬ b.full size = true := (full_iff (by omega)).not.mpr (by omega)
    simpa using hnot
  rw [getCmdSpace, if_neg (by omega), hf, if_neg (by simp), sizeAdd_of_lt (by omega)]

/-- With too little room left everything pending goes to the handler first, and
the reservation stands or falls with its answer. -/
theorem getCmdSpace_of_full {size : ℕ} {b : RecvBuffer} (e : σ) (hs : size ≤ 2000000)
    (h : 2000000 < b.mOffset + size) :
    b.getCmdSpace H size e =
      if (H.handleCommands (load b.mBuffer 0 b.mOffset) e).1 then
        (some 0, { b with mOffset := size }, (H.handleCommands (load b.mBuffer 0 b.mOffset) e).2)
      else (none, { b with mOffset := 0 }, (H.handleCommands (load b.mBuffer 0 b.mOffset) e).2) := by
  rw [getCmdSpace, if_neg (by omega), if_pos ((full_iff hs).mpr h)]
  split
  · rename_i b' e' hflush
    simp only [flush, Prod.mk.injEq] at hflush
    simp [hflush]
  · rename_i b' e' hflush
    simp only [flush, Prod.mk.injEq] at hflush
    obtain ⟨h1, rfl, rfl⟩ := hflush
    rw [getCmdSpace_of_fits H _ (by simpa using hs)]
    simp [h1]

end RecvBuffer

end WebGpuDD
