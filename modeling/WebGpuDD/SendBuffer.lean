import WebGpuDD.CommandTransport

/-!
# `SendBuffer`

The sending half of a connection: `GetCmdSpace` reserves a command behind those
already in the buffer and flushes first when it would not fit, `Flush` puts the
type-2 header behind them and hands everything to the transport.
-/

namespace WebGpuDD

open LittleEndian Memory CommandTransport

/-- `SendBuffer`: the array of 2,000,000 bytes and the fill level. -/
structure SendBuffer where
  mOffset : ℕ
  mBuffer : Mem Byte

namespace SendBuffer

/-- `mBuffer.size() - 2 * sizeof(command_tlv)`. -/
def getMaximumAllocationSize : ℕ := 2000000 - 2 * 12

/-- The admission test of `GetCmdSpace`. -/
def tooLarge (size : ℕ) : Bool := 2000000 < sizeAdd size (2 * 12)

/-- The fit test of `GetCmdSpace`: the command and a flush header behind it do not
fit into what is left. -/
def full (b : SendBuffer) (size : ℕ) : Bool := sizeSub (sizeSub 2000000 size) (2 * 12) < b.mOffset

/-- `SendBuffer::Flush`. -/
def flush (k : Kernel) (b : SendBuffer) (t : CommandTransport) :
    Bool × SendBuffer × CommandTransport :=
  if b.mOffset ≤ 0 then (true, b, t)
  else
    let buffer := store b.mBuffer b.mOffset flushHeader
    let r := t.send k (load buffer 0 (sizeAdd b.mOffset 12))
    (r.1 == 0, ⟨0, buffer⟩, r.2)

theorem flush_mOffset (k : Kernel) (b : SendBuffer) (t : CommandTransport) :
    (b.flush k t).2.1.mOffset = 0 := by
  unfold flush
  split
  · rename_i h
    exact Nat.le_zero.mp h
  · rfl

/-- `SendBuffer::GetCmdSpace`: the offset of the region that it returns, or
`none` for `nullptr`. -/
def getCmdSpace (k : Kernel) (size : ℕ) (b : SendBuffer) (t : CommandTransport) :
    Option ℕ × SendBuffer × CommandTransport :=
  if tooLarge size then (none, b, t)
  else if b.full size then
    match _h : b.flush k t with
    | (false, b', t') => (none, b', t')
    -- behind the flush the buffer is empty, so the second call finds room
    | (true, b', t') => getCmdSpace k size b' t'
  else
    (some (sizeAdd b.mOffset 12),
      ⟨sizeAdd b.mOffset (sizeAdd size 12), store b.mBuffer b.mOffset (commandHeader size)⟩, t)
termination_by b.mOffset
decreasing_by
  rename_i hfull
  have h0 := flush_mOffset k b t
  simp_all [full]
  omega

/-- The caller's copy of the command into the region at `p`. -/
def write (b : SendBuffer) (p : ℕ) (payload : List Byte) : SendBuffer :=
  { b with mBuffer := store b.mBuffer p payload }

/-! ## What the operations do to a buffer of frames -/

/-- The buffer holds exactly the frames of these commands, with room behind them
for a flush header. -/
structure Holds (b : SendBuffer) (cmds : List (List Byte)) : Prop where
  offset : b.mOffset = (frames cmds).length
  bytes : load b.mBuffer 0 b.mOffset = frames cmds
  room : b.mOffset ≤ 2000000 - 12

theorem holds_nil {b : SendBuffer} (h : b.mOffset = 0) : b.Holds [] where
  offset := h
  bytes := by rw [h]; rfl
  room := by omega

theorem Holds.mOffset_pos {b : SendBuffer} {cmds : List (List Byte)} (h : b.Holds cmds)
    (hne : cmds ≠ []) : 0 < b.mOffset := by
  rw [h.offset]
  exact frames_ne_nil hne

theorem Holds.eq_nil_iff {b : SendBuffer} {cmds : List (List Byte)} (h : b.Holds cmds) :
    b.mOffset = 0 ↔ cmds = [] := by
  constructor
  · intro h0
    by_contra hne
    have := h.mOffset_pos hne
    omega
  · intro hnil
    rw [h.offset, hnil, frames_nil, List.length_nil]

theorem tooLarge_eq_false {size : ℕ} (h : size ≤ getMaximumAllocationSize) :
    tooLarge size = false := by
  unfold getMaximumAllocationSize at h
  rw [tooLarge, decide_eq_false_iff_not, sizeAdd]
  omega

/-- A size above the advertised maximum is refused unless the admission test wraps. -/
theorem tooLarge_eq_true {size : ℕ} (h : getMaximumAllocationSize < size)
    (hw : size + 2 * 12 < 2 ^ 64) : tooLarge size = true := by
  unfold getMaximumAllocationSize at h
  rw [tooLarge, decide_eq_true_eq, sizeAdd]
  omega

theorem full_iff {b : SendBuffer} {size : ℕ} (h : size ≤ getMaximumAllocationSize) :
    b.full size = true ↔ 2000000 < b.mOffset + size + 2 * 12 := by
  unfold getMaximumAllocationSize at h
  have hsub : sizeSub 2000000 size = 2000000 - size := sizeSub_of_le (by omega) (by omega)
  rw [full, decide_eq_true_eq, hsub, sizeSub_of_le (by omega) (by omega)]
  omega

theorem flush_of_empty (k : Kernel) {b : SendBuffer} (t : CommandTransport) (h : b.mOffset = 0) :
    b.flush k t = (true, b, t) := if_pos h.le

/-- What a flush with something pending hands to `Send`. -/
theorem Holds.batch {b : SendBuffer} {cmds : List (List Byte)} (h : b.Holds cmds) :
    load (store b.mBuffer b.mOffset flushHeader) 0 (sizeAdd b.mOffset 12) = batchBytes cmds := by
  have hroom := h.room
  have happ := load_store_append b.mBuffer 0 b.mOffset flushHeader
  rw [Nat.zero_add, flushHeader_length, h.bytes] at happ
  rw [sizeAdd_of_lt (by omega), happ, batchBytes]

/-- A flush with something pending is one `Send` of the frames and a flush header. -/
theorem flush_of_holds (k : Kernel) {b : SendBuffer} {cmds : List (List Byte)}
    (t : CommandTransport) (h : b.Holds cmds) (hne : cmds ≠ []) :
    b.flush k t = ((t.send k (batchBytes cmds)).1 == 0,
      ⟨0, store b.mBuffer b.mOffset flushHeader⟩, (t.send k (batchBytes cmds)).2) := by
  have hpos := h.mOffset_pos hne
  simp only [flush, if_neg (Nat.not_le.mpr hpos), h.batch]

theorem getCmdSpace_of_tooLarge (k : Kernel) {size : ℕ} (b : SendBuffer) (t : CommandTransport)
    (h : tooLarge size = true) : b.getCmdSpace k size t = (none, b, t) := by
  rw [getCmdSpace, if_pos h]

theorem getCmdSpace_of_full (k : Kernel) {size : ℕ} {b : SendBuffer} (t : CommandTransport)
    (hs : size ≤ getMaximumAllocationSize) (hf : b.full size = true) :
    b.getCmdSpace k size t =
      if (b.flush k t).1 then (b.flush k t).2.1.getCmdSpace k size (b.flush k t).2.2
      else (none, (b.flush k t).2) := by
  rw [getCmdSpace, tooLarge_eq_false hs, if_neg (by simp), if_pos hf]
  split <;> rename_i h <;> simp [h]

theorem getCmdSpace_of_not_full (k : Kernel) {size : ℕ} {b : SendBuffer} (t : CommandTransport)
    (hs : size ≤ getMaximumAllocationSize) (hf : b.full size = false)
    (hb : b.mOffset ≤ 2000000 - 12) :
    b.getCmdSpace k size t = (some (b.mOffset + 12),
      ⟨b.mOffset + (12 + size), store b.mBuffer b.mOffset (commandHeader size)⟩, t) := by
  have hs' := hs
  unfold getMaximumAllocationSize at hs'
  rw [getCmdSpace, tooLarge_eq_false hs, if_neg (by simp), hf, if_neg (by simp),
    sizeAdd_of_lt (a := size) (by omega), sizeAdd_of_lt (by omega), sizeAdd_of_lt (by omega),
    Nat.add_comm size 12]

/-- The reserved region, once written, is the next frame. -/
theorem Holds.command {b : SendBuffer} {cmds : List (List Byte)} (h : b.Holds cmds)
    {payload : List Byte} (hs : payload.length ≤ getMaximumAllocationSize)
    (hf : b.full payload.length = false) :
    Holds (write ⟨b.mOffset + (12 + payload.length),
      store b.mBuffer b.mOffset (commandHeader payload.length)⟩ (b.mOffset + 12) payload)
      (cmds ++ [payload]) where
  offset := by
    simp [write, frames_concat, h.offset]
  bytes := by
    have happ := load_store_append b.mBuffer 0 b.mOffset (frame payload)
    have hst := store_append b.mBuffer b.mOffset (commandHeader payload.length) payload
    rw [commandHeader_length] at hst
    rw [Nat.zero_add, frame_length, h.bytes] at happ
    simp only [write, hst, frames_concat]
    exact happ
  room := by
    have hfit := (full_iff (b := b) hs).not.mp (by simp [hf])
    simp only [write]
    omega

end SendBuffer

end WebGpuDD
