import WebGpuDD.Lib.Memory
import WebGpuDD.Lib.LittleEndian

/-!
# Machine sizes and the wire format

`size_t` and `ssize_t` arithmetic, the packed 12-byte `command_tlv` that heads
every frame, and the bytes of one batch: a type-1 frame for each command and a
type-2 header of length 0 behind them.
-/

namespace WebGpuDD

open LittleEndian

/-! ## 64-bit arithmetic -/

/-- `a + b` on `size_t`. -/
def sizeAdd (a b : ℕ) : ℕ := (a + b) % 2 ^ 64

/-- `a - b` on `size_t`. -/
def sizeSub (a b : ℕ) : ℕ := (a + (2 ^ 64 - b % 2 ^ 64)) % 2 ^ 64

/-- The conversion of a `size_t` to `ssize_t`. -/
def toSsize (n : ℕ) : ℤ := if n < 2 ^ 63 then n else n - 2 ^ 64

theorem sizeAdd_of_lt {a b : ℕ} (h : a + b < 2 ^ 64) : sizeAdd a b = a + b :=
  Nat.mod_eq_of_lt h

theorem sizeSub_of_le {a b : ℕ} (ha : a < 2 ^ 64) (h : b ≤ a) : sizeSub a b = a - b := by
  unfold sizeSub
  omega

theorem toSsize_of_lt {n : ℕ} (h : n < 2 ^ 63) : toSsize n = n := if_pos h

theorem toSsize_neg {n : ℕ} (hn : n < 2 ^ 64) (h : 2 ^ 63 ≤ n) : toSsize n < 0 := by
  unfold toSsize
  split_ifs <;> omega

/-! ## The header -/

/-- `struct command_tlv`, packed: a 4-byte `int type` (as its bit pattern) and an
8-byte `size_t len`. -/
structure CommandTlv where
  type : ℕ
  len : ℕ
  deriving DecidableEq, Repr

namespace CommandTlv

/-- The 12 bytes of the struct in memory. -/
def bytes (c : CommandTlv) : List Byte := encode 4 c.type ++ encode 8 c.len

/-- The struct that 12 bytes of memory hold. -/
def ofBytes (bs : List Byte) : CommandTlv where
  type := decode (bs.take 4)
  len := decode ((bs.drop 4).take 8)

@[simp] theorem bytes_length (c : CommandTlv) : c.bytes.length = 12 := by simp [bytes]

theorem ofBytes_bytes {c : CommandTlv} (ht : c.type < 2 ^ 32) (hl : c.len < 2 ^ 64) :
    ofBytes c.bytes = c := by
  have h4 : decode (encode 4 c.type) = c.type := decode_encode (by simpa using ht)
  have h8 : decode (encode 8 c.len) = c.len := decode_encode (by simpa using hl)
  have ht' : (encode 4 c.type ++ encode 8 c.len).take 4 = encode 4 c.type :=
    List.take_left' (encode_length 4 _)
  have hd' : (encode 4 c.type ++ encode 8 c.len).drop 4 = encode 8 c.len :=
    List.drop_left' (encode_length 4 _)
  have he : (encode 8 c.len).take 8 = encode 8 c.len :=
    List.take_of_length_le (encode_length 8 _).le
  simp only [ofBytes, bytes, ht', hd', he, h4, h8]

theorem ofBytes_len_lt (bs : List Byte) : (ofBytes bs).len < 2 ^ 64 := by
  have h := decode_lt ((bs.drop 4).take 8)
  have hl : ((bs.drop 4).take 8).length ≤ 8 := by simp
  calc (ofBytes bs).len < 256 ^ ((bs.drop 4).take 8).length := h
    _ ≤ 256 ^ 8 := Nat.pow_le_pow_right (by decide) hl
    _ = 2 ^ 64 := by norm_num

end CommandTlv

/-! ## Frames and batches -/

/-- The header `SendBuffer::GetCmdSpace` writes in front of a command. -/
def commandHeader (size : ℕ) : List Byte := CommandTlv.bytes ⟨1, size⟩

/-- The header `SendBuffer::Flush` writes behind the last command. -/
def flushHeader : List Byte := CommandTlv.bytes ⟨2, 0⟩

/-- One command on the wire. -/
def frame (payload : List Byte) : List Byte := commandHeader payload.length ++ payload

/-- The frames of some commands, without a flush header. -/
def frames (payloads : List (List Byte)) : List Byte := payloads.flatMap frame

/-- What a flush of these commands sends. -/
def batchBytes (payloads : List (List Byte)) : List Byte := frames payloads ++ flushHeader

@[simp] theorem commandHeader_length (size : ℕ) : (commandHeader size).length = 12 :=
  CommandTlv.bytes_length _

@[simp] theorem flushHeader_length : flushHeader.length = 12 := CommandTlv.bytes_length _

@[simp] theorem frame_length (payload : List Byte) :
    (frame payload).length = 12 + payload.length := by simp [frame]

@[simp] theorem frames_nil : frames [] = [] := rfl

@[simp] theorem frames_cons (p : List Byte) (ps : List (List Byte)) :
    frames (p :: ps) = frame p ++ frames ps := rfl

theorem frames_append (ps qs : List (List Byte)) : frames (ps ++ qs) = frames ps ++ frames qs :=
  List.flatMap_append

theorem frames_concat (ps : List (List Byte)) (p : List Byte) :
    frames (ps ++ [p]) = frames ps ++ frame p := by simp [frames_append]

@[simp] theorem batchBytes_length (ps : List (List Byte)) :
    (batchBytes ps).length = (frames ps).length + 12 := by simp [batchBytes]

theorem commandHeader_ne_nil (size : ℕ) : commandHeader size ≠ [] := by
  rw [← List.length_pos_iff, commandHeader_length]
  decide

theorem ofBytes_commandHeader {size : ℕ} (h : size < 2 ^ 64) :
    CommandTlv.ofBytes (commandHeader size) = ⟨1, size⟩ :=
  CommandTlv.ofBytes_bytes (c := ⟨1, size⟩) (by norm_num) h

theorem ofBytes_flushHeader : CommandTlv.ofBytes flushHeader = ⟨2, 0⟩ :=
  CommandTlv.ofBytes_bytes (by decide) (by decide)

/-- The frames of a batch are no shorter than its payloads. -/
theorem flatten_length_le_frames (ps : List (List Byte)) :
    ps.flatten.length + 12 * ps.length ≤ (frames ps).length := by
  induction ps with
  | nil => simp
  | cons p ps ih =>
    simp only [List.flatten_cons, List.length_append, List.length_cons, frames_cons, frame_length]
    omega

theorem frames_ne_nil {ps : List (List Byte)} (h : ps ≠ []) : 0 < (frames ps).length := by
  have hl := flatten_length_le_frames ps
  have hp := List.length_pos_iff.mpr h
  omega

end WebGpuDD
