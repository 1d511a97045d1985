import WebGpuDD.Lib.Loop
import WebGpuDD.RecvBuffer
import WebGpuDD.CommandTransport

/-!
# `CommandTransport::Recv`

The receive loop with its local variables. Each `memcpy` is recorded with its
arguments before it is carried out; the behaviour of a program that copies out of
bounds is undefined, so the model stops behind such a copy.
-/

namespace WebGpuDD

open LittleEndian Memory Loop

/-- The bytes that one successful `recv(2)` puts into `recv_buf`. -/
structure Chunk where
  bytes : List Byte
  nonempty : bytes ≠ []
  le : bytes.length ≤ 65536

/-- What `recv(2)` returns: bytes, `-1` with `EAGAIN` or `EWOULDBLOCK`, `0`, or `-1`
with another error. -/
inductive Received where
  | data (c : Chunk)
  | again
  | closed
  | failed (e : Errno)

/-- The bytes received before `Recv` returns. -/
def receivedBytes : List Received → List Byte
  | [] => []
  | .data c :: rs => c.bytes ++ receivedBytes rs
  | .again :: rs => receivedBytes rs
  | .closed :: _ => []
  | .failed _ :: _ => []

/-! ## Copies -/

/-- Where `Recv` copies to: the struct `cmd`, or `cmd_buf` as `GetCmdSpace` returned
it for a command of `size` bytes. -/
inductive Target where
  | header
  | command (region : Option ℕ) (size : ℕ)
  deriving DecidableEq

/-- The bytes from `off` to `off + n` lie inside the target, and a command's region
inside the receive buffer. -/
def Target.Covers : Target → ℤ → ℤ → Prop
  | .header, off, n => 0 ≤ off ∧ off + n ≤ 12
  | .command none _, _, _ => False
  | .command (some p) size, off, n => 0 ≤ off ∧ off + n ≤ size ∧ p + size ≤ 2000000

instance (t : Target) (off n : ℤ) : Decidable (t.Covers off n) := by
  unfold Target.Covers
  split <;> infer_instance

/-- One `memcpy` of `Recv`: `len` bytes from `recv_buf[src]` to offset `dest` of the
target, at a time when `recv_buf` holds `nread` received bytes. -/
structure Memcpy where
  target : Target
  dest : ℤ
  src : ℤ
  len : ℤ
  nread : ℕ
  deriving DecidableEq

/-- The length is not negative, and whatever is copied is read from the received
bytes and written inside the target. -/
def Memcpy.InBounds (c : Memcpy) : Prop :=
  0 ≤ c.len ∧ (c.len = 0 ∨
    (0 ≤ c.src ∧ c.src + c.len ≤ c.nread) ∧ c.target.Covers c.dest c.len)

instance (c : Memcpy) : Decidable c.InBounds := by
  unfold Memcpy.InBounds
  infer_instance

/-- One call of `RecvBuffer::GetCmdSpace`: the fill level it found, the size it was
asked for, and what it returned. -/
structure Reservation where
  mOffset : ℕ
  size : ℕ
  result : Option ℕ
  deriving DecidableEq

/-! ## The loop -/

/-- How far a call of `Recv` has come. `unfinished` would mean that the inner loop
takes more passes than it has bytes. -/
inductive Outcome where
  | running
  | returned (code : ℤ)
  | undefined
  | unfinished
  deriving DecidableEq

/-- The variables of `Recv`, the receive buffer and the handler's state. The last
three fields are bookkeeping: the size of the last `GetCmdSpace`, the copies and the
reservations made. -/
structure Recv (σ : Type*) where
  recvCmd : Bool
  cmd : Mem Byte
  cmdLen : ℤ
  cmdLenLeft : ℤ
  hdrLenLeft : ℤ
  cmdBuf : Option ℕ
  bytesLeft : ℤ
  rbuf : RecvBuffer
  env : σ
  outcome : Outcome
  cmdSpace : ℕ
  copies : List Memcpy
  reservations : List Reservation

namespace Recv

variable {σ : Type*} (H : CommandHandler σ)

/-- A `Recv` that has just been entered with an empty receive buffer; `cmd`,
`cmd_len`, `cmd_len_left` and `cmd_buf` are not initialised. -/
structure Entered (s : Recv σ) : Prop where
  recvCmd : s.recvCmd = false
  hdrLenLeft : s.hdrLenLeft = 12
  empty : s.rbuf.mOffset = 0
  running : s.outcome = .running
  copies : s.copies = []
  reservations : s.reservations = []

/-- The same with every uninitialised byte and variable zero. -/
def enter (e : σ) : Recv σ where
  recvCmd := false
  cmd := fun _ => 0
  cmdLen := 0
  cmdLenLeft := 0
  hdrLenLeft := 12
  cmdBuf := none
  bytesLeft := 0
  rbuf := ⟨0, fun _ => 0⟩
  env := e
  outcome := .running
  cmdSpace := 0
  copies := []
  reservations := []

theorem enter_entered (e : σ) : (enter e).Entered := ⟨rfl, rfl, rfl, rfl, rfl, rfl⟩

/-- The struct `cmd`. -/
def tlv (s : Recv σ) : CommandTlv := CommandTlv.ofBytes (load s.cmd 0 12)

/-- The source bytes of a copy. -/
def source (data : List Byte) (c : Memcpy) : List Byte :=
  (data.drop c.src.toNat).take c.len.toNat

/-- Record a copy; out of bounds it ends the defined behaviour. -/
def record (c : Memcpy) (s : Recv σ) : Recv σ :=
  { s with copies := s.copies ++ [c], outcome := if c.InBounds then s.outcome else .undefined }

/-- `memcpy((char *) &cmd + (sizeof(command_tlv) - hdr_len_left),
&recv_buf[nread - bytes_left], n)`. -/
def copyHeader (data : List Byte) (n : ℤ) (s : Recv σ) : Recv σ :=
  let c : Memcpy := ⟨.header, 12 - s.hdrLenLeft, data.length - s.bytesLeft, n, data.length⟩
  { s.record c with cmd := store s.cmd c.dest.toNat (source data c) }

/-- `memcpy((char *) cmd_buf + dest, &recv_buf[src], n)`. -/
def copyCommand (data : List Byte) (dest src n : ℤ) (s : Recv σ) : Recv σ :=
  let c : Memcpy := ⟨.command s.cmdBuf s.cmdSpace, dest, src, n, data.length⟩
  let mBuffer := match s.cmdBuf with
    | none => s.rbuf.mBuffer
    | some p => store s.rbuf.mBuffer (p + dest.toNat) (source data c)
  { s.record c with rbuf := ⟨s.rbuf.mOffset, mBuffer⟩ }

/-- `cmd_buf = rbuf->GetCmdSpace(size)`. -/
def reserve (size : ℕ) (s : Recv σ) : Recv σ :=
  let r := s.rbuf.getCmdSpace H size s.env
  { s with
    cmdBuf := r.1
    rbuf := r.2.1
    env := r.2.2
    cmdSpace := size
    reservations := s.reservations ++ [⟨s.rbuf.mOffset, size, r.1⟩] }

/-- `rbuf->Flush()`, whose result is dropped. -/
def flush (s : Recv σ) : Recv σ :=
  { s with rbuf := (s.rbuf.flush H s.env).2.1, env := (s.rbuf.flush H s.env).2.2 }

/-- The first copy of a command, straight behind its header. -/
def beginCommand (data : List Byte) (s : Recv σ) : Recv σ :=
  -- a `len` from 2^63 on is negative here, and the comparison below takes it for small
  let len := toSsize s.tlv.len
  let ncmdbytes := if len ≤ s.bytesLeft then len else s.bytesLeft
  let s' := (s.reserve H s.tlv.len).copyCommand data 0 (data.length - s.bytesLeft) ncmdbytes
  { s' with
    recvCmd := !decide (len ≤ s.bytesLeft)
    cmdLen := len
    cmdLenLeft := len - ncmdbytes
    bytesLeft := s.bytesLeft - ncmdbytes }

/-- The branch `if (!recv_cmd)`; `exit` is its `break`. -/
def headerBranch (data : List Byte) (s : Recv σ) : Flow (Recv σ) :=
  if s.bytesLeft < s.hdrLenLeft then
    .exit { s.copyHeader data s.bytesLeft with hdrLenLeft := s.hdrLenLeft - s.bytesLeft }
  else
    -- the header is complete; `hdr_len_left` is ready for the next one
    let s := { s.copyHeader data s.hdrLenLeft with
      bytesLeft := s.bytesLeft - s.hdrLenLeft, hdrLenLeft := 12 }
    if s.tlv.type = 2 then .next (s.flush H) else .next (s.beginCommand H data)

/-- The `else` branch: it takes `nread` for the bytes left and copies from the start
of `recv_buf`. -/
def commandBranch (data : List Byte) (s : Recv σ) : Flow (Recv σ) :=
  let nread : ℤ := data.length
  let ncmdbytes := if s.cmdLenLeft ≤ nread then s.cmdLenLeft else nread
  let s' := s.copyCommand data (s.cmdLen - s.cmdLenLeft) 0 ncmdbytes
  .next { s' with
    recvCmd := !decide (s.cmdLenLeft ≤ nread)
    cmdLenLeft := s.cmdLenLeft - ncmdbytes
    bytesLeft := s.bytesLeft - ncmdbytes }

/-- The body of `while (bytes_left > 0)`. -/
def body (data : List Byte) (s : Recv σ) : Flow (Recv σ) :=
  if s.recvCmd then s.commandBranch data else s.headerBranch H data

def guard (s : Recv σ) : Bool := decide (0 < s.bytesLeft) && decide (s.outcome = .running)

/-- One pass of `while (1)` behind a `recv` that gave bytes. -/
def onData (data : List Byte) (s : Recv σ) : Recv σ :=
  match whileLoop guard (body H data) data.length { s with bytesLeft := data.length } with
  | some s' => s'
  | none => { s with outcome := .unfinished }

/-- One pass of `while (1)`. -/
def step (s : Recv σ) (r : Received) : Recv σ :=
  if s.outcome = .running then
    match r with
    | .data c => s.onData H c.bytes
    | .again => s
    | .closed => { s with outcome := .returned 0 }
    | .failed e => { s with outcome := .returned (-e.code) }
  else s

def run (s : Recv σ) (rs : List Received) : Recv σ := rs.foldl (step H) s

@[simp] theorem run_nil (s : Recv σ) : s.run H [] = s := rfl

theorem run_cons (s : Recv σ) (r : Received) (rs : List Received) :
    s.run H (r :: rs) = (s.step H r).run H rs := rfl

theorem run_append (s : Recv σ) (rs rs' : List Received) :
    s.run H (rs ++ rs') = (s.run H rs).run H rs' := List.foldl_append

/-- Once `Recv` has returned or lost its defined behaviour, nothing happens. -/
theorem run_of_not_running {s : Recv σ} (h : s.outcome ≠ .running) (rs : List Received) :
    s.run H rs = s := by
  induction rs with
  | nil => rfl
  | cons r rs ih =>
    have hstep : s.step H r = s := if_neg h
    rw [run_cons, hstep, ih]

end Recv

end WebGpuDD
