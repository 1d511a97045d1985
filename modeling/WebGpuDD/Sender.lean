import WebGpuDD.SendBuffer

/-!
# Runs of the sender

A `SendBuffer` with its transport, driven by reservations and flushes. The commands
reserved since the last flush, and each flush with what the socket took of it, are
kept beside the two; the code's own tests say when `GetCmdSpace` flushes.
-/

namespace WebGpuDD

open LittleEndian Memory CommandTransport

/-- A flush that had something to send: its payloads, what `Flush` returned, the bytes
that the socket accepted during it and the `send(2)` calls made. -/
structure FlushRecord where
  payloads : List (List Byte)
  result : Bool
  accepted : List Byte
  calls : List SendCall
  deriving DecidableEq

/-- The sending end of a connection. -/
structure Sender where
  buf : SendBuffer
  conn : CommandTransport
  pending : List (List Byte)
  flushes : List FlushRecord

/-- What a caller does: reserve room for a payload and fill it, or flush. -/
inductive SendOp where
  | command (payload : List Byte)
  | flush

/-- The size of the command does not wrap in the admission test of `GetCmdSpace`. -/
def SendOp.NoWrap : SendOp → Prop
  | .command payload => payload.length + 2 * 12 < 2 ^ 64
  | .flush => True

namespace Sender

/-- A sender with nothing reserved on a new connection. -/
structure Fresh (s : Sender) : Prop where
  empty : s.buf.mOffset = 0
  conn : ∃ connfd : ℤ, 0 ≤ connfd ∧ s.conn = ofFd connfd
  pending : s.pending = []
  flushes : s.flushes = []

/-- The same with every byte of the buffer zero. -/
def new (connfd : ℤ) : Sender := ⟨⟨0, fun _ => 0⟩, ofFd connfd, [], []⟩

theorem new_fresh {connfd : ℤ} (h : 0 ≤ connfd) : (new connfd).Fresh :=
  ⟨rfl, ⟨connfd, h, rfl⟩, rfl, rfl⟩

/-- `SendBuffer::Flush`, recorded unless there was nothing to send. -/
def flush (k : Kernel) (s : Sender) : Bool × Sender :=
  let r := s.buf.flush k s.conn
  if s.buf.mOffset ≤ 0 then (r.1, { s with buf := r.2.1, conn := r.2.2 })
  else
    (r.1, { buf := r.2.1
            conn := r.2.2
            pending := []
            flushes := s.flushes ++
              [⟨s.pending, r.1, r.2.2.stream.drop s.conn.stream.length,
                r.2.2.calls.drop s.conn.calls.length⟩] })

/-- The sender as far as bookkeeping goes when `GetCmdSpace` has made its flush. -/
def afterFlush (k : Kernel) (size : ℕ) (s : Sender) : Sender :=
  if !SendBuffer.tooLarge size && s.buf.full size then (s.flush k).2 else s

/-- `GetCmdSpace` for a payload, and the caller's copy into the region if there is one. -/
def command (k : Kernel) (payload : List Byte) (s : Sender) : Bool × Sender :=
  let r := s.buf.getCmdSpace k payload.length s.conn
  let s' := s.afterFlush k payload.length
  match r.1 with
  | none => (false, { s' with buf := r.2.1, conn := r.2.2 })
  | some p =>
    (true, { s' with
      buf := r.2.1.write p payload
      conn := r.2.2
      pending := s'.pending ++ [payload] })

def step (k : Kernel) (s : Sender) : SendOp → Sender
  | .command payload => (s.command k payload).2
  | .flush => (s.flush k).2

def run (k : Kernel) (s : Sender) (ops : List SendOp) : Sender := ops.foldl (step k) s

/-- The batches that were flushed, as the peer's handler should see them. -/
def flushed (s : Sender) : List (List Byte) := s.flushes.map fun f => f.payloads.flatten

@[simp] theorem run_nil (k : Kernel) (s : Sender) : s.run k [] = s := rfl

theorem run_cons (k : Kernel) (s : Sender) (op : SendOp) (ops : List SendOp) :
    s.run k (op :: ops) = (s.step k op).run k ops := rfl

theorem run_append (k : Kernel) (s : Sender) (ops ops' : List SendOp) :
    s.run k (ops ++ ops') = (s.run k ops).run k ops' := List.foldl_append

/-! ## What one operation does -/

section Operations

variable {k : Kernel} {s : Sender} {payload : List Byte}

/-- The record of a flush of these payloads. -/
def flushRecord (k : Kernel) (s : Sender) (payloads : List (List Byte)) : FlushRecord :=
  ⟨payloads, (s.conn.send k (batchBytes payloads)).1 == 0,
    (s.conn.send k (batchBytes payloads)).2.stream.drop s.conn.stream.length,
    (s.conn.send k (batchBytes payloads)).2.calls.drop s.conn.calls.length⟩

theorem flush_fst : (s.flush k).1 = (s.buf.flush k s.conn).1 := by
  simp only [flush]
  split <;> rfl

theorem flush_buf : (s.flush k).2.buf = (s.buf.flush k s.conn).2.1 := by
  simp only [flush]
  split <;> rfl

theorem flush_conn : (s.flush k).2.conn = (s.buf.flush k s.conn).2.2 := by
  simp only [flush]
  split <;> rfl

theorem flush_of_empty (h : s.buf.Holds s.pending) (hnil : s.pending = []) :
    s.flush k = (true, s) := by
  have h0 := h.eq_nil_iff.mpr hnil
  simp only [flush, SendBuffer.flush_of_empty k s.conn h0]
  rw [if_pos h0.le]

theorem flush_of_pending (h : s.buf.Holds s.pending) (hne : s.pending ≠ []) :
    s.flush k = ((s.flushRecord k s.pending).result,
      ⟨(s.flush k).2.buf, (s.conn.send k (batchBytes s.pending)).2, [],
        s.flushes ++ [s.flushRecord k s.pending]⟩) := by
  have hpos := h.mOffset_pos hne
  simp only [flush, SendBuffer.flush_of_holds k s.conn h hne]
  rw [if_neg (by omega)]
  rfl

theorem flush_holds (h : s.buf.Holds s.pending) : (s.flush k).2.buf.Holds (s.flush k).2.pending := by
  by_cases hne : s.pending = []
  · rwa [flush_of_empty h hne]
  · have hpending : (s.flush k).2.pending = [] := by rw [flush_of_pending h hne]
    have hoff : (s.flush k).2.buf.mOffset = 0 := by
      rw [flush_buf]
      exact SendBuffer.flush_mOffset k s.buf s.conn
    rw [hpending]
    exact SendBuffer.holds_nil hoff

theorem flush_pending (h : s.buf.Holds s.pending) : (s.flush k).2.pending = [] := by
  by_cases hne : s.pending = []
  · rwa [flush_of_empty h hne]
  · rw [flush_of_pending h hne]

theorem command_of_tooLarge (h : SendBuffer.tooLarge payload.length = true) :
    s.command k payload = (false, s) := by
  simp only [command, SendBuffer.getCmdSpace_of_tooLarge k s.buf s.conn h, afterFlush, h]
  simp

/-- A sender with an empty buffer has room for any command. -/
theorem not_full_of_empty (h : s.buf.mOffset = 0)
    (hs : payload.length ≤ SendBuffer.getMaximumAllocationSize) :
    s.buf.full payload.length = false := by
  have hnot := (SendBuffer.full_iff (b := s.buf) hs).not
  unfold SendBuffer.getMaximumAllocationSize at hs
  simpa using hnot.mpr (by omega)

/-- Room is made by a flush, and the reservation stands or falls with it. -/
theorem command_of_full (hs : payload.length ≤ SendBuffer.getMaximumAllocationSize)
    (hf : s.buf.full payload.length = true) :
    s.command k payload =
      if (s.flush k).1 then (s.flush k).2.command k payload else (false, (s.flush k).2) := by
  have hafter : s.afterFlush k payload.length = (s.flush k).2 := by
    simp [afterFlush, SendBuffer.tooLarge_eq_false hs, hf]
  have hoff : (s.flush k).2.buf.mOffset = 0 := by
    rw [flush_buf]
    exact SendBuffer.flush_mOffset k s.buf s.conn
  have hafter' : (s.flush k).2.afterFlush k payload.length = (s.flush k).2 := by
    simp [afterFlush, not_full_of_empty hoff hs]
  have hspace := SendBuffer.getCmdSpace_of_full k s.conn hs hf
  rw [← flush_fst, ← flush_buf, ← flush_conn] at hspace
  cases hr : (s.flush k).1 with
  | true =>
    rw [hr, if_pos rfl] at hspace
    simp only [command, hspace, hafter, hafter', if_pos]
  | false =>
    rw [hr, if_neg (by simp), ← Prod.mk.eta (p := (s.buf.flush k s.conn).2), ← flush_buf,
      ← flush_conn] at hspace
    simp [command, hspace, hafter]

/-- A command that fits goes behind those already reserved. -/
theorem command_of_not_full (h : s.buf.Holds s.pending)
    (hs : payload.length ≤ SendBuffer.getMaximumAllocationSize)
    (hf : s.buf.full payload.length = false) :
    ∃ buf : SendBuffer, buf.Holds (s.pending ++ [payload]) ∧
      s.command k payload = (true, ⟨buf, s.conn, s.pending ++ [payload], s.flushes⟩) := by
  refine ⟨_, h.command hs hf, ?_⟩
  simp only [command, SendBuffer.getCmdSpace_of_not_full k s.conn hs hf h.room, afterFlush, hf]
  simp

theorem afterFlush_holds (h : s.buf.Holds s.pending) (size : ℕ) :
    (s.afterFlush k size).buf.Holds (s.afterFlush k size).pending := by
  unfold afterFlush
  split
  · exact flush_holds h
  · exact h

/-- Behind the flush that it may need a command of an admissible size is reserved, or given
up where that flush failed. -/
theorem command_cases (h : s.buf.Holds s.pending)
    (hs : payload.length ≤ SendBuffer.getMaximumAllocationSize) :
    s.command k payload = (false, s.afterFlush k payload.length) ∨
      ∃ buf : SendBuffer, buf.Holds ((s.afterFlush k payload.length).pending ++ [payload]) ∧
        s.command k payload = (true, ⟨buf, (s.afterFlush k payload.length).conn,
          (s.afterFlush k payload.length).pending ++ [payload],
          (s.afterFlush k payload.length).flushes⟩) := by
  cases hf : s.buf.full payload.length with
  | false =>
    have hafter : s.afterFlush k payload.length = s := by simp [afterFlush, hf]
    rw [hafter]
    exact .inr (command_of_not_full h hs hf)
  | true =>
    have hafter : s.afterFlush k payload.length = (s.flush k).2 := by
      simp [afterFlush, SendBuffer.tooLarge_eq_false hs, hf]
    rw [hafter, command_of_full hs hf]
    cases (s.flush k).1 with
    | false => exact .inl rfl
    | true =>
      -- behind the flush the buffer is empty and has room
      have hholds := flush_holds (k := k) h
      have hempty := hholds.eq_nil_iff.mpr (flush_pending h)
      exact .inr (command_of_not_full hholds hs (not_full_of_empty hempty hs))

theorem command_holds (h : s.buf.Holds s.pending)
    (hs : payload.length ≤ SendBuffer.getMaximumAllocationSize) :
    (s.command k payload).2.buf.Holds (s.command k payload).2.pending := by
  rcases command_cases (k := k) h hs with hcommand | ⟨buf, hbuf, hcommand⟩
  · rw [hcommand]
    exact afterFlush_holds h _
  · rw [hcommand]
    exact hbuf

/-- One command and a flush, with nothing reserved before. -/
theorem run_command_flush (payload : List Byte) (h : s.buf.Holds s.pending) (hnil : s.pending = [])
    (hs : payload.length ≤ SendBuffer.getMaximumAllocationSize) :
    (s.run k [.command payload, .flush]).buf.Holds
        (s.run k [.command payload, .flush]).pending ∧
      (s.run k [.command payload, .flush]).pending = [] ∧
      (s.run k [.command payload, .flush]).conn =
        (s.conn.send k (batchBytes [payload])).2 ∧
      (s.run k [.command payload, .flush]).flushes =
        s.flushes ++ [s.flushRecord k [payload]] := by
  have hf := not_full_of_empty (h.eq_nil_iff.mpr hnil) hs
  obtain ⟨buf, hbuf, hcommand⟩ := command_of_not_full (k := k) h hs hf
  rw [hnil, List.nil_append] at hcommand hbuf
  simp only [run_cons, run_nil, step, hcommand]
  refine ⟨flush_holds hbuf, flush_pending hbuf, ?_, ?_⟩
  · rw [flush_of_pending hbuf (by simp)]
  · rw [flush_of_pending hbuf (by simp)]
    rfl

theorem flush_open (h : s.conn.Open) : (s.flush k).2.conn.Open := by
  rw [flush_conn]
  simp only [SendBuffer.flush]
  split
  · exact h
  · simpa [Open] using h

end Operations

end Sender

/-! ## Runs on an open connection -/

namespace FlushRecord

/-- The socket took the whole batch. -/
structure Whole (f : FlushRecord) : Prop where
  result : f.result = true
  accepted : f.accepted = batchBytes f.payloads
  calls : f.calls ≠ [] ∧ ∀ c ∈ f.calls, ¬ c.Failed

/-- The call for the chunk at `soff` failed. -/
structure Cut (f : FlushRecord) (soff : ℕ) : Prop where
  result : f.result = false
  accepted : f.accepted = (batchBytes f.payloads).take soff
  lt : soff < (batchBytes f.payloads).length
  calls : ∃ cs c, f.calls = cs ++ [c] ∧ c.Failed ∧ c.soff = soff ∧ (∀ c ∈ cs, ¬ c.Failed) ∧
    (0 < soff → cs ≠ [])

/-- A flush on an open connection whose calls take their whole chunk or fail. -/
structure Ok (f : FlushRecord) : Prop where
  nonempty : f.payloads ≠ []
  room : (frames f.payloads).length ≤ 2000000 - 12
  outcome : f.Whole ∨ ∃ soff, f.Cut soff

end FlushRecord

namespace Sender

/-- The invariant of a run on an open connection. -/
structure Inv (s : Sender) : Prop where
  opened : s.conn.Open
  holds : s.buf.Holds s.pending
  stream : s.conn.stream = s.flushes.flatMap FlushRecord.accepted
  calls : s.conn.calls = s.flushes.flatMap FlushRecord.calls
  records : ∀ f ∈ s.flushes, f.Ok

theorem Fresh.inv {s : Sender} (h : s.Fresh) : s.Inv := by
  obtain ⟨connfd, hfd, hconn⟩ := h.conn
  exact {
    opened := by rw [hconn]; exact hfd
    holds := by rw [h.pending]; exact SendBuffer.holds_nil h.empty
    stream := by rw [hconn, h.flushes]; rfl
    calls := by rw [hconn, h.flushes]; rfl
    records := by simp [h.flushes] }

section Runs

variable {k : Kernel} {s : Sender}

/-- A flush is recorded as it went, and its bytes are the ones that the stream gained. -/
theorem flushRecord_ok (hk : k.WholeOrFail) (ho : s.conn.Open) (h : s.buf.Holds s.pending)
    (hne : s.pending ≠ []) :
    (s.flushRecord k s.pending).Ok ∧
      (s.conn.send k (batchBytes s.pending)).2.stream =
        s.conn.stream ++ (s.flushRecord k s.pending).accepted ∧
      (s.conn.send k (batchBytes s.pending)).2.calls =
        s.conn.calls ++ (s.flushRecord k s.pending).calls := by
  have hroom := h.room
  rw [h.offset] at hroom
  have hsent := send_sent hk (batchBytes s.pending) ho
  have hbytes : batchBytes s.pending ≠ [] := by
    rw [← List.length_pos_iff, batchBytes_length]
    omega
  unfold flushRecord
  generalize s.conn.send k (batchBytes s.pending) = r at hsent ⊢
  cases hsent with
  | all cs hcs hne' =>
    refine ⟨⟨hne, hroom, .inl ⟨by simp, by simp, ?_⟩⟩, by simp, by simp⟩
    simpa using ⟨hne' hbytes, hcs⟩
  | cut cs soff chunksz n e hcs hlt hne' hk' =>
    have hpos := e.pos
    have hcode : ¬ -(e.code : ℤ) = 0 := by omega
    refine ⟨⟨hne, hroom, .inr ⟨soff, by simpa using hpos.ne', by simp, hlt, ?_⟩⟩, by simp, by simp⟩
    exact ⟨cs, ⟨soff, chunksz, .failed e⟩, by simp, ⟨e, rfl⟩, rfl, hcs, hne'⟩

theorem flush_inv (hk : k.WholeOrFail) (h : s.Inv) : (s.flush k).2.Inv := by
  by_cases hne : s.pending = []
  · rwa [flush_of_empty h.holds hne]
  · obtain ⟨hok, hstream, hcalls⟩ := flushRecord_ok hk h.opened h.holds hne
    have hopen := flush_open (k := k) h.opened
    have hholds := flush_holds (k := k) h.holds
    rw [flush_of_pending h.holds hne] at hopen hholds ⊢
    exact {
      opened := hopen
      holds := hholds
      stream := by simp [hstream, h.stream]
      calls := by simp [hcalls, h.calls]
      records := by
        intro f hf
        rcases List.mem_append.mp hf with hf | hf
        · exact h.records f hf
        · exact List.mem_singleton.mp hf ▸ hok }

theorem command_inv (hk : k.WholeOrFail) (h : s.Inv) {payload : List Byte}
    (hw : payload.length + 2 * 12 < 2 ^ 64) : (s.command k payload).2.Inv := by
  by_cases hs : payload.length ≤ SendBuffer.getMaximumAllocationSize
  · have hafter : (s.afterFlush k payload.length).Inv := by
      unfold afterFlush
      split
      · exact flush_inv hk h
      · exact h
    rcases command_cases (k := k) h.holds hs with hcommand | ⟨buf, hbuf, hcommand⟩
    · rw [hcommand]
      exact hafter
    · rw [hcommand]
      exact { hafter with holds := hbuf }
  · rwa [command_of_tooLarge (SendBuffer.tooLarge_eq_true (by omega) hw)]

theorem step_inv (hk : k.WholeOrFail) (h : s.Inv) {op : SendOp} (hop : op.NoWrap) :
    (s.step k op).Inv := by
  cases op with
  | command payload => exact command_inv hk h hop
  | flush => exact flush_inv hk h

theorem run_inv (hk : k.WholeOrFail) (h : s.Inv) {ops : List SendOp}
    (hops : ∀ op ∈ ops, op.NoWrap) : (s.run k ops).Inv := by
  induction ops generalizing s with
  | nil => exact h
  | cons op ops ih =>
    rw [run_cons]
    apply ih (step_inv hk h (hops op List.mem_cons_self))
    exact fun op' hop' => hops op' (List.mem_cons_of_mem op hop')

end Runs

end Sender

end WebGpuDD
