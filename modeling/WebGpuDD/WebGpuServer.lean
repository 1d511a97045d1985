import WebGpuDD.Lib.Runs
import WebGpuDD.Delivery

/-!
# `DDWGPUServer`

The handler that the server gives to its receive buffer: the wire server works on the
batch and reserves its replies in the send buffer, and what is left of them there is
flushed before `HandleCommands` returns.
-/

namespace WebGpuDD

open LittleEndian CommandTransport Reference Runs

/-- A payload that a serialiser may ask room for. -/
def Payload : Type := {p : List Byte // p.length ≤ SendBuffer.getMaximumAllocationSize}

/-- An operation on a send buffer whose size does not wrap. -/
def SafeOp : Type := {op : SendOp // op.NoWrap}

theorem Payload.noWrap (p : Payload) : (SendOp.command p.val).NoWrap := by
  have hp := p.property
  unfold SendBuffer.getMaximumAllocationSize at hp
  simp only [SendOp.NoWrap]
  omega

def SafeOp.command (p : Payload) : SafeOp := ⟨.command p.val, p.noWrap⟩

def SafeOp.flush : SafeOp := ⟨.flush, trivial⟩

/-- What is left open about the two programs: how their sockets take what is sent, and
what the wire server, the wire client and the application's callbacks do with a batch,
given those before it. -/
structure Peers where
  clientKernel : Kernel
  serverKernel : Kernel
  replies : List (List Byte) → List Byte → List Payload
  serverAccepts : List (List Byte) → List Byte → Bool
  clientAccepts : List (List Byte) → List Byte → Bool
  callbacks : List (List Byte) → List Byte → List SafeOp

/-- The sending half of the server when `HandleCommands` returned: the fill level of
the buffer and all that is on the outgoing stream. -/
structure HandlerReturn where
  mOffset : ℕ
  stream : List Byte
  deriving DecidableEq

/-- `DDWGPUServer`: `mBuf` with its transport, the batches that `mSrv` has handled and
what was left behind each of them. -/
structure DDWGPUServer where
  sender : Sender
  handled : List (List Byte)
  returns : List HandlerReturn

/-- The bytes of the replies to a batch, behind these batches. -/
def Peers.payloads (P : Peers) (history : List (List Byte)) (b : List Byte) : List (List Byte) :=
  (P.replies history b).map Subtype.val

/-- The payloads that the wire server reserves for each of the batches. -/
def Peers.repliesTo (P : Peers) (batches : List (List Byte)) : List (List (List Byte)) :=
  withHistory P.payloads [] batches

theorem Peers.repliesTo_concat (P : Peers) (batches : List (List Byte)) (b : List Byte) :
    P.repliesTo (batches ++ [b]) = P.repliesTo batches ++ [P.payloads batches b] :=
  withHistory_concat P.payloads batches b

theorem Peers.repliesTo_length (P : Peers) (batches : List (List Byte)) :
    (P.repliesTo batches).length = batches.length :=
  withHistory_length P.payloads [] batches

theorem Peers.repliesTo_prefix (P : Peers) {bs cs : List (List Byte)} (h : bs <+: cs) :
    P.repliesTo bs <+: P.repliesTo cs := by
  obtain ⟨more, rfl⟩ := h
  rw [repliesTo, repliesTo, withHistory_append]
  exact List.prefix_append _ _

/-- Reserve these payloads and flush. -/
def replyOps (payloads : List (List Byte)) : List SendOp := payloads.map .command ++ [.flush]

/-- The batches in which the replies go out. -/
def replyBatches (payloads : List (List Byte)) : List (List (List Byte)) :=
  batchesOf [] (replyOps payloads)

theorem replyOps_size (P : Peers) (history : List (List Byte)) (b : List Byte) :
    ∀ p, .command p ∈ replyOps (P.payloads history b) →
      p.length ≤ SendBuffer.getMaximumAllocationSize := by
  intro p hp
  have hmem : p ∈ P.payloads history b := by simpa [replyOps] using hp
  obtain ⟨q, -, rfl⟩ := List.mem_map.mp hmem
  exact q.property

/-- However often the buffer overflows, the batches are the replies in their order. -/
theorem replyBatches_flatten (payloads : List (List Byte)) :
    (replyBatches payloads).flatten = payloads := by
  suffices h : ∀ pending : List (List Byte),
      (batchesOf pending (replyOps payloads)).flatten = pending ++ payloads from h []
  induction payloads with
  | nil =>
    intro pending
    simp only [replyOps, List.map_nil, List.nil_append, batchesOf]
    split <;> simp_all
  | cons p ps ih =>
    intro pending
    simp only [replyOps, List.map_cons, List.cons_append, batchesOf]
    have hrest : ps.map SendOp.command ++ [.flush] = replyOps ps := rfl
    split
    · rw [hrest, List.flatten_cons, ih]
      rfl
    · rw [hrest, ih]
      simp

namespace DDWGPUServer

variable (P : Peers)

/-- A server that has handled nothing. -/
structure Fresh (e : DDWGPUServer) : Prop where
  sender : e.sender.Fresh
  handled : e.handled = []
  returns : e.returns = []

def new (connfd : ℤ) : DDWGPUServer := ⟨Sender.new connfd, [], []⟩

theorem new_fresh {connfd : ℤ} (h : 0 ≤ connfd) : (new connfd).Fresh :=
  ⟨Sender.new_fresh h, rfl, rfl⟩

/-- `mSrv->HandleCommands(commands, size)`: the answer, and the replies reserved. -/
def srvHandleCommands (commands : List Byte) (e : DDWGPUServer) : Bool × DDWGPUServer :=
  (P.serverAccepts e.handled commands,
    { e with
      sender := e.sender.run P.serverKernel
        ((P.payloads e.handled commands).map .command)
      handled := e.handled ++ [commands] })

/-- `DDWGPUServer::HandleCommands`. -/
def handleCommands (commands : List Byte) (e : DDWGPUServer) : Bool × DDWGPUServer :=
  let ret := e.srvHandleCommands P commands
  let sender := (ret.2.sender.flush P.serverKernel).2
  (ret.1, { ret.2 with
    sender := sender
    returns := ret.2.returns ++ [⟨sender.buf.mOffset, sender.conn.stream⟩] })

def handler : CommandHandler DDWGPUServer := ⟨handleCommands P⟩

/-! ## What the server has sent after some batches -/

variable {P}

/-- The server has handled these batches and has sent every reply to them. -/
structure Handled (P : Peers) (e : DDWGPUServer) (bs : List (List Byte)) : Prop where
  handled : e.handled = bs
  inv : e.sender.Inv
  allWhole : e.sender.AllWhole
  pending : e.sender.pending = []
  batches : e.sender.batches = (P.repliesTo bs).flatMap replyBatches
  returns_length : e.returns.length = bs.length
  returns : ∀ i r, e.returns[i]? = some r →
    r.mOffset = 0 ∧
      r.stream = (((P.repliesTo bs).take (i + 1)).flatMap replyBatches).flatMap batchBytes

theorem Fresh.handled_nil {e : DDWGPUServer} (h : e.Fresh) : Handled P e [] where
  handled := h.handled
  inv := h.sender.inv
  allWhole := by simp [Sender.AllWhole, h.sender.flushes]
  pending := h.sender.pending
  batches := by simp [Sender.batches, h.sender.flushes, Peers.repliesTo, withHistory]
  returns_length := by simp [h.returns]
  returns := by simp [h.returns]

theorem Handled.stream {e : DDWGPUServer} {bs : List (List Byte)} (h : Handled P e bs) :
    e.sender.conn.stream = ((P.repliesTo bs).flatMap replyBatches).flatMap batchBytes := by
  rw [Sender.stream_of_allWhole h.inv h.allWhole, h.batches]

theorem handleCommands_sender (commands : List Byte) (e : DDWGPUServer) :
    (e.handleCommands P commands).2.sender =
      e.sender.run P.serverKernel (replyOps (P.payloads e.handled commands)) := by
  simp only [handleCommands, srvHandleCommands, replyOps, Sender.run_append]
  rfl

/-- Behind the last flush nothing is reserved. -/
theorem run_replyOps_pending (hk : P.serverKernel.AcceptsAll) {s : Sender} (h : s.Inv)
    (history : List (List Byte)) (b : List Byte) :
    (s.run P.serverKernel (replyOps (P.payloads history b))).pending = [] := by
  have hwrap := noWrap_of_size (replyOps_size P history b)
  have hinv : (s.run P.serverKernel ((P.payloads history b).map .command)).Inv := by
    apply Sender.run_inv hk.wholeOrFail h
    intro op hop
    exact hwrap op (List.mem_append_left _ hop)
  rw [replyOps, Sender.run_append]
  exact Sender.flush_pending hinv.holds

/-- The replies to a batch are reserved one after another and flushed at the end. -/
theorem handleCommands_handled (hk : P.serverKernel.AcceptsAll) {e : DDWGPUServer}
    {bs : List (List Byte)} (h : Handled P e bs) (commands : List Byte) :
    Handled P (e.handleCommands P commands).2 (bs ++ [commands]) := by
  have hsize := replyOps_size P bs commands
  have hsender := handleCommands_sender (P := P) commands e
  rw [h.handled] at hsender
  obtain ⟨hinv, hall, -⟩ := Sender.run_acceptsAll hk h.inv h.allWhole (noWrap_of_size hsize)
  obtain ⟨-, hbatches⟩ := Sender.run_batches hk h.inv h.allWhole hsize
  have hpending := run_replyOps_pending hk h.inv bs commands
  rw [← hsender] at hinv hall hbatches hpending
  have hreplies : (e.handleCommands P commands).2.sender.batches =
      (P.repliesTo (bs ++ [commands])).flatMap replyBatches := by
    rw [hbatches, h.batches, h.pending, P.repliesTo_concat, List.flatMap_append,
      List.flatMap_singleton]
    rfl
  have hreturns : (e.handleCommands P commands).2.returns = e.returns ++
      [⟨(e.handleCommands P commands).2.sender.buf.mOffset,
        (e.handleCommands P commands).2.sender.conn.stream⟩] := rfl
  refine ⟨by rw [← h.handled]; rfl, hinv, hall, hpending, hreplies, ?_, ?_⟩
  · rw [hreturns, List.length_append, List.length_append, h.returns_length]
    rfl
  · intro i r hr
    have hlen := P.repliesTo_length bs
    have hcount := h.returns_length
    rw [hreturns, List.getElem?_append] at hr
    split at hr
    · -- an earlier return: the replies that it had to send are the same
      rw [P.repliesTo_concat, List.take_append_of_le_length (by omega)]
      exact h.returns i r hr
    · obtain ⟨hi, rfl⟩ := List.getElem?_eq_some_iff.mp hr
      rw [List.length_singleton] at hi
      have hzero : (e.handleCommands P commands).2.sender.buf.mOffset = 0 :=
        hinv.holds.eq_nil_iff.mpr hpending
      have hlen' := P.repliesTo_length (bs ++ [commands])
      rw [List.length_append, List.length_singleton] at hlen'
      rw [List.take_of_length_le (by omega), ← hreplies, List.getElem_singleton]
      exact ⟨hzero, Sender.stream_of_allWhole hinv hall⟩

theorem after_handled (hk : P.serverKernel.AcceptsAll) {e : DDWGPUServer} (h : e.Fresh)
    (bs : List (List Byte)) : Handled P ((handler P).after e bs) bs := by
  induction bs using List.reverseRecOn with
  | nil => exact h.handled_nil
  | append_singleton bs b ih =>
    rw [CommandHandler.after_concat]
    exact handleCommands_handled hk ih b

/-- A server that has handled more batches has sent more. -/
theorem after_stream_prefix (hk : P.serverKernel.AcceptsAll) {e : DDWGPUServer} (h : e.Fresh)
    {bs cs : List (List Byte)} (hbs : bs <+: cs) :
    ((handler P).after e bs).sender.conn.stream <+:
      ((handler P).after e cs).sender.conn.stream := by
  rw [(after_handled hk h bs).stream, (after_handled hk h cs).stream]
  obtain ⟨more, hmore⟩ := P.repliesTo_prefix hbs
  rw [← hmore, List.flatMap_append, List.flatMap_append]
  exact List.prefix_append _ _

end DDWGPUServer

end WebGpuDD
