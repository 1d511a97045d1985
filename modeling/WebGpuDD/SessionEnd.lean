import WebGpuDD.ClientPending
import WebGpuDD.WholeBatches

/-!
# The end of a session

The client may release its instance at any moment, and its threads may go on behind that.
What was flushed before is on the stream and comes to the server, which works on it unless
one of its replies to a client that is gone ends it with SIGPIPE. What is flushed behind the
release is dropped by a flush that reports success, and what waits in the buffer stays
there.
-/

namespace WebGpuDD

open LittleEndian CommandTransport Reference Runs

namespace FlushRecord

/-- The flushes of which the socket has taken something. -/
def sent (fs : List FlushRecord) : List FlushRecord := fs.filter fun f => f.accepted ≠ []

/-- The flushes of which it has taken nothing. -/
def dropped (fs : List FlushRecord) : List FlushRecord := fs.filter fun f => f.accepted = []

theorem sent_concat (fs : List FlushRecord) (f : FlushRecord) :
    sent (fs ++ [f]) = sent fs ++ if f.accepted = [] then [] else [f] := by
  rw [sent, List.filter_append, List.filter_singleton]
  by_cases hnil : f.accepted = [] <;> simp [hnil, sent]

theorem dropped_concat (fs : List FlushRecord) (f : FlushRecord) :
    dropped (fs ++ [f]) = dropped fs ++ if f.accepted = [] then [f] else [] := by
  rw [dropped, List.filter_append, List.filter_singleton]
  by_cases hnil : f.accepted = [] <;> simp [hnil, dropped]

end FlushRecord

/-- Nothing that went out is taken back, and nothing goes out once the connection is closed. -/
structure CommandTransport.Onward (t t' : CommandTransport) : Prop where
  grows : t.stream <+: t'.stream
  closed : ¬ t.Open → ¬ t'.Open ∧ t'.stream = t.stream

theorem CommandTransport.Onward.refl (t : CommandTransport) : Onward t t :=
  ⟨List.prefix_refl _, fun hclosed => ⟨hclosed, rfl⟩⟩

namespace ClientSend

open FlushRecord

/-- The batches that have gone out. -/
def sentBatches (c : ClientSend) : List (List (List Byte)) :=
  (sent c.sender.flushes).map FlushRecord.payloads

/-- What goes out goes out whole and before anything is dropped, and nothing is dropped on
an open connection. -/
structure Split (c : ClientSend) : Prop where
  flushes : c.sender.flushes = sent c.sender.flushes ++ dropped c.sender.flushes
  granted : c.granted = c.sender.flushes.flatMap FlushRecord.payloads ++ c.sender.pending
  holds : c.sender.buf.Holds c.sender.pending
  stream : c.sender.conn.stream = c.sentBatches.flatMap batchBytes
  sendable : ∀ ps ∈ c.sentBatches, Sendable ps
  result : ∀ f ∈ c.sender.flushes, f.result = true
  opened : c.sender.conn.Open → dropped c.sender.flushes = []

section Split

variable {k : Kernel} {c c' : ClientSend}

theorem fresh_split {s : Sender} (h : s.Fresh) : Split ⟨s, []⟩ := by
  obtain ⟨connfd, -, hconn⟩ := h.conn
  exact {
    flushes := by simp [sent, dropped, h.flushes]
    granted := by simp [h.flushes, h.pending]
    holds := by
      rw [h.pending]
      exact SendBuffer.holds_nil h.empty
    stream := by simp [sentBatches, sent, h.flushes, hconn, ofFd]
    sendable := by simp [sentBatches, sent, h.flushes]
    result := by simp [h.flushes]
    opened := by simp [dropped, h.flushes] }

section Flush

variable {buf : SendBuffer} {conn : CommandTransport} {f : FlushRecord}

theorem Split.result_concat (h : c.Split) (hresult : f.result = true) :
    ∀ g ∈ c.sender.flushes ++ [f], g.result = true := by
  intro g hg
  rcases List.mem_append.mp hg with hg | hg
  · exact h.result g hg
  · exact List.mem_singleton.mp hg ▸ hresult

theorem Split.granted_concat (h : c.Split) (hf : f.payloads = c.sender.pending) :
    c.granted = (c.sender.flushes ++ [f]).flatMap FlushRecord.payloads ++ [] := by
  rw [h.granted, List.flatMap_append, List.flatMap_singleton, hf, List.append_nil]

/-- What is pending goes out. -/
theorem Split.goOut (h : c.Split) (ho : c.sender.conn.Open) (hf : f.payloads = c.sender.pending)
    (hresult : f.result = true) (htaken : f.accepted = batchBytes c.sender.pending)
    (hholds : buf.Holds []) (hstream : conn.stream = c.sender.conn.stream ++ f.accepted) :
    Split ⟨⟨buf, conn, [], c.sender.flushes ++ [f]⟩, c.granted⟩ := by
  have hne : f.accepted ≠ [] := by
    apply List.ne_nil_of_length_pos
    rw [htaken, batchBytes_length]
    omega
  have hsent : sent (c.sender.flushes ++ [f]) = sent c.sender.flushes ++ [f] := by
    rw [sent_concat, if_neg hne]
  have hdropped : dropped (c.sender.flushes ++ [f]) = [] := by
    rw [dropped_concat, if_neg hne, h.opened ho, List.append_nil]
  have hbatches : (sent (c.sender.flushes ++ [f])).map FlushRecord.payloads =
      c.sentBatches ++ [c.sender.pending] := by
    rw [hsent, List.map_append, List.map_singleton, hf]
    rfl
  have hall := h.flushes
  rw [h.opened ho, List.append_nil] at hall
  refine ⟨?_, h.granted_concat hf, hholds, ?_, ?_, h.result_concat hresult, fun _ => hdropped⟩
  · simp only [hsent, hdropped, List.append_nil]
    rw [← hall]
  · simp only [sentBatches, hbatches, hstream, h.stream, htaken, List.flatMap_append,
      List.flatMap_singleton]
  · simp only [sentBatches, hbatches]
    intro ps hps
    rcases List.mem_append.mp hps with hps | hps
    · exact h.sendable ps hps
    · have hroom := h.holds.room
      rw [h.holds.offset] at hroom
      exact List.mem_singleton.mp hps ▸ hroom

/-- What is pending is dropped. -/
theorem Split.drop (h : c.Split) (hclosed : ¬ conn.Open) (hf : f.payloads = c.sender.pending)
    (hresult : f.result = true) (htaken : f.accepted = []) (hholds : buf.Holds [])
    (hstream : conn.stream = c.sender.conn.stream) :
    Split ⟨⟨buf, conn, [], c.sender.flushes ++ [f]⟩, c.granted⟩ := by
  have hsent : sent (c.sender.flushes ++ [f]) = sent c.sender.flushes := by
    rw [sent_concat, if_pos htaken, List.append_nil]
  have hdropped : dropped (c.sender.flushes ++ [f]) = dropped c.sender.flushes ++ [f] := by
    rw [dropped_concat, if_pos htaken]
  refine ⟨?_, h.granted_concat hf, hholds, ?_, ?_, h.result_concat hresult,
    fun hopen => absurd hopen hclosed⟩
  · simp only [hsent, hdropped]
    rw [← List.append_assoc, ← h.flushes]
  · simp only [sentBatches, hsent, hstream]
    exact h.stream
  · simp only [sentBatches, hsent]
    exact h.sendable

theorem flush_split (hk : k.AcceptsAll) (h : c.Split) :
    Split ⟨(c.sender.flush k).2, c.granted⟩ ∧
      Onward c.sender.conn (c.sender.flush k).2.conn := by
  have hholds := Sender.flush_holds (k := k) h.holds
  rw [Sender.flush_pending h.holds] at hholds
  by_cases hne : c.sender.pending = []
  · rw [Sender.flush_of_empty h.holds hne]
    exact ⟨h, Onward.refl _⟩
  rw [Sender.flush_of_pending h.holds hne]
  by_cases ho : c.sender.conn.Open
  · obtain ⟨hzero, hstream⟩ := send_acceptsAll hk (batchBytes c.sender.pending) ho
    have htaken : (c.sender.flushRecord k c.sender.pending).accepted =
        batchBytes c.sender.pending := by
      rw [Sender.flushRecord, hstream, List.drop_left]
    have hresult : (c.sender.flushRecord k c.sender.pending).result = true := by
      rw [Sender.flushRecord, hzero]
      rfl
    refine ⟨h.goOut ho rfl hresult htaken hholds ?_, ?_, fun hclosed => absurd ho hclosed⟩
    · rw [hstream, htaken]
    · simp only [hstream]
      exact List.prefix_append _ _
  · have hsend : c.sender.conn.send k (batchBytes c.sender.pending) = (0, c.sender.conn) :=
      if_pos (Int.not_le.mp ho)
    have htaken : (c.sender.flushRecord k c.sender.pending).accepted = [] := by
      rw [Sender.flushRecord, hsend, List.drop_length]
    have hresult : (c.sender.flushRecord k c.sender.pending).result = true := by
      rw [Sender.flushRecord, hsend]
      rfl
    rw [hsend]
    exact ⟨h.drop ho rfl hresult htaken hholds rfl, Onward.refl _⟩

end Flush

theorem afterFlush_split (hk : k.AcceptsAll) (h : c.Split) (size : ℕ) :
    Split ⟨c.sender.afterFlush k size, c.granted⟩ ∧
      Onward c.sender.conn (c.sender.afterFlush k size).conn := by
  unfold Sender.afterFlush
  split
  · exact flush_split hk h
  · exact ⟨h, Onward.refl _⟩

theorem command_split (hk : k.AcceptsAll) (h : c.Split) {payload : List Byte}
    (hw : payload.length + 2 * 12 < 2 ^ 64)
    (hstep : c.step k (.getCmdSpace payload) = some c') :
    c'.Split ∧ Onward c.sender.conn c'.sender.conn := by
  simp only [step, Option.some.injEq] at hstep
  by_cases hs : payload.length ≤ SendBuffer.getMaximumAllocationSize
  · obtain ⟨hafter, hgrow⟩ := afterFlush_split hk h payload.length
    rw [← hstep]
    rcases Sender.command_cases (k := k) h.holds hs with hcommand | ⟨buf, hbuf, hcommand⟩
    · rw [hcommand]
      exact ⟨hafter, hgrow⟩
    · -- the payload is granted and waits behind the others
      have hgranted : c.granted = _ := hafter.granted
      rw [hcommand, if_pos rfl]
      refine ⟨{ hafter with granted := ?_, holds := hbuf }, hgrow⟩
      simp only [hgranted, List.append_assoc]
  · have hlarge := SendBuffer.tooLarge_eq_true (by omega) hw
    rw [Sender.command_of_tooLarge hlarge] at hstep
    exact hstep ▸ ⟨h, Onward.refl _⟩

/-- Whatever the client does keeps this apart. -/
theorem step_split (hk : k.AcceptsAll) (h : c.Split) {op : ClientOp} (hop : NoWrap op)
    (hstep : c.step k op = some c') :
    c'.Split ∧ Onward c.sender.conn c'.sender.conn := by
  cases op with
  | getCmdSpace payload => exact command_split hk h hop hstep
  | webGPUDDFlush =>
    obtain rfl := Option.some.inj hstep
    exact flush_split hk h
  | webGPUDDInstanceRelease =>
    obtain rfl := Option.some.inj hstep
    have hstream : c.sender.conn.destroy.stream = c.sender.conn.stream := by
      unfold destroy
      split <;> rfl
    have hclosed := destroy_not_open c.sender.conn
    refine ⟨{ h with stream := ?_, opened := ?_ }, ?_, fun _ => ⟨hclosed, hstream⟩⟩
    · exact hstream.trans h.stream
    · exact fun hopen => absurd hopen hclosed
    · exact hstream ▸ List.prefix_refl _

end Split

end ClientSend

/-! ## The server's process -/

/-- The server and whether a signal has ended its process. -/
structure ServerProcess where
  server : DDWGPUServer
  killed : Bool

namespace ServerProcess

/-- The numbers of the calls of `send(2)` that lead from one state to another. -/
def sendCalls (e e' : DDWGPUServer) : List ℕ :=
  List.range' e.sender.conn.calls.length
    (e'.sender.conn.calls.length - e.sender.conn.calls.length)

/-- `DDWGPUServer::HandleCommands`, where the `n`-th `send(2)` on the connection raises SIGPIPE
if `sigpipe n` says so. Nothing handles the signal, so the process ends inside `Send`, when
`mSrv` has the batch. -/
def handleCommands (P : Peers) (sigpipe : ℕ → Bool) (commands : List Byte) (e : ServerProcess) :
    Bool × ServerProcess :=
  -- for a process that has ended the rest of a pass does not happen
  if e.killed then (true, e)
  else
    let ret := e.server.handleCommands P commands
    if (sendCalls e.server ret.2).any sigpipe then
      (true, ⟨{ e.server with handled := e.server.handled ++ [commands] }, true⟩)
    else (ret.1, ⟨ret.2, false⟩)

def handler (P : Peers) (sigpipe : ℕ → Bool) : CommandHandler ServerProcess :=
  ⟨handleCommands P sigpipe⟩

section Handled

variable (P : Peers) (sigpipe : ℕ → Bool) {e : ServerProcess}

theorem handleCommands_of_killed (h : e.killed = true) (b : List Byte) :
    (e.handleCommands P sigpipe b).2 = e := by
  rw [handleCommands, if_pos h]

/-- Otherwise `mSrv` is given the batch, whether the call returns or not. -/
theorem handleCommands_handled (h : e.killed = false) (b : List Byte) :
    (e.handleCommands P sigpipe b).2.server.handled = e.server.handled ++ [b] := by
  rw [handleCommands, h, if_neg Bool.false_ne_true]
  dsimp only
  split <;> rfl

/-- A process that has not ended has been through all of its batches. -/
theorem after_handled (e : ServerProcess) (bs : List (List Byte)) :
    ((handler P sigpipe).after e bs).server.handled <+: e.server.handled ++ bs ∧
      (((handler P sigpipe).after e bs).killed = false →
        ((handler P sigpipe).after e bs).server.handled = e.server.handled ++ bs) := by
  induction bs using List.reverseRecOn with
  | nil => simp [CommandHandler.after]
  | append_singleton bs b ih =>
    obtain ⟨hfirst, hall⟩ := ih
    rw [CommandHandler.after_concat, ← List.append_assoc]
    cases hkilled : ((handler P sigpipe).after e bs).killed with
    | true =>
      have hsame := handleCommands_of_killed P sigpipe hkilled b
      rw [handler] at hsame hfirst hkilled ⊢
      rw [hsame]
      refine ⟨hfirst.trans (List.prefix_append _ _), fun hlive => ?_⟩
      rw [hkilled] at hlive
      cases hlive
    | false =>
      have hgiven := handleCommands_handled P sigpipe hkilled b
      rw [hall hkilled] at hgiven
      exact ⟨hgiven.symm ▸ List.prefix_refl _, fun _ => hgiven⟩

end Handled

end ServerProcess

/-! ## With the server's receiving half -/

/-- What a thread of the client does, with a size that does not wrap. -/
def SafeClientOp : Type := {op : ClientOp // ClientSend.NoWrap op}

namespace SafeClientOp

def getCmdSpace (p : Payload) : SafeClientOp := ⟨.getCmdSpace p.val, p.noWrap⟩

def webGPUDDFlush : SafeClientOp := ⟨.webGPUDDFlush, trivial⟩

def webGPUDDInstanceRelease : SafeClientOp := ⟨.webGPUDDInstanceRelease, trivial⟩

end SafeClientOp

/-- The client's sending half and the server's receiving half, with the direction between
them. -/
structure SessionEnd where
  client : ClientSend
  serverIn : Recv ServerProcess
  c2s : Direction

namespace SessionEnd

inductive Action where
  | client (op : SafeClientOp)
  | deliverToServer (n : ℕ)
  | serverRecv (n : ℕ)
  | serverClosed
  | serverFailed (e : Errno)

/-- A new connection, whose server has entered `Recv`. -/
structure Opened (s : SessionEnd) : Prop where
  client : s.client.sender.Fresh
  granted : s.client.granted = []
  serverIn : s.serverIn.Entered
  handled : s.serverIn.env.server.handled = []
  alive : s.serverIn.env.killed = false
  c2s : s.c2s = ⟨0, 0⟩

/-- All that the client has sent. -/
def clientStream (s : SessionEnd) : List Byte := s.client.sender.conn.stream

/-- What the server has been given. -/
def handled (s : SessionEnd) : List (List Byte) := s.serverIn.env.server.handled

/-- The server's process is inside `Recv`. -/
def Receiving (s : SessionEnd) : Prop :=
  s.serverIn.outcome = .running ∧ s.serverIn.env.killed = false

instance (s : SessionEnd) : Decidable s.Receiving := by
  unfold Receiving
  infer_instance

/-- `recv(2)` gives bytes, 0 behind the last byte of a closed connection, or an error. -/
def step (P : Peers) (sigpipe : ℕ → Bool) (s : SessionEnd) : Action → Option SessionEnd
  | .client op => (s.client.step P.clientKernel op.val).map fun c => { s with client := c }
  | .deliverToServer n =>
    (s.c2s.deliver s.clientStream n).map fun d => { s with c2s := d }
  | .serverRecv n =>
    if s.Receiving then
      (s.c2s.recv s.clientStream n).bind fun r =>
        let serverIn := s.serverIn.step (ServerProcess.handler P sigpipe) (.data r.1)
        -- the signal is raised only where the client has closed the connection
        if serverIn.env.killed ∧ s.client.sender.conn.Open then none
        else some { s with serverIn := serverIn, c2s := r.2 }
    else none
  | .serverClosed =>
    if s.Receiving ∧ ¬ s.client.sender.conn.Open ∧ s.c2s.read = s.clientStream.length then
      some { s with serverIn := s.serverIn.step (ServerProcess.handler P sigpipe) .closed }
    else none
  | .serverFailed e =>
    if s.Receiving then
      some { s with serverIn := s.serverIn.step (ServerProcess.handler P sigpipe) (.failed e) }
    else none

/-- The receiver is as far as it has read, it has returned 0 only behind all of the stream of
a closed connection, and only there has the signal ended it. -/
structure Inv (P : Peers) (sigpipe : ℕ → Bool) (s₀ s : SessionEnd) : Prop where
  split : s.client.Split
  read_le : s.c2s.read ≤ s.c2s.arrived
  arrived_le : s.c2s.arrived ≤ s.clientStream.length
  sim : Recv.Sim (ServerProcess.handler P sigpipe) s₀.serverIn.env
    { s.serverIn with outcome := .running } (s.clientStream.take s.c2s.read)
  ended : s.serverIn.outcome = .returned 0 → s.serverIn.env.killed = false ∧
    ¬ s.client.sender.conn.Open ∧ s.c2s.read = s.clientStream.length
  signal : s.serverIn.env.killed = true → ¬ s.client.sender.conn.Open

section Inv

variable {P : Peers} {sigpipe : ℕ → Bool} {s₀ s s' : SessionEnd}

theorem Opened.inv (h₀ : s₀.Opened) : Inv P sigpipe s₀ s₀ where
  split := by
    have hsplit := ClientSend.fresh_split h₀.client
    rwa [← h₀.granted] at hsplit
  read_le := by simp [h₀.c2s]
  arrived_le := by simp [h₀.c2s]
  sim := by
    have hsame : { s₀.serverIn with outcome := .running } = s₀.serverIn := by
      rw [← h₀.serverIn.running]
    rw [hsame, h₀.c2s, List.take_zero]
    exact h₀.serverIn.sim
  ended := by simp [h₀.serverIn.running]
  signal := by simp [h₀.alive]

/-- What is on the stream has no command that is refused. -/
theorem Inv.clean (h : Inv P sigpipe s₀ s) (n : ℕ) :
    Recv.Clean (ServerProcess.handler P sigpipe) s₀.serverIn.env (s.clientStream.take n) := by
  apply Recv.clean_of_fits
  have hfits := fits_batches h.split.sendable
  rw [← h.split.stream] at hfits
  exact hfits.left (List.take_prefix n _)

theorem step_client (hc : P.clientKernel.AcceptsAll) (h : Inv P sigpipe s₀ s) {op : SafeClientOp}
    (hstep : s.step P sigpipe (.client op) = some s') : Inv P sigpipe s₀ s' := by
  obtain ⟨c, hop, rfl⟩ := Option.map_eq_some_iff.mp hstep
  obtain ⟨hsplit, honward⟩ := ClientSend.step_split hc h.split op.property hop
  have hread := h.read_le.trans h.arrived_le
  refine ⟨hsplit, h.read_le, h.arrived_le.trans honward.grows.length_le, ?_, ?_,
    fun hkilled => (honward.closed (h.signal hkilled)).1⟩
  · obtain ⟨more, hmore⟩ := honward.grows
    have htake : (c.sender.conn.stream).take s.c2s.read = s.clientStream.take s.c2s.read := by
      rw [← hmore]
      exact List.take_append_of_le_length hread
    simp only [clientStream, htake]
    exact h.sim
  · intro hended
    obtain ⟨halive, hclosed, hall⟩ := h.ended hended
    obtain ⟨hclosed', hsame⟩ := honward.closed hclosed
    refine ⟨halive, hclosed', ?_⟩
    simp only [clientStream, hsame]
    exact hall

theorem step_serverRecv (h : Inv P sigpipe s₀ s) {n : ℕ}
    (hstep : s.step P sigpipe (.serverRecv n) = some s') :
    Inv P sigpipe s₀ s' := by
  obtain ⟨⟨hrun, -⟩, hbind⟩ := Option.ite_none_right_eq_some.mp hstep
  obtain ⟨⟨c, d⟩, hd, hpass⟩ := Option.bind_eq_some_iff.mp hbind
  obtain ⟨hsignal, hs'⟩ := Option.ite_none_left_eq_some.mp hpass
  obtain rfl := Option.some.inj hs'
  obtain ⟨hle, hbytes, rfl⟩ := Direction.recv_cases hd
  have hsim := h.sim
  have hsame : { s.serverIn with outcome := .running } = s.serverIn := by
    rw [← hrun]
  rw [hsame] at hsim
  have hdata : s.serverIn.step (ServerProcess.handler P sigpipe) (.data c) =
      s.serverIn.onData (ServerProcess.handler P sigpipe) c.bytes := if_pos hrun
  have htake : s.clientStream.take s.c2s.read ++ c.bytes =
      s.clientStream.take (s.c2s.read + n) := by
    rw [hbytes, ← List.take_add]
  have hnext := Recv.onData_sim c.bytes hsim hrun
  rw [htake, ← hdata] at hnext
  -- on this stream nothing but the parser's state is possible, so `Recv` goes on
  have hrun' := (hnext.rel (h.clean _)).1.running
  have hsame' : { s.serverIn.step (ServerProcess.handler P sigpipe) (.data c) with
        outcome := .running } =
      s.serverIn.step (ServerProcess.handler P sigpipe) (.data c) := by
    rw [← hrun']
  refine ⟨h.split, hle, h.arrived_le, ?_, fun hzero => ?_, fun hkilled hopen =>
    hsignal ⟨hkilled, hopen⟩⟩
  · simp only [hsame']
    exact hnext
  · rw [hrun'] at hzero
    cases hzero

theorem step_inv (hc : P.clientKernel.AcceptsAll) (s : SessionEnd) (a : Action)
    (s' : SessionEnd) (h : Inv P sigpipe s₀ s) (hstep : s.step P sigpipe a = some s') :
    Inv P sigpipe s₀ s' := by
  cases a with
  | client op => exact step_client hc h hstep
  | deliverToServer n =>
    obtain ⟨d, hd, rfl⟩ := Option.map_eq_some_iff.mp hstep
    obtain ⟨-, hle, rfl⟩ := Direction.deliver_cases hd
    exact ⟨h.split, h.read_le.trans (Nat.le_add_right _ _), hle, h.sim, h.ended, h.signal⟩
  | serverRecv n => exact step_serverRecv h hstep
  | serverClosed =>
    obtain ⟨⟨⟨hrun, halive⟩, hend⟩, hs'⟩ := Option.ite_none_right_eq_some.mp hstep
    obtain rfl := Option.some.inj hs'
    have hclosed : s.serverIn.step (ServerProcess.handler P sigpipe) .closed =
        { s.serverIn with outcome := .returned 0 } := if_pos hrun
    rw [hclosed]
    exact ⟨h.split, h.read_le, h.arrived_le, h.sim, fun _ => ⟨halive, hend⟩, h.signal⟩
  | serverFailed e =>
    obtain ⟨⟨hrun, -⟩, hs'⟩ := Option.ite_none_right_eq_some.mp hstep
    obtain rfl := Option.some.inj hs'
    have hfailed : s.serverIn.step (ServerProcess.handler P sigpipe) (.failed e) =
        { s.serverIn with outcome := .returned (-e.code) } := if_pos hrun
    rw [hfailed]
    refine ⟨h.split, h.read_le, h.arrived_le, h.sim, fun hzero => ?_, h.signal⟩
    have hpos := e.pos
    simp only [Outcome.returned.injEq] at hzero
    omega

theorem reachable_inv (hc : P.clientKernel.AcceptsAll) (h₀ : s₀.Opened)
    (h : Reachable (step P sigpipe) s₀ s) : Inv P sigpipe s₀ s :=
  invariant_reachable (step_inv hc) h₀.inv h

/-- The server has been given the batches that it has read to their last byte, or, where the
signal has ended it, the first ones of them. -/
theorem Inv.handled_eq (h₀ : s₀.Opened) (h : Inv P sigpipe s₀ s) :
    s.handled <+: (wholeWithin s.c2s.read s.client.sentBatches).map List.flatten ∧
      (s.serverIn.env.killed = false →
        s.handled = (wholeWithin s.c2s.read s.client.sentBatches).map List.flatten) := by
  have henv := (h.sim.rel (h.clean _)).1.env
  have hstream : s.clientStream = s.client.sentBatches.flatMap batchBytes := h.split.stream
  simp only at henv
  have hafter := ServerProcess.after_handled P sigpipe s₀.serverIn.env
    (parse (s.clientStream.take s.c2s.read)).calls
  rwa [h₀.handled, List.nil_append, ← henv, hstream, parse_take_batches h.split.sendable]
    at hafter

end Inv

/-- Whatever the client's threads do, with a release at any moment, and whatever becomes of
the server's replies: a command that got room is in a batch that has gone out, in one that a
flush behind the release has dropped with a success, or in the buffer, in this order. The
server has been given the batches of the first kind that it has read to their last byte,
unless SIGPIPE has ended it, which happens only behind the release and leaves it with the
first ones of them. Once its `Recv` has returned 0 it has been given all of them and no
others. -/
theorem release_loses {P : Peers} (hc : P.clientKernel.AcceptsAll) (sigpipe : ℕ → Bool)
    {s₀ s : SessionEnd} (h₀ : s₀.Opened) (h : Reachable (step P sigpipe) s₀ s) :
    s.client.granted = s.client.sentBatches.flatten ++
      (FlushRecord.dropped s.client.sender.flushes).flatMap FlushRecord.payloads ++
        s.client.sender.pending ∧
    (∀ f ∈ FlushRecord.dropped s.client.sender.flushes, f.result = true ∧ f.accepted = []) ∧
    (s.client.sender.conn.Open → FlushRecord.dropped s.client.sender.flushes = []) ∧
    s.handled <+: (wholeWithin s.c2s.read s.client.sentBatches).map List.flatten ∧
    (s.serverIn.env.killed = false →
      s.handled = (wholeWithin s.c2s.read s.client.sentBatches).map List.flatten) ∧
    (s.serverIn.env.killed = true → ¬ s.client.sender.conn.Open) ∧
    (s.serverIn.outcome = .returned 0 →
      s.handled = s.client.sentBatches.map List.flatten) := by
  have hinv := reachable_inv hc h₀ h
  obtain ⟨hfirst, hhandled⟩ := hinv.handled_eq h₀
  refine ⟨?_, ?_, hinv.split.opened, hfirst, hhandled, hinv.signal, fun hzero => ?_⟩
  · have hgranted := hinv.split.granted
    rw [hinv.split.flushes, List.flatMap_append] at hgranted
    exact hgranted
  · intro f hf
    obtain ⟨hmem, htaken⟩ := List.mem_filter.mp hf
    exact ⟨hinv.split.result f hmem, of_decide_eq_true htaken⟩
  · obtain ⟨halive, -, hall⟩ := hinv.ended hzero
    have hstream : s.clientStream = s.client.sentBatches.flatMap batchBytes :=
      hinv.split.stream
    rw [hhandled halive, map_wholeWithin_eq_iff, ← hstream, hall]

def new : SessionEnd :=
  ⟨⟨Sender.new 3, []⟩, Recv.enter ⟨DDWGPUServer.new 4, false⟩, ⟨0, 0⟩⟩

theorem new_opened : new.Opened where
  client := Sender.new_fresh (by decide)
  granted := rfl
  serverIn := Recv.enter_entered _
  handled := rfl
  alive := rfl
  c2s := rfl

/-- Two commands are flushed, the instance is released, one more command is flushed and a
fourth one is not. The server reads all that was sent. -/
def releasedEarly : List Action :=
  [.client (.getCmdSpace ⟨[1], by decide⟩), .client .webGPUDDFlush,
    .client (.getCmdSpace ⟨[2], by decide⟩), .client .webGPUDDFlush,
    .client .webGPUDDInstanceRelease, .client (.getCmdSpace ⟨[3], by decide⟩),
    .client .webGPUDDFlush, .client (.getCmdSpace ⟨[4], by decide⟩),
    .deliverToServer 50, .serverRecv 50]

/-- The first reply is the one that raises the signal. -/
def firstReply : ℕ → Bool := fun n => n == 0

theorem releasedEarly_runs :
    (run (step Session.answering firstReply) new releasedEarly).isSome = true := by
  decide +kernel

def released : SessionEnd :=
  (run (step Session.answering firstReply) new releasedEarly).get releasedEarly_runs

theorem release_loses_released :
    released.client.granted = released.client.sentBatches.flatten ++
      (FlushRecord.dropped released.client.sender.flushes).flatMap FlushRecord.payloads ++
        released.client.sender.pending ∧
    released.handled <+:
      (wholeWithin released.c2s.read released.client.sentBatches).map List.flatten ∧
    ¬ released.client.sender.conn.Open := by
  have hlosses := release_loses (fun _ _ => rfl) firstReply new_opened
    ⟨releasedEarly, (Option.some_get releasedEarly_runs).symm⟩
  exact ⟨hlosses.1, hlosses.2.2.2.1, hlosses.2.2.2.2.2.1 (by decide +kernel)⟩

/-- The second batch is read and not handled. -/
example : released.client.sentBatches = [[[1]], [[2]]] ∧ released.handled = [[1]] := by
  decide +kernel

/-- Without the signal it is. -/
example : (run (step Session.answering fun _ => false) new (releasedEarly ++ [.serverClosed])).map
    handled = some [[1], [2]] := by
  decide +kernel

end SessionEnd

end WebGpuDD
