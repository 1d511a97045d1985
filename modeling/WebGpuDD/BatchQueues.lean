import WebGpuDD.Lib.Simulation
import WebGpuDD.WholeBatches

/-!
# The session as two queues of batches

What the session is for, without buffers, frames, sockets and reads: commands are put
together to batches of what one buffer holds, the server takes the batches one by one and
answers each, and the client takes the answers one by one and runs its callbacks. The
session does nothing else: each of its steps is some steps of the queues, and what the
queues show of them is what the session shows.
-/

namespace WebGpuDD

open LittleEndian CommandTransport Reference Runs

instance (payloads : List (List Byte)) : Decidable (Sendable payloads) :=
  inferInstanceAs (Decidable (_ ≤ _))

/-! ## The sending side -/

/-- The commands that wait for a flush, and the batches that wait for the peer. -/
structure Outbox where
  pending : List (List Byte)
  queue : List (List Byte)

namespace Outbox

/-- Nothing is flushed where nothing waits. -/
def flush (o : Outbox) : Outbox :=
  if o.pending = [] then o else ⟨[], o.queue ++ [o.pending.flatten]⟩

/-- A command joins the batch that waits, or starts the next one where that is too long.
One that makes no batch at all is refused. -/
def command (payload : List Byte) (o : Outbox) : Outbox :=
  if Sendable (o.pending ++ [payload]) then { o with pending := o.pending ++ [payload] }
  else if Sendable [payload] then { o.flush with pending := [payload] }
  else o

def step (o : Outbox) : SendOp → Outbox
  | .command payload => o.command payload
  | .flush => o.flush

def run (o : Outbox) (ops : List SendOp) : Outbox := ops.foldl step o

theorem run_append (o : Outbox) (ops ops' : List SendOp) :
    o.run (ops ++ ops') = (o.run ops).run ops' := List.foldl_append

/-- What the peer has taken off the queue does not matter to the sender. -/
def drop (n : ℕ) (o : Outbox) : Outbox := { o with queue := o.queue.drop n }

theorem flush_drop {n : ℕ} {o : Outbox} (hn : n ≤ o.queue.length) :
    (o.drop n).flush = o.flush.drop n ∧ n ≤ o.flush.queue.length := by
  unfold flush drop
  split
  · exact ⟨rfl, hn⟩
  · refine ⟨?_, ?_⟩
    · rw [List.drop_append_of_le_length hn]
    · rw [List.length_append]
      omega

theorem step_drop {n : ℕ} {o : Outbox} (hn : n ≤ o.queue.length) (op : SendOp) :
    (o.drop n).step op = (o.step op).drop n ∧ n ≤ (o.step op).queue.length := by
  cases op with
  | flush => exact flush_drop hn
  | command payload =>
    have hpending : (o.drop n).pending = o.pending := rfl
    simp only [step, command, hpending]
    by_cases hjoin : Sendable (o.pending ++ [payload])
    · rw [if_pos hjoin, if_pos hjoin]
      exact ⟨rfl, hn⟩
    · rw [if_neg hjoin, if_neg hjoin]
      split
      · obtain ⟨hflush, hle⟩ := flush_drop hn
        rw [hflush]
        exact ⟨rfl, hle⟩
      · exact ⟨rfl, hn⟩

theorem run_drop {n : ℕ} {o : Outbox} (hn : n ≤ o.queue.length) (ops : List SendOp) :
    (o.drop n).run ops = (o.run ops).drop n ∧ n ≤ (o.run ops).queue.length := by
  induction ops generalizing o with
  | nil => exact ⟨rfl, hn⟩
  | cons op ops ih =>
    obtain ⟨hstep, hle⟩ := step_drop hn op
    have hrun : (o.drop n).run (op :: ops) = ((o.step op).drop n).run ops :=
      congrArg (run · ops) hstep
    rw [hrun]
    exact ih hle

end Outbox

theorem sendable_singleton_iff {payload : List Byte} :
    Sendable [payload] ↔ payload.length ≤ SendBuffer.getMaximumAllocationSize := by
  simp only [Sendable, SendBuffer.getMaximumAllocationSize, frames_cons, frames_nil,
    List.append_nil, frame_length]
  omega

/-- A batch is no shorter than each of its commands. -/
theorem Reference.Sendable.singleton {payloads : List (List Byte)} {payload : List Byte}
    (h : Sendable (payloads ++ [payload])) : Sendable [payload] := by
  simp only [Sendable, frames_concat, frames_cons, frames_nil, List.length_append,
    List.length_nil] at h ⊢
  omega

namespace Sender

/-- The sender's outbox, with every batch that it has ever flushed. -/
def outbox (s : Sender) : Outbox := ⟨s.pending, s.flushed⟩

section Outbox

variable {k : Kernel} {s : Sender}

theorem flush_outbox (hk : k.AcceptsAll) (h : s.Inv) (hall : s.AllWhole) :
    (s.flush k).2.outbox = s.outbox.flush := by
  obtain ⟨-, -, hbatches⟩ := flush_acceptsAll hk h hall
  have hpending := flush_pending (k := k) h.holds
  simp only [outbox, Outbox.flush, flushed_eq, hbatches, hpending]
  split
  · simp_all
  · simp

theorem command_outbox (hk : k.AcceptsAll) (h : s.Inv) (hall : s.AllWhole) {payload : List Byte}
    (hw : payload.length + 2 * 12 < 2 ^ 64) :
    (s.command k payload).2.outbox = s.outbox.command payload := by
  by_cases hs : payload.length ≤ SendBuffer.getMaximumAllocationSize
  · have hone := sendable_singleton_iff.mpr hs
    have hfull : s.buf.full payload.length = true ↔ ¬ Sendable (s.pending ++ [payload]) := by
      rw [SendBuffer.full_iff hs, h.holds.offset, Sendable, frames_concat, List.length_append,
        frame_length]
      omega
    obtain ⟨-, -, hcommand⟩ := command_acceptsAll hk h hall hs
    by_cases hf : s.buf.full payload.length = true
    · -- there is something to flush, or the command would have joined it
      have hne : s.pending ≠ [] := by
        intro hnil
        rw [hfull, hnil] at hf
        exact hf hone
      rw [if_pos hf] at hcommand
      simp only [outbox, Outbox.command, Outbox.flush, if_neg (hfull.mp hf), if_pos hone,
        if_neg hne, flushed_eq, hcommand.1, hcommand.2]
      simp
    · rw [if_neg hf] at hcommand
      have hjoin : Sendable (s.pending ++ [payload]) := by
        by_contra hno
        exact hf (hfull.mpr hno)
      simp only [outbox, Outbox.command, if_pos hjoin, flushed_eq, hcommand.1, hcommand.2]
  · have hone : ¬ Sendable [payload] := sendable_singleton_iff.not.mpr hs
    have hjoin : ¬ Sendable (s.outbox.pending ++ [payload]) := fun hjoin => hone hjoin.singleton
    rw [command_of_tooLarge (SendBuffer.tooLarge_eq_true (by omega) hw), Outbox.command,
      if_neg hjoin, if_neg hone]

theorem step_outbox (hk : k.AcceptsAll) (h : s.Inv) (hall : s.AllWhole) {op : SendOp}
    (hop : op.NoWrap) : (s.step k op).outbox = s.outbox.step op := by
  cases op with
  | command payload => exact command_outbox hk h hall hop
  | flush => exact flush_outbox hk h hall

theorem run_outbox (hk : k.AcceptsAll) (h : s.Inv) (hall : s.AllWhole) {ops : List SendOp}
    (hops : ∀ op ∈ ops, op.NoWrap) : (s.run k ops).outbox = s.outbox.run ops := by
  induction ops generalizing s with
  | nil => rfl
  | cons op ops ih =>
    have hop := hops op List.mem_cons_self
    obtain ⟨hinv, hall', -⟩ := step_acceptsAll hk h hall hop
    rw [run_cons, ih hinv hall' fun op' hop' => hops op' (List.mem_cons_of_mem op hop'),
      step_outbox hk h hall hop]
    rfl

end Outbox

end Sender

/-! ## The two queues -/

/-- The batches on their way and those that have been taken, in both directions. -/
structure BatchQueues where
  outbox : Outbox
  handled : List (List Byte)
  toClient : List (List Byte)
  received : List (List Byte)

namespace BatchQueues

def init : BatchQueues := ⟨⟨[], []⟩, [], [], []⟩

inductive Action where
  | client (op : SafeOp)
  | serve
  | receive

/-- What can be seen of a session: a call of the application, and each batch that one of
the two handlers is given. -/
inductive Event where
  | client (op : SendOp)
  | handled (batch : List Byte)
  | received (batch : List Byte)

/-- The server answers the first batch that waits, or the client takes the first answer. -/
def step (P : Peers) (q : BatchQueues) : Action → Option BatchQueues
  | .client op => some { q with outbox := q.outbox.step op.val }
  | .serve =>
    match q.outbox.queue with
    | [] => none
    | b :: bs => some { q with
        outbox := { q.outbox with queue := bs }
        handled := q.handled ++ [b]
        toClient := q.toClient ++ (replyBatches (P.payloads q.handled b)).map List.flatten }
  | .receive =>
    match q.toClient with
    | [] => none
    | b :: bs => some { q with
        outbox := q.outbox.run ((P.callbacks q.received b).map Subtype.val)
        toClient := bs
        received := q.received ++ [b] }

def shows (q : BatchQueues) : Action → List Event
  | .client op => [.client op.val]
  | .serve => q.outbox.queue.head?.toList.map .handled
  | .receive => q.toClient.head?.toList.map .received

/-- The batches that these replies make. -/
def answers (P : Peers) (history batches : List (List Byte)) : List (List Byte) :=
  ((withHistory P.payloads history batches).flatMap replyBatches).map List.flatten

section Runs

variable {P : Peers} {q : BatchQueues}

theorem run_serves {new rest : List (List Byte)} (h : q.outbox.queue = new ++ rest) :
    run (step P) q (List.replicate new.length .serve) = some { q with
        outbox := { q.outbox with queue := rest }
        handled := q.handled ++ new
        toClient := q.toClient ++ answers P q.handled new } ∧
      trace (step P) shows q (List.replicate new.length .serve) = new.map .handled := by
  induction new generalizing q with
  | nil =>
    have hrest : { q.outbox with queue := rest } = q.outbox := by
      rw [← List.nil_append rest, ← h]
    simp [hrest, answers, withHistory]
  | cons b new ih =>
    have hserve : q.step P .serve = some { q with
        outbox := { q.outbox with queue := new ++ rest }
        handled := q.handled ++ [b]
        toClient := q.toClient ++ (replyBatches (P.payloads q.handled b)).map List.flatten } := by
      simp only [step, h, List.cons_append]
    obtain ⟨hrun, htrace⟩ := ih (q := { q with
        outbox := { q.outbox with queue := new ++ rest }
        handled := q.handled ++ [b]
        toClient := q.toClient ++ (replyBatches (P.payloads q.handled b)).map List.flatten }) rfl
    rw [List.length_cons, List.replicate_succ]
    constructor
    · rw [Runs.run_cons, hserve, Option.bind_some, hrun]
      simp [answers, withHistory]
    · rw [trace_cons hserve, htrace]
      simp [shows, h]

theorem run_receives {new rest : List (List Byte)} (h : q.toClient = new ++ rest) :
    run (step P) q (List.replicate new.length .receive) = some { q with
        outbox := q.outbox.run (Session.completions P q.received new)
        toClient := rest
        received := q.received ++ new } ∧
      trace (step P) shows q (List.replicate new.length .receive) = new.map .received := by
  induction new generalizing q with
  | nil =>
    have hnone : Session.completions P q.received [] = [] := rfl
    rw [List.nil_append] at h
    simp [← h, hnone, Outbox.run]
  | cons b new ih =>
    have hreceive : q.step P .receive = some { q with
        outbox := q.outbox.run ((P.callbacks q.received b).map Subtype.val)
        toClient := new ++ rest
        received := q.received ++ [b] } := by
      simp only [step, h, List.cons_append]
    obtain ⟨hrun, htrace⟩ := ih (q := { q with
        outbox := q.outbox.run ((P.callbacks q.received b).map Subtype.val)
        toClient := new ++ rest
        received := q.received ++ [b] }) rfl
    have hops : Session.completions P q.received (b :: new) =
        (P.callbacks q.received b).map Subtype.val ++
          Session.completions P (q.received ++ [b]) new := by
      simp only [Session.completions, withHistory, List.flatten_cons]
      exact List.map_append
    rw [List.length_cons, List.replicate_succ]
    constructor
    · rw [Runs.run_cons, hreceive, Option.bind_some, hrun, hops, Outbox.run_append]
      simp
    · rw [trace_cons hreceive, htrace]
      simp [shows, h]

end Runs

end BatchQueues

/-! ## The session does what the queues allow -/

namespace Session

open BatchQueues (Event answers)

/-- The queues of a session: what has been flushed and not handled yet. -/
def queues (s : Session) : BatchQueues where
  outbox := s.client.outbox.drop s.serverIn.env.handled.length
  handled := s.serverIn.env.handled
  toClient := s.serverIn.env.sender.flushed.drop s.clientIn.env.length
  received := s.clientIn.env

/-- What an action shows: the batches that the receive thread gives to its handler. -/
def shows (P : Peers) (s : Session) : Action → List Event
  | .client op => [.client op.val]
  | .deliverToServer _ => []
  | .deliverToClient _ => []
  | .serverRecv n => (s.step P (.serverRecv n)).elim [] fun s' =>
      (s'.serverIn.env.handled.drop s.serverIn.env.handled.length).map .handled
  | .clientRecv n => (s.step P (.clientRecv n)).elim [] fun s' =>
      (s'.clientIn.env.drop s.clientIn.env.length).map .received

section Refines

variable {P : Peers} {s₀ s s' : Session}

theorem Opened.queues (h : s₀.Opened) : s₀.queues = BatchQueues.init := by
  simp [Session.queues, BatchQueues.init, Sender.outbox, Outbox.drop, Sender.flushed,
    h.client.pending, h.client.flushes, h.server.handled, h.server.sender.flushes, h.clientLog]

theorem Inv.handled_prefix_flushed (hs : P.serverKernel.AcceptsAll) (h₀ : s₀.Opened)
    (h : Inv P s₀ s) : s.serverIn.env.handled <+: s.client.flushed := by
  obtain ⟨hserver, hflushed⟩ := h.server hs h₀
  rwa [← hserver.handled] at hflushed

theorem Inv.received_prefix_flushed (hs : P.serverKernel.AcceptsAll) (h₀ : s₀.Opened)
    (h : Inv P s₀ s) : s.clientIn.env <+: s.serverIn.env.sender.flushed := by
  rw [h.received_eq hs h₀, Sender.flushed_eq]
  exact (wholeWithin_prefix_batches _ _).map _

/-- What the client was given is what the parser makes of the bytes read. -/
theorem Inv.received_calls (hs : P.serverKernel.AcceptsAll) (h₀ : s₀.Opened) (h : Inv P s₀ s) :
    s.clientIn.env = (parse (s.serverStream.take s.s2c.read)).calls := by
  have hsend := Sender.sendable_batches (h.serverHandled hs h₀).inv
  obtain ⟨henv, -⟩ := h.s2c.calls h₀.clientIn hsend (h.serverStream hs h₀)
  rwa [CommandHandler.recorder_after, h₀.clientLog, List.nil_append] at henv

/-- The answers to what was handled before come first. -/
theorem Inv.flushed_answers (hs : P.serverKernel.AcceptsAll) (h₀ : s₀.Opened) (h : Inv P s₀ s) :
    s.serverIn.env.sender.flushed = answers P [] s.serverIn.env.handled := by
  rw [Sender.flushed_eq, (h.serverHandled hs h₀).batches]
  rfl

theorem answers_append (history bs cs : List (List Byte)) :
    answers P history (bs ++ cs) = answers P history bs ++ answers P (history ++ bs) cs := by
  simp [answers, withHistory_append]

/-- What the application does, it does to the batches that are not handled yet. -/
theorem client_queues (hc : P.clientKernel.AcceptsAll) (hs : P.serverKernel.AcceptsAll)
    (h₀ : s₀.Opened) (h : Inv P s₀ s) {op : SafeOp} (hstep : s.step P (.client op) = some s') :
    s.queues.step P (.client op) = some s'.queues := by
  have hle : s.serverIn.env.handled.length ≤ s.client.outbox.queue.length :=
    (h.handled_prefix_flushed hs h₀).length_le
  have houtbox := Sender.step_outbox hc h.client h.clientWhole op.property
  obtain rfl := Option.some.inj hstep
  simp only [BatchQueues.step, queues, houtbox, (Outbox.step_drop hle op.val).1]

/-- A pass of the server's `Recv` takes the batches off the queue that it completes. -/
theorem serverRecv_queues (hc : P.clientKernel.AcceptsAll) (hs : P.serverKernel.AcceptsAll)
    (h₀ : s₀.Opened) (h : Inv P s₀ s) {n : ℕ} (hstep : s.step P (.serverRecv n) = some s') :
    ∃ k, Runs.run (BatchQueues.step P) s.queues (List.replicate k .serve) = some s'.queues ∧
      s'.serverIn.env.handled.length = s.serverIn.env.handled.length + k ∧
      trace (BatchQueues.step P) BatchQueues.shows s.queues (List.replicate k .serve) =
        s.shows P (.serverRecv n) := by
  have hinv' := step_inv hc hs h₀ s _ s' h hstep
  have hshows : s.shows P (.serverRecv n) =
      (s'.serverIn.env.handled.drop s.serverIn.env.handled.length).map .handled := by
    rw [shows, hstep]
    rfl
  obtain ⟨⟨c, d⟩, hd, hs'⟩ := Option.map_eq_some_iff.mp hstep
  obtain ⟨-, -, hread⟩ := Direction.recv_cases hd
  have hclient : s'.client = s.client := by rw [← hs']
  have hclientIn : s'.clientIn = s.clientIn := by rw [← hs']
  -- what was handled is a function of the bytes read
  obtain ⟨new, hnew⟩ : s.serverIn.env.handled <+: s'.serverIn.env.handled := by
    rw [(h.server hs h₀).1.handled, (hinv'.server hs h₀).1.handled]
    apply parse_calls_prefix
    rw [clientStream, clientStream, hclient, ← hs', hread]
    exact List.take_prefix_take_left (Nat.le_add_right _ _)
  obtain ⟨rest, hrest⟩ := hinv'.handled_prefix_flushed hs h₀
  have hqueue : s.queues.outbox.queue = new ++ rest := by
    show s.client.flushed.drop _ = _
    rw [← hclient, ← hrest, ← hnew, List.append_assoc, List.drop_left]
  obtain ⟨hrun, htrace⟩ := BatchQueues.run_serves (P := P) hqueue
  refine ⟨new.length, hrun.trans ?_, by rw [← hnew, List.length_append], ?_⟩
  · have hle := (h.received_prefix_flushed hs h₀).length_le
    have hdrop : s.client.flushed.drop s'.serverIn.env.handled.length = rest := by
      rw [← hclient, ← hrest, List.drop_left]
    have hflushed : s'.serverIn.env.sender.flushed =
        s.serverIn.env.sender.flushed ++ answers P s.serverIn.env.handled new := by
      rw [hinv'.flushed_answers hs h₀, h.flushed_answers hs h₀, ← hnew, answers_append,
        List.nil_append]
    simp only [queues, Sender.outbox, Outbox.drop, hdrop, hflushed, hclientIn,
      List.drop_append_of_le_length hle, hnew, hclient]
  · rw [htrace, hshows, ← hnew, List.drop_left]

/-- A pass of the client's `Recv` takes the answers off the queue that it completes, and
runs their callbacks. -/
theorem clientRecv_queues (hc : P.clientKernel.AcceptsAll) (hs : P.serverKernel.AcceptsAll)
    (h₀ : s₀.Opened) (h : Inv P s₀ s) {n : ℕ} (hstep : s.step P (.clientRecv n) = some s') :
    ∃ k, Runs.run (BatchQueues.step P) s.queues (List.replicate k .receive) = some s'.queues ∧
      s'.clientIn.env.length = s.clientIn.env.length + k ∧
      trace (BatchQueues.step P) BatchQueues.shows s.queues (List.replicate k .receive) =
        s.shows P (.clientRecv n) := by
  have hinv' := step_inv hc hs h₀ s _ s' h hstep
  have hshows : s.shows P (.clientRecv n) =
      (s'.clientIn.env.drop s.clientIn.env.length).map .received := by
    rw [shows, hstep]
    rfl
  obtain ⟨⟨c, d⟩, hd, hs'⟩ := Option.map_eq_some_iff.mp hstep
  obtain ⟨-, -, hread⟩ := Direction.recv_cases hd
  have hserverIn : s'.serverIn = s.serverIn := by rw [← hs']; rfl
  have hclient : s'.client = s.client.run P.clientKernel
      (completions P s.clientIn.env (s'.clientIn.env.drop s.clientIn.env.length)) := by
    rw [← hs']
    rfl
  obtain ⟨new, hnew⟩ : s.clientIn.env <+: s'.clientIn.env := by
    rw [h.received_calls hs h₀, hinv'.received_calls hs h₀]
    apply parse_calls_prefix
    rw [serverStream, serverStream, hserverIn, ← hs', hread]
    exact List.take_prefix_take_left (Nat.le_add_right _ _)
  obtain ⟨rest, hrest⟩ := hinv'.received_prefix_flushed hs h₀
  have hqueue : s.queues.toClient = new ++ rest := by
    show s.serverIn.env.sender.flushed.drop _ = _
    rw [← hserverIn, ← hrest, ← hnew, List.append_assoc, List.drop_left]
  obtain ⟨hrun, htrace⟩ := BatchQueues.run_receives (P := P) hqueue
  refine ⟨new.length, hrun.trans ?_, by rw [← hnew, List.length_append], ?_⟩
  · have hle : s.serverIn.env.handled.length ≤ s.client.outbox.queue.length :=
      (h.handled_prefix_flushed hs h₀).length_le
    have houtbox := Sender.run_outbox hc h.client h.clientWhole
      (completions_noWrap P s.clientIn.env new)
    have hdrop : s.serverIn.env.sender.flushed.drop s'.clientIn.env.length = rest := by
      rw [← hserverIn, ← hrest, List.drop_left]
    rw [← hnew, List.drop_left] at hclient
    simp only [queues, hserverIn, hdrop, (Outbox.run_drop hle _).1, hclient, houtbox, hnew]
  · rw [htrace, hshows, ← hnew, List.drop_left]

/-- Each step of the session is some steps of the queues. -/
theorem step_queues (hc : P.clientKernel.AcceptsAll) (hs : P.serverKernel.AcceptsAll)
    (h₀ : s₀.Opened) (h : Inv P s₀ s) {a : Action} (hstep : s.step P a = some s') :
    ∃ bs, Runs.run (BatchQueues.step P) s.queues bs = some s'.queues ∧
      trace (BatchQueues.step P) BatchQueues.shows s.queues bs = s.shows P a := by
  cases a with
  | client op =>
    have hqueues := client_queues hc hs h₀ h hstep
    refine ⟨[.client op], ?_, rfl⟩
    rw [Runs.run_cons, hqueues, Option.bind_some, Runs.run_nil]
  | deliverToServer n =>
    -- what is in a socket is not handled yet
    obtain ⟨d, -, rfl⟩ := Option.map_eq_some_iff.mp hstep
    exact ⟨[], rfl, rfl⟩
  | deliverToClient n =>
    obtain ⟨d, -, rfl⟩ := Option.map_eq_some_iff.mp hstep
    exact ⟨[], rfl, rfl⟩
  | serverRecv n =>
    obtain ⟨k, hrun, -, htrace⟩ := serverRecv_queues hc hs h₀ h hstep
    exact ⟨_, hrun, htrace⟩
  | clientRecv n =>
    obtain ⟨k, hrun, -, htrace⟩ := clientRecv_queues hc hs h₀ h hstep
    exact ⟨_, hrun, htrace⟩

theorem simulation (hc : P.clientKernel.AcceptsAll) (hs : P.serverKernel.AcceptsAll)
    (h₀ : s₀.Opened) :
    Simulation (step P) (BatchQueues.step P) (shows P) BatchQueues.shows
      fun s q => Inv P s₀ s ∧ q = s.queues := by
  rintro s a s' q ⟨hinv, rfl⟩ hstep
  obtain ⟨bs, hrun, htrace⟩ := step_queues hc hs h₀ hinv hstep
  exact ⟨bs, s'.queues, hrun, ⟨step_inv hc hs h₀ s a s' hinv hstep, rfl⟩, htrace⟩

end Refines

/-- The session refines the two queues: over sockets that take all that is sent, every run
of a session has a run of the queues that shows the same calls and the same batches handled
and received, in the same order, and that ends with what the session has flushed and not
handled yet. -/
theorem refines_queues {P : Peers} (hc : P.clientKernel.AcceptsAll)
    (hs : P.serverKernel.AcceptsAll) {s₀ s : Session} (h₀ : s₀.Opened) {as : List Action}
    (h : Runs.run (step P) s₀ as = some s) :
    ∃ bs, Runs.run (BatchQueues.step P) BatchQueues.init bs = some s.queues ∧
      trace (BatchQueues.step P) BatchQueues.shows BatchQueues.init bs =
        trace (step P) (shows P) s₀ as := by
  obtain ⟨bs, q, hrun, ⟨-, rfl⟩, htrace⟩ :=
    (simulation hc hs h₀).run ⟨h₀.inv, h₀.queues.symm⟩ h
  exact ⟨bs, hrun, htrace⟩

/-- The session of one command and its reply. -/
theorem refines_queues_answered :
    ∃ bs, Runs.run (BatchQueues.step answering) BatchQueues.init bs = some answered.queues ∧
      trace (BatchQueues.step answering) BatchQueues.shows BatchQueues.init bs =
        trace (step answering) (shows answering) new roundTrip :=
  refines_queues (fun _ _ => rfl) (fun _ _ => rfl) new_opened
    (Option.some_get roundTrip_runs).symm

end Session

end WebGpuDD
