import WebGpuDD.Blocking
import WebGpuDD.QueueRuns

/-!
# What blocking sockets can show

The session over blocking sockets takes its steps under more conditions than one whose
sockets take everything, so it too does nothing that the queues do not allow. How much the
queues allow depends on the room: whatever they show is shown over sockets that hold all of
it, by a session in which everything arrives before anything else is done.
-/

namespace WebGpuDD

open LittleEndian CommandTransport Reference Runs

/-- What has arrived later is no matter to `recv(2)`. -/
theorem Direction.recv_arrived {stream : List Byte} {n m : ℕ} {d d' : Direction} {c : Chunk}
    (h : d.recv stream n = some (c, d')) (hm : d.arrived ≤ m) :
    Direction.recv stream n ⟨m, d.read⟩ = some (c, ⟨m, d'.read⟩) := by
  unfold recv at h ⊢
  dsimp only at h ⊢
  split at h
  · rename_i hn
    obtain ⟨rfl, rfl⟩ := Prod.mk.inj (Option.some.inj h)
    rw [dif_pos ⟨hn.1.trans hm, hn.2⟩]
  · cases h

/-- Bytes arrive. -/
def Action.Arrives : Action → Prop
  | .deliverToServer _ | .deliverToClient _ => True
  | _ => False

namespace Session

/-- The session with everything arrived that was sent. -/
def allArrived (s : Session) : Session :=
  { s with
    c2s := ⟨s.clientStream.length, s.c2s.read⟩
    s2c := ⟨s.serverStream.length, s.s2c.read⟩ }

section Arrived

variable {P : Peers} {s₀ s s' : Session}

theorem allArrived_clientStream (s : Session) :
    s.allArrived.clientStream = s.clientStream := rfl

theorem allArrived_serverStream (s : Session) :
    s.allArrived.serverStream = s.serverStream := rfl

theorem allArrived_queues (s : Session) : s.allArrived.queues = s.queues := rfl

theorem Opened.allArrived (h : s₀.Opened) : s₀.allArrived = s₀ := by
  obtain ⟨_, -, hclient⟩ := h.client.conn
  obtain ⟨_, -, hserver⟩ := h.server.sender.conn
  have hc2s : (⟨s₀.clientStream.length, s₀.c2s.read⟩ : Direction) = s₀.c2s := by
    rw [clientStream, hclient, h.c2s]
    rfl
  have hs2c : (⟨s₀.serverStream.length, s₀.s2c.read⟩ : Direction) = s₀.s2c := by
    rw [serverStream, hserver, h.s2c]
    rfl
  rw [Session.allArrived, hc2s, hs2c]

theorem run_streams (hc : P.clientKernel.AcceptsAll) (hs : P.serverKernel.AcceptsAll)
    (h₀ : s₀.Opened) (h : Inv P s₀ s) {as : List Action}
    (hrun : Runs.run (step P) s as = some s') :
    s.clientStream <+: s'.clientStream ∧ s.serverStream <+: s'.serverStream := by
  induction as generalizing s with
  | nil =>
    obtain rfl := Option.some.inj hrun
    exact ⟨List.prefix_refl _, List.prefix_refl _⟩
  | cons a as ih =>
    rw [Runs.run_cons] at hrun
    obtain ⟨t, ht, hrest⟩ := Option.bind_eq_some_iff.mp hrun
    obtain ⟨hclient, hserver⟩ := step_streams hc hs h₀ h ht
    obtain ⟨hclient', hserver'⟩ := ih (step_inv hc hs h₀ s a t h ht) hrest
    exact ⟨hclient.trans hclient', hserver.trans hserver'⟩

/-- `t` is where `s` comes to with everything arrived before it takes the step to `s'`. -/
structure Ahead (s s' t : Session) : Prop where
  same : t.allArrived = s'.allArrived
  c2s : t.c2s.arrived = s.clientStream.length
  s2c : t.s2c.arrived = s.serverStream.length

theorem serverRecv_ahead {n : ℕ} (h : Inv P s₀ s) (hstep : s.step P (.serverRecv n) = some s') :
    ∃ t, s.allArrived.step P (.serverRecv n) = some t ∧ Ahead s s' t ∧
      s.allArrived.shows P (.serverRecv n) = s.shows P (.serverRecv n) := by
  obtain ⟨⟨c, d⟩, hd, rfl⟩ := Option.map_eq_some_iff.mp hstep
  have hrecv := Direction.recv_arrived hd h.c2s.arrived_le
  have hahead : s.allArrived.step P (.serverRecv n) = some { s.allArrived with
      serverIn := s.serverIn.step (DDWGPUServer.handler P) (.data c)
      c2s := ⟨s.clientStream.length, d.read⟩ } := congrArg (Option.map _) hrecv
  refine ⟨_, hahead, ⟨rfl, rfl, rfl⟩, ?_⟩
  rw [shows, shows, hahead, hstep]
  rfl

theorem clientRecv_ahead {n : ℕ} (h : Inv P s₀ s) (hstep : s.step P (.clientRecv n) = some s') :
    ∃ t, s.allArrived.step P (.clientRecv n) = some t ∧ Ahead s s' t ∧
      s.allArrived.shows P (.clientRecv n) = s.shows P (.clientRecv n) := by
  obtain ⟨⟨c, d⟩, hd, rfl⟩ := Option.map_eq_some_iff.mp hstep
  have hrecv := Direction.recv_arrived hd h.s2c.arrived_le
  have hahead : s.allArrived.step P (.clientRecv n) = some { s.allArrived.clientPass P c with
      s2c := ⟨s.serverStream.length, d.read⟩ } := congrArg (Option.map _) hrecv
  refine ⟨_, hahead, ⟨rfl, rfl, rfl⟩, ?_⟩
  rw [shows, shows, hahead, hstep]
  rfl

/-- Where everything has arrived, nothing is left to arrive, and every other step is taken as
before. -/
theorem step_allArrived (h : Inv P s₀ s) {a : Action} (hstep : s.step P a = some s') :
    s'.allArrived = s.allArrived ∧ s.shows P a = [] ∨
      ¬ a.Arrives ∧ ∃ t, s.allArrived.step P a = some t ∧ Ahead s s' t ∧
        s.allArrived.shows P a = s.shows P a := by
  cases a with
  | client op =>
    obtain rfl := Option.some.inj hstep
    exact .inr ⟨id, _, rfl, ⟨rfl, rfl, rfl⟩, rfl⟩
  | deliverToServer n =>
    obtain ⟨d, hd, rfl⟩ := Option.map_eq_some_iff.mp hstep
    obtain ⟨-, -, rfl⟩ := Direction.deliver_cases hd
    exact .inl ⟨rfl, rfl⟩
  | deliverToClient n =>
    obtain ⟨d, hd, rfl⟩ := Option.map_eq_some_iff.mp hstep
    obtain ⟨-, -, rfl⟩ := Direction.deliver_cases hd
    exact .inl ⟨rfl, rfl⟩
  | serverRecv n => exact .inr ⟨id, serverRecv_ahead h hstep⟩
  | clientRecv n => exact .inr ⟨id, clientRecv_ahead h hstep⟩

end Arrived

end Session

namespace Duplex

/-- What an action shows. -/
def shows (P : Peers) (d : Duplex) (a : Action) : List BatchQueues.Event := d.session.shows P a

/-- Without its sockets it is a session. -/
theorem session_simulation (P : Peers) (caps : Capacities) :
    Simulation (step P caps) (Session.step P) (shows P) (Session.shows P)
      fun d s => d.session = s := by
  rintro d a d' s rfl hstep
  obtain ⟨-, s', hs', rfl⟩ := step_cases hstep
  obtain ⟨as, hrun, htrace⟩ := exists_run_of_step (Session.shows P) hs'
  exact ⟨as, s', hrun, rfl, htrace⟩

section Ahead

variable {P : Peers} {caps : Capacities} {d₀ d : Duplex} {s₀ s s' : Session} {a : Action}

/-- Where there is room for everything that was sent, all of it arrives. -/
theorem arrive_toServer (harrived : d.session.c2s.arrived ≤ d.session.clientStream.length)
    (hroom : d.session.clientStream.length ≤ caps.c2s) :
    ∃ as, run (step P caps) d as = some { d with session := { d.session with
        c2s := ⟨d.session.clientStream.length, d.session.c2s.read⟩ } } ∧
      trace (step P caps) (shows P) d as = [] := by
  rcases Nat.eq_or_lt_of_le harrived with heq | hlt
  · refine ⟨[], ?_, rfl⟩
    rw [Runs.run_nil, ← heq]
  · have hsession : d.session.step P
        (.deliverToServer (d.session.clientStream.length - d.session.c2s.arrived)) =
          some { d.session with c2s := ⟨d.session.clientStream.length, d.session.c2s.read⟩ } := by
      rw [Session.step, Direction.deliver_upTo hlt (le_refl _), Option.map_some]
    have hallowed : d.Allowed caps
        (.deliverToServer (d.session.clientStream.length - d.session.c2s.arrived)) := by
      simp only [Allowed]
      omega
    exact exists_run_of_step (shows P) (step_of_allowed hallowed hsession)

theorem arrive_toClient (harrived : d.session.s2c.arrived ≤ d.session.serverStream.length)
    (hroom : d.session.serverStream.length ≤ caps.s2c) :
    ∃ as, run (step P caps) d as = some { d with session := { d.session with
        s2c := ⟨d.session.serverStream.length, d.session.s2c.read⟩ } } ∧
      trace (step P caps) (shows P) d as = [] := by
  rcases Nat.eq_or_lt_of_le harrived with heq | hlt
  · refine ⟨[], ?_, rfl⟩
    rw [Runs.run_nil, ← heq]
  · have hsession : d.session.step P
        (.deliverToClient (d.session.serverStream.length - d.session.s2c.arrived)) =
          some { d.session with s2c := ⟨d.session.serverStream.length, d.session.s2c.read⟩ } := by
      rw [Session.step, Direction.deliver_upTo hlt (le_refl _), Option.map_some]
    have hallowed : d.Allowed caps
        (.deliverToClient (d.session.serverStream.length - d.session.s2c.arrived)) := by
      simp only [Allowed]
      omega
    exact exists_run_of_step (shows P) (step_of_allowed hallowed hsession)

theorem exists_allArrived (hclient : d.session.c2s.arrived ≤ d.session.clientStream.length)
    (hserver : d.session.s2c.arrived ≤ d.session.serverStream.length)
    (hc2s : d.session.clientStream.length ≤ caps.c2s)
    (hs2c : d.session.serverStream.length ≤ caps.s2c) :
    ∃ as, run (step P caps) d as = some ⟨d.session.allArrived, d.clientSent⟩ ∧
      trace (step P caps) (shows P) d as = [] := by
  obtain ⟨as, hrun, htrace⟩ := arrive_toServer (P := P) hclient hc2s
  obtain ⟨bs, hrun', htrace'⟩ := arrive_toClient (P := P)
    (d := { d with session := { d.session with
      c2s := ⟨d.session.clientStream.length, d.session.c2s.read⟩ } }) hserver hs2c
  refine ⟨as ++ bs, ?_, ?_⟩
  · rw [Runs.run_append, hrun, Option.bind_some, hrun']
    rfl
  · rw [trace_append hrun, htrace, htrace', List.append_nil]

/-- No receive thread is inside `Send` where everything has arrived. -/
theorem allowed_of_allArrived (caps : Capacities) (hd : d.session = s.allArrived)
    (hsent : d.clientSent ≤ s.clientStream.length) (ha : ¬ a.Arrives) : d.Allowed caps a := by
  cases a with
  | client op => trivial
  | deliverToServer n => exact absurd trivial ha
  | deliverToClient n => exact absurd trivial ha
  | serverRecv n =>
    rw [Allowed, hd]
    exact le_refl _
  | clientRecv n =>
    rw [Allowed, hd]
    exact hsent

/-- A session in which everything has arrived takes the step of one in which it has not. -/
theorem step_ahead (caps : Capacities) (h : Session.Inv P s₀ s) (hd : d.session = s.allArrived)
    (hsent : d.clientSent ≤ s.clientStream.length) (hstep : s.step P a = some s')
    (hgrow : s.clientStream <+: s'.clientStream) :
    ∃ as e, run (step P caps) d as = some e ∧ Session.Ahead s s' e.session ∧
      e.clientSent ≤ s'.clientStream.length ∧
      trace (step P caps) (shows P) d as = s.shows P a := by
  obtain ⟨hsame, hshows⟩ | ⟨ha, t, ht, hahead, hshows⟩ := Session.step_allArrived h hstep
  · refine ⟨[], d, rfl, ⟨?_, ?_, ?_⟩, hsent.trans hgrow.length_le, hshows.symm⟩
    all_goals rw [hd]
    · exact hsame.symm
    · rfl
    · rfl
  · have hallowed := allowed_of_allArrived caps hd hsent ha
    rw [← hd] at ht hshows
    obtain ⟨as, hrun, htrace⟩ := exists_run_of_step (shows P) (step_of_allowed hallowed ht)
    have hstream := congrArg Session.clientStream hahead.same
    rw [Session.allArrived_clientStream, Session.allArrived_clientStream] at hstream
    refine ⟨as, _, hrun, hahead, ?_, htrace.trans hshows⟩
    rw [← hstream]
    apply sentBehind_le
    · rw [hd]
      exact hsent
    · rw [hd, hstream]
      exact hgrow

/-- So it takes every run that it has room for. -/
theorem run_ahead (hc : P.clientKernel.AcceptsAll) (hs : P.serverKernel.AcceptsAll)
    (h₀ : s₀.Opened) (h : Session.Inv P s₀ s) (hd : d.session = s.allArrived)
    (hsent : d.clientSent ≤ s.clientStream.length) {as : List Action}
    (hrun : run (Session.step P) s as = some s')
    (hc2s : s'.clientStream.length ≤ caps.c2s) (hs2c : s'.serverStream.length ≤ caps.s2c) :
    ∃ bs e, run (step P caps) d bs = some e ∧ e.session = s'.allArrived ∧
      trace (step P caps) (shows P) d bs = trace (Session.step P) (Session.shows P) s as := by
  induction as generalizing s d with
  | nil =>
    obtain rfl := Option.some.inj hrun
    exact ⟨[], d, rfl, hd, rfl⟩
  | cons a as ih =>
    rw [Runs.run_cons] at hrun
    obtain ⟨t, ht, hrest⟩ := Option.bind_eq_some_iff.mp hrun
    have hinv := Session.step_inv hc hs h₀ s a t h ht
    obtain ⟨hgrow, hgrow'⟩ := Session.step_streams hc hs h₀ h ht
    obtain ⟨hlater, hlater'⟩ := Session.run_streams hc hs h₀ hinv hrest
    obtain ⟨bs, e, hbs, hahead, hesent, htrace⟩ := step_ahead caps h hd hsent ht hgrow
    -- the streams of `e` are those of `t`
    have hstream := congrArg Session.clientStream hahead.same
    have hstream' := congrArg Session.serverStream hahead.same
    rw [Session.allArrived_clientStream, Session.allArrived_clientStream] at hstream
    rw [Session.allArrived_serverStream, Session.allArrived_serverStream] at hstream'
    obtain ⟨cs, hcs, hquiet⟩ := exists_allArrived (P := P) (d := e)
      (hahead.c2s.trans_le (hstream ▸ hgrow.length_le))
      (hahead.s2c.trans_le (hstream' ▸ hgrow'.length_le))
      ((hstream ▸ hlater.length_le).trans hc2s) ((hstream' ▸ hlater'.length_le).trans hs2c)
    obtain ⟨ds, f, hds, hf, htrace'⟩ := ih hinv (d := ⟨e.session.allArrived, e.clientSent⟩)
      hahead.same hesent hrest
    refine ⟨bs ++ (cs ++ ds), f, ?_, hf, ?_⟩
    · rw [Runs.run_append, hbs, Option.bind_some, Runs.run_append, hcs, Option.bind_some, hds]
    · rw [trace_append hbs, trace_append hcs, htrace, hquiet, htrace', List.nil_append,
        trace_cons ht]

end Ahead

/-- What blocking sockets can show: over sockets of any capacity every run of the session has
a run of the queues that shows the same calls and batches in the same order and ends with the
same queues; and every run of the queues has such a run of the session over all sockets that
are large enough. -/
theorem blocking_queues {P : Peers} (hc : P.clientKernel.AcceptsAll)
    (hs : P.serverKernel.AcceptsAll) {d₀ : Duplex} (h₀ : d₀.Opened) :
    (∀ caps as d, run (step P caps) d₀ as = some d →
      ∃ bs, run (BatchQueues.step P) BatchQueues.init bs = some d.session.queues ∧
        trace (BatchQueues.step P) BatchQueues.shows BatchQueues.init bs =
          trace (step P caps) (shows P) d₀ as) ∧
    (∀ bs q, run (BatchQueues.step P) BatchQueues.init bs = some q →
      ∃ n, ∀ caps : Capacities, n ≤ caps.c2s → n ≤ caps.s2c →
        ∃ as d, run (step P caps) d₀ as = some d ∧ d.session.queues = q ∧
          trace (step P caps) (shows P) d₀ as =
            trace (BatchQueues.step P) BatchQueues.shows BatchQueues.init bs) := by
  constructor
  · intro caps as d hrun
    obtain ⟨as', s, hrun', rfl, htrace⟩ := (session_simulation P caps).run rfl hrun
    obtain ⟨bs, q, hqueues, ⟨-, rfl⟩, htrace'⟩ :=
      (Session.simulation hc hs h₀.session).run ⟨h₀.session.inv, h₀.session.queues.symm⟩ hrun'
    exact ⟨bs, hqueues, htrace'.trans htrace⟩
  · intro bs q hqueues
    obtain ⟨as, s, hrun, ⟨-, rfl⟩, htrace⟩ :=
      (Session.queues_simulation hc hs h₀.session).run
        ⟨h₀.session.inv, h₀.session.queues⟩ hqueues
    refine ⟨max s.clientStream.length s.serverStream.length, fun caps hc2s hs2c => ?_⟩
    have hsent : d₀.clientSent ≤ d₀.session.clientStream.length := by
      rw [h₀.clientSent]
      exact Nat.zero_le _
    obtain ⟨cs, d, hcs, hd, htrace'⟩ := run_ahead hc hs h₀.session h₀.session.inv
      h₀.session.allArrived.symm hsent hrun ((le_max_left _ _).trans hc2s)
      ((le_max_right _ _).trans hs2c)
    refine ⟨cs, d, hcs, ?_, htrace'.trans htrace⟩
    rw [hd, Session.allArrived_queues]

/-- One command and its answer, over large enough sockets. -/
theorem blocking_queues_onceAround :
    ∃ n, ∀ caps : Capacities, n ≤ caps.c2s → n ≤ caps.s2c →
      ∃ as d, run (step Session.answering caps) new as = some d ∧
        d.session.queues = (run (BatchQueues.step Session.answering) BatchQueues.init
          Session.onceAround).get Session.onceAround_runs ∧
        trace (step Session.answering caps) (shows Session.answering) new as =
          trace (BatchQueues.step Session.answering) BatchQueues.shows BatchQueues.init
            Session.onceAround :=
  (blocking_queues (fun _ _ => rfl) (fun _ _ => rfl) new_opened).2 Session.onceAround _
    (Option.some_get Session.onceAround_runs).symm

end Duplex

end WebGpuDD
