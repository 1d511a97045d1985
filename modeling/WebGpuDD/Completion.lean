import WebGpuDD.Blocking
import WebGpuDD.QueueRuns
import WebGpuDD.Lib.Progress

/-!
# Sessions that are left alone

What happens over blocking sockets when the application does nothing more: bytes arrive and
the receive threads take their passes. If the callbacks fall silent at some point this comes
to an end, and the only ends are that everything is read or that the receive threads wait
for each other.
-/

namespace WebGpuDD

open LittleEndian CommandTransport Reference Runs

namespace Direction

variable {stream : List Byte} {n : ℕ} {d d' : Direction} {c : Chunk}

/-- What is still to arrive and what is still to be read, of `sent` bytes. -/
def left (sent : ℕ) (d : Direction) : ℕ := (sent - d.arrived) + (sent - d.read)

theorem deliver_left (h : d.deliver stream n = some d') :
    d'.left stream.length < d.left stream.length := by
  obtain ⟨hpos, hle, rfl⟩ := deliver_cases h
  simp only [left]
  omega

theorem recv_pos (h : d.recv stream n = some (c, d')) : 0 < n := by
  obtain ⟨-, hbytes, -⟩ := recv_cases h
  have hne := c.nonempty
  by_contra hzero
  rw [hbytes, Nat.eq_zero_of_not_pos hzero, List.take_zero] at hne
  exact hne rfl

theorem recv_left (h : d.recv stream n = some (c, d')) (hsent : d.arrived ≤ stream.length) :
    d'.left stream.length < d.left stream.length := by
  have hpos := recv_pos h
  obtain ⟨hle, -, rfl⟩ := recv_cases h
  simp only [left]
  omega

end Direction

/-- What happens without the application. -/
def Action.Own : Action → Prop
  | .client _ => False
  | _ => True

/-- Callbacks do nothing any more once the client has been given `n` batches. -/
def Peers.SilentFrom (n : ℕ) (P : Peers) : Prop :=
  ∀ history batch, n ≤ history.length → P.callbacks history batch = []

theorem Session.completions_silent {P : Peers} {n : ℕ} (h : P.SilentFrom n)
    {history : List (List Byte)} (hn : n ≤ history.length) (bs : List (List Byte)) :
    completions P history bs = [] := by
  induction bs generalizing history with
  | nil => rfl
  | cons b bs ih =>
    have hlonger : n ≤ (history ++ [b]).length := by
      rw [List.length_append]
      omega
    have hlater := ih hlonger
    simp only [completions] at hlater ⊢
    rw [withHistory, h history b hn, List.flatten_cons, List.nil_append]
    exact hlater

namespace Duplex

/-- Everything that was sent is read. -/
def Drained (d : Duplex) : Prop :=
  d.session.c2s.read = d.session.clientStream.length ∧
    d.session.s2c.read = d.session.serverStream.length

section Rest

variable {P : Peers} {caps : Capacities} {s₀ : Session} {d d' : Duplex} {a : Action} {n : ℕ}

/-- Where bytes wait and find room, some arrive. -/
theorem deliverToServer_isSome (hsent : d.session.c2s.arrived < d.session.clientStream.length)
    (hroom : d.session.c2s.arrived < d.session.c2s.read + caps.c2s) :
    (d.step P caps (.deliverToServer 1)).isSome := by
  have hallowed : d.Allowed caps (.deliverToServer 1) := hroom
  rw [step, if_pos hallowed, Session.step, Direction.deliver, if_pos ⟨Nat.one_pos, hsent⟩]
  rfl

theorem deliverToClient_isSome (hsent : d.session.s2c.arrived < d.session.serverStream.length)
    (hroom : d.session.s2c.arrived < d.session.s2c.read + caps.s2c) :
    (d.step P caps (.deliverToClient 1)).isSome := by
  have hallowed : d.Allowed caps (.deliverToClient 1) := hroom
  rw [step, if_pos hallowed, Session.step, Direction.deliver, if_pos ⟨Nat.one_pos, hsent⟩]
  rfl

/-- A receive thread that is not inside `Send` reads what has arrived. -/
theorem exists_serverRecv (h : Inv P caps s₀ d)
    (hread : d.session.c2s.read < d.session.c2s.arrived)
    (hout : d.session.serverStream.length ≤ d.session.s2c.arrived) :
    ∃ n, (d.step P caps (.serverRecv n)).isSome := by
  obtain ⟨n, c, -, -, hrecv⟩ :=
    Direction.recv_towards hread (le_refl _) h.session.c2s.arrived_le
  have hallowed : d.Allowed caps (.serverRecv n) := hout
  refine ⟨n, ?_⟩
  rw [step, if_pos hallowed, Session.step, hrecv]
  rfl

theorem exists_clientRecv (h : Inv P caps s₀ d)
    (hread : d.session.s2c.read < d.session.s2c.arrived)
    (hout : d.clientSent ≤ d.session.c2s.arrived) :
    ∃ n, (d.step P caps (.clientRecv n)).isSome := by
  obtain ⟨n, c, -, -, hrecv⟩ :=
    Direction.recv_towards hread (le_refl _) h.session.s2c.arrived_le
  have hallowed : d.Allowed caps (.clientRecv n) := hout
  refine ⟨n, ?_⟩
  rw [step, if_pos hallowed, Session.step, hrecv]
  rfl

theorem not_isSome_of_atRest (h : AtRest (step P caps) Action.Own d) (a : Action) (ha : a.Own) :
    ¬ (d.step P caps a).isSome := by
  rw [h a ha]
  exact Bool.false_ne_true

/-- Where nothing happens any more, everything is read or both threads wait. -/
theorem drained_or_mutualWait (hc2s : 0 < caps.c2s) (hs2c : 0 < caps.s2c)
    (h : Inv P caps s₀ d) (hrest : AtRest (step P caps) Action.Own d) :
    d.Drained ∨ d.MutualWait caps := by
  have hno := not_isSome_of_atRest hrest
  have hread := h.session.c2s.read_le
  have hread' := h.session.s2c.read_le
  have hlen := h.session.c2s.arrived_le
  have hlen' := h.session.s2c.arrived_le
  have hsent := h.clientSent
  -- each direction is full, or all of it has arrived
  have hfull : d.session.c2s.arrived < d.session.clientStream.length →
      d.session.c2s.read + caps.c2s ≤ d.session.c2s.arrived := by
    intro hlt
    by_contra hroom
    exact hno (.deliverToServer 1) trivial (deliverToServer_isSome hlt (Nat.lt_of_not_le hroom))
  have hfull' : d.session.s2c.arrived < d.session.serverStream.length →
      d.session.s2c.read + caps.s2c ≤ d.session.s2c.arrived := by
    intro hlt
    by_contra hroom
    exact hno (.deliverToClient 1) trivial (deliverToClient_isSome hlt (Nat.lt_of_not_le hroom))
  -- each thread is inside `Send`, or has read all that has arrived
  have hserver : d.session.serverStream.length ≤ d.session.s2c.arrived →
      d.session.c2s.arrived ≤ d.session.c2s.read := by
    intro hout
    by_contra hlt
    obtain ⟨n, hsome⟩ := exists_serverRecv h (Nat.lt_of_not_le hlt) hout
    exact hno (.serverRecv n) trivial hsome
  have hclient : d.clientSent ≤ d.session.c2s.arrived →
      d.session.s2c.arrived ≤ d.session.s2c.read := by
    intro hout
    by_contra hlt
    obtain ⟨n, hsome⟩ := exists_clientRecv h (Nat.lt_of_not_le hlt) hout
    exact hno (.clientRecv n) trivial hsome
  unfold Drained MutualWait ClientWaiting ServerWaiting Direction.Waiting
  omega

/-- What an action of its own needs. -/
theorem own_cases (h : d.step P caps a = some d') (ha : a.Own) :
    (d.session.c2s.arrived < d.session.clientStream.length ∧
        d.session.c2s.arrived < d.session.c2s.read + caps.c2s) ∨
      (d.session.s2c.arrived < d.session.serverStream.length ∧
        d.session.s2c.arrived < d.session.s2c.read + caps.s2c) ∨
      (d.session.c2s.read < d.session.c2s.arrived ∧
        d.session.serverStream.length ≤ d.session.s2c.arrived) ∨
      (d.session.s2c.read < d.session.s2c.arrived ∧ d.clientSent ≤ d.session.c2s.arrived) := by
  obtain ⟨hallowed, s, hsession, -⟩ := step_cases h
  cases a with
  | client op => exact ha.elim
  | deliverToServer n =>
    obtain ⟨e, he, -⟩ := Option.map_eq_some_iff.mp hsession
    obtain ⟨hpos, hle, -⟩ := Direction.deliver_cases he
    simp only [Allowed] at hallowed
    omega
  | deliverToClient n =>
    obtain ⟨e, he, -⟩ := Option.map_eq_some_iff.mp hsession
    obtain ⟨hpos, hle, -⟩ := Direction.deliver_cases he
    simp only [Allowed] at hallowed
    omega
  | serverRecv n =>
    obtain ⟨⟨c, e⟩, he, -⟩ := Option.map_eq_some_iff.mp hsession
    have hpos := Direction.recv_pos he
    obtain ⟨hle, -, -⟩ := Direction.recv_cases he
    simp only [Allowed] at hallowed
    omega
  | clientRecv n =>
    obtain ⟨⟨c, e⟩, he, -⟩ := Option.map_eq_some_iff.mp hsession
    have hpos := Direction.recv_pos he
    obtain ⟨hle, -, -⟩ := Direction.recv_cases he
    simp only [Allowed] at hallowed
    omega

theorem atRest_of_drained_or_mutualWait (h : Inv P caps s₀ d)
    (hend : d.Drained ∨ d.MutualWait caps) : AtRest (step P caps) Action.Own d := by
  intro a ha
  by_contra hsome
  obtain ⟨d', hd'⟩ := Option.ne_none_iff_exists'.mp hsome
  have hcases := own_cases hd' ha
  have hread := h.session.c2s.read_le
  have hread' := h.session.s2c.read_le
  have hlen := h.session.c2s.arrived_le
  have hlen' := h.session.s2c.arrived_le
  unfold Drained MutualWait ClientWaiting ServerWaiting Direction.Waiting at hend
  omega

end Rest

/-- Over sockets that hold anything at all, and whatever the callbacks do: a session that is
left alone comes to rest in exactly two kinds of states, those in which everything that was
sent is read and those in which the receive threads wait for each other. -/
theorem atRest_iff {P : Peers} (hc : P.clientKernel.AcceptsAll) (hs : P.serverKernel.AcceptsAll)
    {caps : Capacities} (hc2s : 0 < caps.c2s) (hs2c : 0 < caps.s2c) {d₀ d : Duplex}
    (h₀ : d₀.Opened) (h : Reachable (step P caps) d₀ d) :
    AtRest (step P caps) Action.Own d ↔ d.Drained ∨ d.MutualWait caps := by
  have hinv := reachable_inv hc hs h₀ h
  exact ⟨drained_or_mutualWait hc2s hs2c hinv, atRest_of_drained_or_mutualWait hinv⟩

/-- The session whose receive threads wait for each other. -/
theorem atRest_iff_stuck :
    AtRest (step chatty ⟨24, 24⟩) Action.Own stuck ↔
      stuck.Drained ∨ stuck.MutualWait ⟨24, 24⟩ :=
  atRest_iff (fun _ _ => rfl) (fun _ _ => rfl) (by decide) (by decide) new_opened stuck_reachable

/-! ## Coming to rest -/

section Ends

variable {P : Peers} {caps : Capacities} {d₀ d d' : Duplex} {a : Action} {n : ℕ}

/-- The batches for which callbacks may still do something, then what is left of the client's
stream, then what is left of the server's. -/
def work (n : ℕ) (d : Duplex) : ℕ × ℕ × ℕ :=
  (n - d.session.clientIn.env.length, d.session.c2s.left d.session.clientStream.length,
    d.session.s2c.left d.session.serverStream.length)

/-- The order in which the work gets less. -/
def Less : ℕ × ℕ × ℕ → ℕ × ℕ × ℕ → Prop := Prod.Lex (· < ·) (Prod.Lex (· < ·) (· < ·))

theorem less_wellFounded : WellFounded Less := by
  have hnat : WellFounded (fun m n : ℕ => m < n) := Nat.lt_wfRel.wf
  exact hnat.prod_lex (hnat.prod_lex hnat)

theorem less_of_fst {p q : ℕ × ℕ × ℕ} (h : p.1 < q.1) : Less p q := Prod.Lex.left _ _ h

theorem less_of_snd {p q : ℕ × ℕ × ℕ} (h₁ : p.1 = q.1) (h₂ : p.2.1 < q.2.1) : Less p q := by
  obtain ⟨a, b, c⟩ := p
  obtain ⟨a', b', c'⟩ := q
  obtain rfl : a = a' := h₁
  exact Prod.Lex.right _ (Prod.Lex.left _ _ h₂)

theorem less_of_thd {p q : ℕ × ℕ × ℕ} (h₁ : p.1 = q.1) (h₂ : p.2.1 = q.2.1)
    (h₃ : p.2.2 < q.2.2) : Less p q := by
  obtain ⟨a, b, c⟩ := p
  obtain ⟨a', b', c'⟩ := q
  obtain rfl : a = a' := h₁
  obtain rfl : b = b' := h₂
  exact Prod.Lex.right _ (Prod.Lex.right _ h₃)

/-- Whatever a session does of its own leaves less work. -/
theorem own_less (hc : P.clientKernel.AcceptsAll) (hs : P.serverKernel.AcceptsAll)
    (h₀ : d₀.Opened) (hsilent : P.SilentFrom n) (h : Inv P caps d₀.session d)
    (hstep : d.step P caps a = some d') (ha : a.Own) : Less (d'.work n) (d.work n) := by
  obtain ⟨-, s, hsession, rfl⟩ := step_cases hstep
  cases a with
  | client op => exact ha.elim
  | deliverToServer m =>
    obtain ⟨e, he, rfl⟩ := Option.map_eq_some_iff.mp hsession
    exact less_of_snd rfl (Direction.deliver_left he)
  | deliverToClient m =>
    obtain ⟨e, he, rfl⟩ := Option.map_eq_some_iff.mp hsession
    exact less_of_thd rfl rfl (Direction.deliver_left he)
  | serverRecv m =>
    obtain ⟨⟨c, e⟩, he, rfl⟩ := Option.map_eq_some_iff.mp hsession
    exact less_of_snd rfl (Direction.recv_left he h.session.c2s.arrived_le)
  | clientRecv m =>
    obtain ⟨k, -, hcount, -⟩ := Session.clientRecv_queues hc hs h₀.session h.session hsession
    obtain ⟨⟨c, e⟩, he, rfl⟩ := Option.map_eq_some_iff.mp hsession
    have hleft := Direction.recv_left he h.session.s2c.arrived_le
    replace hcount : (d.session.clientPass P c).clientIn.env.length =
      d.session.clientIn.env.length + k := hcount
    by_cases hwork : d.session.clientIn.env.length < n ∧ 0 < k
    · apply less_of_fst
      simp only [work]
      omega
    · -- no callback does anything in this pass
      have hnone : Session.completions P d.session.clientIn.env
          ((d.session.clientPass P c).clientIn.env.drop d.session.clientIn.env.length) = [] := by
        rcases Nat.lt_or_ge d.session.clientIn.env.length n with hlt | hge
        · have hnil : (d.session.clientPass P c).clientIn.env.drop
              d.session.clientIn.env.length = [] := by
            apply List.drop_of_length_le
            omega
          rw [hnil]
          rfl
        · exact Session.completions_silent hsilent hge _
      have hclient : (d.session.clientPass P c).client = d.session.client := by
        show d.session.client.run P.clientKernel (Session.completions P d.session.clientIn.env
          ((d.session.clientPass P c).clientIn.env.drop d.session.clientIn.env.length)) = _
        rw [hnone]
        rfl
      apply less_of_thd
      · simp only [work]
        omega
      · simp only [work, Session.clientStream, hclient]
        rfl
      · exact hleft

theorem own_step (caps : Capacities) (hc : P.clientKernel.AcceptsAll)
    (hs : P.serverKernel.AcceptsAll) (h₀ : d₀.Opened) (hsilent : P.SilentFrom n) (d : Duplex)
    (a : Action) (d' : Duplex) (h : Inv P caps d₀.session d) (ha : a.Own)
    (hstep : d.step P caps a = some d') :
    Inv P caps d₀.session d' ∧ Less (d'.work n) (d.work n) :=
  ⟨step_inv hc hs h₀ d a d' h hstep, own_less hc hs h₀ hsilent h hstep ha⟩

end Ends

/-- Where the callbacks fall silent after any number of batches, a session over sockets that
hold anything at all is never busy for ever with what was sent: left alone, it comes to an
end whatever the order of the steps, and every end is one where everything is read or where
the receive threads wait for each other. -/
theorem comes_to_rest {P : Peers} (hc : P.clientKernel.AcceptsAll)
    (hs : P.serverKernel.AcceptsAll) {caps : Capacities} (hc2s : 0 < caps.c2s)
    (hs2c : 0 < caps.s2c) {n : ℕ} (hsilent : P.SilentFrom n) {d₀ d : Duplex} (h₀ : d₀.Opened)
    (h : Reachable (step P caps) d₀ d) :
    Ends (step P caps) Action.Own d ∧
      (∃ as t, (∀ a ∈ as, a.Own) ∧ run (step P caps) d as = some t ∧
        AtRest (step P caps) Action.Own t) ∧
      ∀ as t, (∀ a ∈ as, a.Own) → run (step P caps) d as = some t →
        AtRest (step P caps) Action.Own t → t.Drained ∨ t.MutualWait caps := by
  have hinv := reachable_inv hc hs h₀ h
  have hstep := own_step caps hc hs h₀ hsilent
  refine ⟨ends_of_measure less_wellFounded hstep hinv, exists_atRest less_wellFounded hstep hinv,
    ?_⟩
  intro as t _ hrun hrest
  have hinv' := reachable_inv hc hs h₀ (h.trans ⟨as, hrun⟩)
  exact drained_or_mutualWait hc2s hs2c hinv' hrest

/-- Callbacks that talk back on the first batch of replies only. -/
def chattyOnce : Peers :=
  { chatty with
    callbacks := fun history batch => if history = [] then chatty.callbacks history batch else [] }

theorem chattyOnce_silent : chattyOnce.SilentFrom 1 := by
  intro history batch hn
  have hne : history ≠ [] := List.ne_nil_of_length_pos hn
  simp only [chattyOnce, if_neg hne]

/-- The application flushes one command, which arrives. -/
def oneCommand : List Action :=
  [.client (.command ⟨[], Nat.zero_le _⟩), .client .flush, .deliverToServer 24]

theorem oneCommand_runs :
    (run (step chattyOnce ⟨24, 24⟩) new oneCommand).isSome = true := by decide +kernel

/-- The session behind that, with the server still to read it. -/
def begun : Duplex := (run (step chattyOnce ⟨24, 24⟩) new oneCommand).get oneCommand_runs

theorem comes_to_rest_chattyOnce :
    Ends (step chattyOnce ⟨24, 24⟩) Action.Own begun ∧
      (∃ as t, (∀ a ∈ as, a.Own) ∧ run (step chattyOnce ⟨24, 24⟩) begun as = some t ∧
        AtRest (step chattyOnce ⟨24, 24⟩) Action.Own t) ∧
      ∀ as t, (∀ a ∈ as, a.Own) → run (step chattyOnce ⟨24, 24⟩) begun as = some t →
        AtRest (step chattyOnce ⟨24, 24⟩) Action.Own t → t.Drained ∨ t.MutualWait ⟨24, 24⟩ :=
  comes_to_rest (fun _ _ => rfl) (fun _ _ => rfl) (by decide) (by decide) chattyOnce_silent
    new_opened ⟨oneCommand, (Option.some_get oneCommand_runs).symm⟩

/-- Of its own the session comes to a callback, which sends three batches more. -/
example : (run (step chattyOnce ⟨24, 24⟩) begun
    [.serverRecv 24, .deliverToClient 24, .clientRecv 24, .deliverToClient 12,
      .clientRecv 12]).map clientSent = some 96 := by
  decide +kernel

/-! ## Callbacks that do nothing -/

section Silent

variable {P : Peers} {caps : Capacities} {d₀ d d' t : Duplex} {a : Action}

theorem clientPass_client (hsilent : P.SilentFrom 0) (s : Session) (c : Chunk) :
    (s.clientPass P c).client = s.client := by
  unfold Session.clientPass
  simp only
  rw [Session.completions_silent hsilent (Nat.zero_le _)]
  rfl

/-- The client's receive thread never sends. -/
theorem clientSent_eq_zero (hsilent : P.SilentFrom 0) (h₀ : d₀.Opened)
    (h : Reachable (step P caps) d₀ d) : d.clientSent = 0 := by
  have hkeep (d : Duplex) (a : Action) (d' : Duplex) (hzero : d.clientSent = 0)
      (hstep : d.step P caps a = some d') : d'.clientSent = 0 := by
    obtain ⟨-, s, hsession, rfl⟩ := step_cases hstep
    cases a with
    | clientRecv n =>
      obtain ⟨⟨c, e⟩, -, rfl⟩ := Option.map_eq_some_iff.mp hsession
      have hclient := clientPass_client hsilent d.session c
      simp only [sentBehind, Session.clientStream, hclient, if_pos]
      exact hzero
    | _ => exact hzero
  exact invariant_reachable hkeep h₀.clientSent h

/-- Of its own, a session leaves the client's sending half alone. -/
theorem own_client (hsilent : P.SilentFrom 0) (hstep : d.step P caps a = some d') (ha : a.Own) :
    d'.session.client = d.session.client := by
  obtain ⟨-, s, hsession, rfl⟩ := step_cases hstep
  cases a with
  | client op => exact ha.elim
  | clientRecv n =>
    obtain ⟨⟨c, e⟩, -, rfl⟩ := Option.map_eq_some_iff.mp hsession
    exact clientPass_client hsilent d.session c
  | _ =>
    obtain ⟨e, -, rfl⟩ := Option.map_eq_some_iff.mp hsession
    rfl

theorem not_mutualWait (hsilent : P.SilentFrom 0) (h₀ : d₀.Opened)
    (h : Reachable (step P caps) d₀ d) : ¬ d.MutualWait caps := by
  rintro ⟨⟨hsent, -⟩, -⟩
  rw [clientSent_eq_zero hsilent h₀ h] at hsent
  exact Nat.not_lt_zero _ hsent

/-- Where everything is read, everything is handled and answered. -/
theorem Drained.answered (hs : P.serverKernel.AcceptsAll) (h₀ : d₀.Opened)
    (h : Inv P caps d₀.session d) (hread : d.Drained) :
    d.session.serverIn.env.handled = d.session.client.flushed ∧
      d.session.clientIn.env = BatchQueues.answers P [] d.session.client.flushed := by
  have hhandled := (h.session.handled_all_iff hs h₀.session).mpr hread.1
  have hreceived := (h.session.received_all_iff hs h₀.session).mpr hread.2
  refine ⟨hhandled, ?_⟩
  rw [hreceived, h.session.flushed_answers hs h₀.session, hhandled]

end Silent

/-- Where the callbacks do nothing, a session over sockets that hold anything at all answers
everything: left alone it comes to an end, and whatever the order of the steps, at the end
the server has handled all batches that were flushed and the client has been given all of
the replies to them. -/
theorem all_answered {P : Peers} (hc : P.clientKernel.AcceptsAll)
    (hs : P.serverKernel.AcceptsAll) {caps : Capacities} (hc2s : 0 < caps.c2s)
    (hs2c : 0 < caps.s2c) (hsilent : P.SilentFrom 0) {d₀ d : Duplex} (h₀ : d₀.Opened)
    (h : Reachable (step P caps) d₀ d) :
    Ends (step P caps) Action.Own d ∧
      (∃ as t, (∀ a ∈ as, a.Own) ∧ run (step P caps) d as = some t ∧
        AtRest (step P caps) Action.Own t) ∧
      ∀ as t, (∀ a ∈ as, a.Own) → run (step P caps) d as = some t →
        AtRest (step P caps) Action.Own t →
          t.session.client = d.session.client ∧
            t.session.serverIn.env.handled = d.session.client.flushed ∧
            t.session.clientIn.env = BatchQueues.answers P [] d.session.client.flushed := by
  have hinv := reachable_inv hc hs h₀ h
  have hstep := own_step caps hc hs h₀ hsilent
  refine ⟨ends_of_measure less_wellFounded hstep hinv, exists_atRest less_wellFounded hstep hinv,
    ?_⟩
  intro as t has hrun hrest
  have hreach := h.trans ⟨as, hrun⟩
  have hinv' := reachable_inv hc hs h₀ hreach
  have hclient : t.session.client = d.session.client := by
    apply invariant_own (I := fun t => t.session.client = d.session.client) _ rfl has hrun
    intro u a u' hu ha hstep
    rw [own_client hsilent hstep ha, hu]
  have hread := (drained_or_mutualWait hc2s hs2c hinv' hrest).resolve_right
    (not_mutualWait hsilent h₀ hreach)
  obtain ⟨hhandled, hreceived⟩ := hread.answered hs h₀ hinv'
  rw [hclient] at hhandled hreceived
  exact ⟨hclient, hhandled, hreceived⟩

/-- One command over sockets of one byte, of which the first one has arrived. -/
def firstByte : List Action :=
  [.client (.command ⟨[5], by decide⟩), .client .flush, .deliverToServer 1]

theorem firstByte_runs :
    (run (step Session.answering ⟨1, 1⟩) new firstByte).isSome = true := by decide +kernel

def asked : Duplex := (run (step Session.answering ⟨1, 1⟩) new firstByte).get firstByte_runs

theorem all_answered_answering :
    Ends (step Session.answering ⟨1, 1⟩) Action.Own asked ∧
      (∃ as t, (∀ a ∈ as, a.Own) ∧ run (step Session.answering ⟨1, 1⟩) asked as = some t ∧
        AtRest (step Session.answering ⟨1, 1⟩) Action.Own t) ∧
      ∀ as t, (∀ a ∈ as, a.Own) → run (step Session.answering ⟨1, 1⟩) asked as = some t →
        AtRest (step Session.answering ⟨1, 1⟩) Action.Own t →
          t.session.client = asked.session.client ∧
            t.session.serverIn.env.handled = asked.session.client.flushed ∧
            t.session.clientIn.env =
              BatchQueues.answers Session.answering [] asked.session.client.flushed :=
  all_answered (fun _ _ => rfl) (fun _ _ => rfl) (by decide) (by decide) (fun _ _ _ => rfl)
    new_opened ⟨firstByte, (Option.some_get firstByte_runs).symm⟩

example : asked.session.client.flushed = [[5]] ∧ asked.session.serverIn.env.handled = [] ∧
    BatchQueues.answers Session.answering [] [[5]] = [[9]] := by
  decide +kernel

end Duplex

end WebGpuDD
