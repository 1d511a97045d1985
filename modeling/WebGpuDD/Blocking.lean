import WebGpuDD.Session

/-!
# Receive threads that wait for each other

The session over blocking sockets of finite capacity. What a receive thread sends in a
pass of `Recv` is on its stream at once, but it takes its next pass only when every
byte of it has found room; until then it is inside `CommandTransport::Send`. There is
no flow control between the two programs, so both may wait at the same time.
-/

namespace WebGpuDD

open LittleEndian CommandTransport Reference Runs

/-- How many bytes each direction holds between `send(2)` and `recv(2)`. -/
structure Capacities where
  c2s : ℕ
  s2c : ℕ

namespace Direction

variable {cap sent : ℕ} {d : Direction}

/-- What was sent up to `sent` fits into the direction with all that is unread. -/
def Fits (cap sent : ℕ) (d : Direction) : Prop := sent ≤ d.read + cap

/-- A sender that has sent up to `sent` has bytes left and finds the direction full. -/
def Waiting (cap sent : ℕ) (d : Direction) : Prop := d.arrived < sent ∧ d.read + cap ≤ d.arrived

instance (cap sent : ℕ) (d : Direction) : Decidable (d.Waiting cap sent) := by
  unfold Waiting
  infer_instance

theorem Fits.not_waiting (h : d.Fits cap sent) : ¬ d.Waiting cap sent := by
  intro hwait
  obtain ⟨hsent, hfull⟩ := hwait
  unfold Fits at h
  omega

/-- Reading makes room. -/
theorem Fits.read (h : d.Fits cap sent) (n : ℕ) : Fits cap sent { d with read := d.read + n } := by
  unfold Fits at h ⊢
  simp only
  omega

/-- Where more was sent than fits, a piece arrives that fills the direction, unless it is
full already. -/
theorem waiting_or_deliver {stream : List Byte} (hroom : d.arrived ≤ d.read + cap)
    (hsent : sent ≤ stream.length) (hover : ¬ d.Fits cap sent) :
    d.Waiting cap sent ∨ ∃ n d', d.deliver stream n = some d' ∧ d.arrived + n ≤ d.read + cap ∧
      d'.Waiting cap sent := by
  rw [Fits, Nat.not_le] at hover
  by_cases hfull : d.arrived = d.read + cap
  · left
    exact ⟨by omega, hfull.ge⟩
  · right
    have hdeliver := deliver_upTo (Nat.lt_of_le_of_ne hroom hfull) (hover.le.trans hsent)
    exact ⟨_, _, hdeliver, by omega, hover, le_refl _⟩

end Direction

/-- A session with the place on the client's stream up to which its receive thread has
sent. On the server's stream that is the end, since no other thread sends there. -/
structure Duplex where
  session : Session
  clientSent : ℕ

namespace Duplex

/-- A session in which no receive thread has sent anything. -/
structure Opened (d : Duplex) : Prop where
  session : d.session.Opened
  clientSent : d.clientSent = 0

def new : Duplex := ⟨Session.new, 0⟩

theorem new_opened : new.Opened := ⟨Session.new_opened, rfl⟩

/-- Bytes arrive where there is room for them, and a receive thread that is not inside
`Send` calls `recv(2)`. -/
def Allowed (caps : Capacities) (d : Duplex) : Action → Prop
  | .client _ => True
  | .deliverToServer n => d.session.c2s.arrived + n ≤ d.session.c2s.read + caps.c2s
  | .deliverToClient n => d.session.s2c.arrived + n ≤ d.session.s2c.read + caps.s2c
  | .serverRecv _ => d.session.serverStream.length ≤ d.session.s2c.arrived
  | .clientRecv _ => d.clientSent ≤ d.session.c2s.arrived

instance (caps : Capacities) (d : Duplex) (a : Action) : Decidable (d.Allowed caps a) := by
  unfold Allowed
  split <;> infer_instance

/-- Where the client's receive thread has sent to, behind an action that led to `s`. -/
def sentBehind (d : Duplex) (s : Session) : Action → ℕ
  | .clientRecv _ =>
    -- callbacks that flush nothing do not enter `Send`
    if s.clientStream.length = d.session.clientStream.length then d.clientSent
    else s.clientStream.length
  | _ => d.clientSent

def step (P : Peers) (caps : Capacities) (d : Duplex) (a : Action) : Option Duplex :=
  if d.Allowed caps a then (d.session.step P a).map fun s => ⟨s, d.sentBehind s a⟩ else none

/-- The client's receive thread waits inside `Send`. -/
def ClientWaiting (caps : Capacities) (d : Duplex) : Prop :=
  d.session.c2s.Waiting caps.c2s d.clientSent

/-- The server's receive thread waits inside `Send`. -/
def ServerWaiting (caps : Capacities) (d : Duplex) : Prop :=
  d.session.s2c.Waiting caps.s2c d.session.serverStream.length

/-- Each receive thread waits for room that only the other one makes. -/
def MutualWait (caps : Capacities) (d : Duplex) : Prop := d.ClientWaiting caps ∧ d.ServerWaiting caps

instance (caps : Capacities) (d : Duplex) : Decidable (d.MutualWait caps) := by
  unfold MutualWait ClientWaiting ServerWaiting
  infer_instance

/-- What the client's receive thread has sent fits with all that is unread. -/
def ClientFits (caps : Capacities) (d : Duplex) : Prop :=
  d.session.c2s.Fits caps.c2s d.clientSent

def ServerFits (caps : Capacities) (d : Duplex) : Prop :=
  d.session.s2c.Fits caps.s2c d.session.serverStream.length

section Steps

variable {P : Peers} {caps : Capacities} {d₀ d d' : Duplex} {a : Action}

theorem step_cases (h : d.step P caps a = some d') :
    d.Allowed caps a ∧ ∃ s, d.session.step P a = some s ∧ d' = ⟨s, d.sentBehind s a⟩ := by
  unfold step at h
  split at h
  · rename_i hallowed
    obtain ⟨s, hs, hd'⟩ := Option.map_eq_some_iff.mp h
    exact ⟨hallowed, s, hs, hd'.symm⟩
  · cases h

theorem step_of_allowed (h : d.Allowed caps a) {s : Session} (hs : d.session.step P a = some s) :
    d.step P caps a = some ⟨s, d.sentBehind s a⟩ := by
  rw [step, if_pos h, hs, Option.map_some]

/-- What a run over these sockets keeps. -/
structure Inv (P : Peers) (caps : Capacities) (s₀ : Session) (d : Duplex) : Prop where
  session : Session.Inv P s₀ d.session
  c2s : d.session.c2s.arrived ≤ d.session.c2s.read + caps.c2s
  s2c : d.session.s2c.arrived ≤ d.session.s2c.read + caps.s2c
  clientSent : d.clientSent ≤ d.session.clientStream.length

theorem Opened.inv (h : d₀.Opened) : Inv P caps d₀.session d₀ where
  session := h.session.inv
  c2s := by simp [h.session.c2s]
  s2c := by simp [h.session.s2c]
  clientSent := by simp [h.clientSent]

theorem sentBehind_le (hle : d.clientSent ≤ d.session.clientStream.length) {s : Session}
    (hgrow : d.session.clientStream <+: s.clientStream) (a : Action) :
    d.sentBehind s a ≤ s.clientStream.length := by
  have hlen := hgrow.length_le
  cases a with
  | clientRecv n =>
    simp only [sentBehind]
    split <;> omega
  | _ =>
    simp only [sentBehind]
    omega

theorem step_inv (hc : P.clientKernel.AcceptsAll) (hs : P.serverKernel.AcceptsAll)
    (h₀ : d₀.Opened) (d : Duplex) (a : Action) (d' : Duplex)
    (h : Inv P caps d₀.session d) (hstep : d.step P caps a = some d') :
    Inv P caps d₀.session d' := by
  obtain ⟨hallowed, s, hsession, rfl⟩ := step_cases hstep
  have hinv := Session.step_inv hc hs h₀.session d.session a s h.session hsession
  have hgrow := (Session.step_streams hc hs h₀.session h.session hsession).1
  have hsent := sentBehind_le h.clientSent hgrow a
  suffices hroom : s.c2s.arrived ≤ s.c2s.read + caps.c2s ∧
      s.s2c.arrived ≤ s.s2c.read + caps.s2c from ⟨hinv, hroom.1, hroom.2, hsent⟩
  have hc2s := h.c2s
  have hs2c := h.s2c
  cases a with
  | client op =>
    obtain rfl := Option.some.inj hsession
    exact ⟨hc2s, hs2c⟩
  | deliverToServer n =>
    obtain ⟨e, he, rfl⟩ := Option.map_eq_some_iff.mp hsession
    obtain ⟨-, -, rfl⟩ := Direction.deliver_cases he
    exact ⟨hallowed, hs2c⟩
  | deliverToClient n =>
    obtain ⟨e, he, rfl⟩ := Option.map_eq_some_iff.mp hsession
    obtain ⟨-, -, rfl⟩ := Direction.deliver_cases he
    exact ⟨hc2s, hallowed⟩
  | serverRecv n =>
    obtain ⟨⟨c, e⟩, he, rfl⟩ := Option.map_eq_some_iff.mp hsession
    obtain ⟨-, -, rfl⟩ := Direction.recv_cases he
    exact ⟨Direction.Fits.read hc2s n, hs2c⟩
  | clientRecv n =>
    obtain ⟨⟨c, e⟩, he, rfl⟩ := Option.map_eq_some_iff.mp hsession
    obtain ⟨-, -, rfl⟩ := Direction.recv_cases he
    exact ⟨hc2s, Direction.Fits.read hs2c n⟩

theorem reachable_inv (hc : P.clientKernel.AcceptsAll) (hs : P.serverKernel.AcceptsAll)
    (h₀ : d₀.Opened) (h : Reachable (step P caps) d₀ d) : Inv P caps d₀.session d :=
  invariant_reachable (step_inv hc hs h₀) h₀.inv h

/-- From a state in which the client's receive thread has sent more than fits, bytes
arrive until it waits. -/
theorem reachable_clientWaiting (h : Inv P caps d₀.session d) (hover : ¬ d.ClientFits caps) :
    ∃ d', Reachable (step P caps) d d' ∧ d'.ClientWaiting caps ∧
      d'.session.serverIn = d.session.serverIn ∧ d'.session.s2c = d.session.s2c := by
  obtain hwait | ⟨n, e, he, hroom, hwait⟩ :=
    Direction.waiting_or_deliver h.c2s h.clientSent hover
  · exact ⟨d, .refl d, hwait, rfl, rfl⟩
  · have hsession : d.session.step P (.deliverToServer n) = some { d.session with c2s := e } := by
      rw [Session.step, he, Option.map_some]
    have hallowed : d.Allowed caps (.deliverToServer n) := hroom
    exact ⟨_, .single (step_of_allowed hallowed hsession), hwait, rfl, rfl⟩

/-- The same for the server's receive thread. -/
theorem reachable_serverWaiting (h : Inv P caps d₀.session d) (hover : ¬ d.ServerFits caps) :
    ∃ d', Reachable (step P caps) d d' ∧ d'.ServerWaiting caps ∧
      d'.session.c2s = d.session.c2s ∧ d'.clientSent = d.clientSent := by
  obtain hwait | ⟨n, e, he, hroom, hwait⟩ :=
    Direction.waiting_or_deliver h.s2c (le_refl d.session.serverStream.length) hover
  · exact ⟨d, .refl d, hwait, rfl, rfl⟩
  · have hsession : d.session.step P (.deliverToClient n) = some { d.session with s2c := e } := by
      rw [Session.step, he, Option.map_some]
    have hallowed : d.Allowed caps (.deliverToClient n) := hroom
    exact ⟨_, .single (step_of_allowed hallowed hsession), hwait, rfl, rfl⟩

/-- Each of the two receive threads comes to wait for the other one in some run exactly
when each of them has sent more than its direction holds in some state. -/
theorem reachable_mutualWait_iff (hc : P.clientKernel.AcceptsAll)
    (hs : P.serverKernel.AcceptsAll) (h₀ : d₀.Opened) :
    (∃ d, Reachable (step P caps) d₀ d ∧ d.MutualWait caps) ↔
      ∃ d, Reachable (step P caps) d₀ d ∧ ¬ d.ClientFits caps ∧ ¬ d.ServerFits caps := by
  constructor
  · intro hwaiting
    obtain ⟨d, hd, hclient, hserver⟩ := hwaiting
    exact ⟨d, hd, fun h => h.not_waiting hclient, fun h => h.not_waiting hserver⟩
  · intro hoverfull
    obtain ⟨d, hd, hclient, hserver⟩ := hoverfull
    -- fill one direction, then the other one, which the first step left alone
    obtain ⟨d₁, hd₁, hwait₁, hin, hs2c⟩ :=
      reachable_clientWaiting (reachable_inv hc hs h₀ hd) hclient
    have hserver₁ : ¬ d₁.ServerFits caps := by
      rwa [ServerFits, Session.serverStream, hin, hs2c]
    obtain ⟨d₂, hd₂, hwait₂, hc2s, hsent⟩ :=
      reachable_serverWaiting (reachable_inv hc hs h₀ (hd.trans hd₁)) hserver₁
    have hclient₂ : d₂.ClientWaiting caps := by
      rwa [ClientWaiting, hc2s, hsent]
    exact ⟨d₂, (hd.trans hd₁).trans hd₂, hclient₂, hwait₂⟩

end Steps

/-! ## Passes whose sends fit -/

/-- What the client's receive thread sends in a pass fits with all that is unread. -/
def ClientPassFits (P : Peers) (caps : Capacities) (d : Duplex) : Action → Prop
  | .clientRecv n => ∀ d', d.step P caps (.clientRecv n) = some d' → d'.ClientFits caps
  | _ => True

def ServerPassFits (P : Peers) (caps : Capacities) (d : Duplex) : Action → Prop
  | .serverRecv n => ∀ d', d.step P caps (.serverRecv n) = some d' → d'.ServerFits caps
  | _ => True

section Passes

variable {P : Peers} {caps : Capacities}

theorem step_clientFits (d : Duplex) (a : Action) (d' : Duplex) (h : d.ClientFits caps)
    (hpass : d.ClientPassFits P caps a) (hstep : d.step P caps a = some d') :
    d'.ClientFits caps := by
  obtain ⟨-, s, hs, rfl⟩ := step_cases hstep
  cases a with
  | client op =>
    obtain rfl := Option.some.inj hs
    exact h
  | deliverToServer n =>
    obtain ⟨e, he, rfl⟩ := Option.map_eq_some_iff.mp hs
    obtain ⟨-, -, rfl⟩ := Direction.deliver_cases he
    exact h
  | deliverToClient n =>
    obtain ⟨e, he, rfl⟩ := Option.map_eq_some_iff.mp hs
    exact h
  | serverRecv n =>
    obtain ⟨⟨c, e⟩, he, rfl⟩ := Option.map_eq_some_iff.mp hs
    obtain ⟨-, -, rfl⟩ := Direction.recv_cases he
    exact Direction.Fits.read h n
  | clientRecv n => exact hpass _ hstep

theorem step_serverFits (d : Duplex) (a : Action) (d' : Duplex) (h : d.ServerFits caps)
    (hpass : d.ServerPassFits P caps a) (hstep : d.step P caps a = some d') :
    d'.ServerFits caps := by
  obtain ⟨-, s, hs, rfl⟩ := step_cases hstep
  cases a with
  | client op =>
    obtain rfl := Option.some.inj hs
    exact h
  | deliverToServer n =>
    obtain ⟨e, he, rfl⟩ := Option.map_eq_some_iff.mp hs
    exact h
  | deliverToClient n =>
    obtain ⟨e, he, rfl⟩ := Option.map_eq_some_iff.mp hs
    obtain ⟨-, -, rfl⟩ := Direction.deliver_cases he
    exact h
  | serverRecv n => exact hpass _ hstep
  | clientRecv n =>
    obtain ⟨⟨c, e⟩, he, rfl⟩ := Option.map_eq_some_iff.mp hs
    obtain ⟨-, -, rfl⟩ := Direction.recv_cases he
    exact Direction.Fits.read h n

end Passes

theorem Opened.clientFits {d : Duplex} (h : d.Opened) (caps : Capacities) : d.ClientFits caps := by
  rw [ClientFits, h.clientSent]
  exact Nat.zero_le _

theorem Opened.serverFits {d : Duplex} (h : d.Opened) (caps : Capacities) : d.ServerFits caps := by
  obtain ⟨connfd, -, hconn⟩ := h.session.server.sender.conn
  rw [ServerFits, Session.serverStream, hconn]
  exact Nat.zero_le _

/-- The receive threads wait for each other only beyond what the sockets hold: in no
run in which all passes of one of the two send what fits, and in some run if and only
if in some state each of the two has sent more than fits. -/
theorem mutualWait_beyond_capacity {P : Peers} (hc : P.clientKernel.AcceptsAll)
    (hs : P.serverKernel.AcceptsAll) (caps : Capacities) {d₀ : Duplex} (h₀ : d₀.Opened) :
    (∀ as, StepsMeet (step P caps) (ClientPassFits P caps) d₀ as ∨
        StepsMeet (step P caps) (ServerPassFits P caps) d₀ as →
      Along (step P caps) (fun d => ¬ d.MutualWait caps) d₀ as) ∧
    ((∃ d, Reachable (step P caps) d₀ d ∧ d.MutualWait caps) ↔
      ∃ d, Reachable (step P caps) d₀ d ∧ ¬ d.ClientFits caps ∧ ¬ d.ServerFits caps) := by
  refine ⟨?_, reachable_mutualWait_iff hc hs h₀⟩
  intro as hpass pre hpre d hd hwait
  rcases hpass with hpass | hpass
  · have hfits := along_of_stepsMeet step_clientFits (h₀.clientFits caps) hpass pre hpre d hd
    exact hfits.not_waiting hwait.1
  · have hfits := along_of_stepsMeet step_serverFits (h₀.serverFits caps) hpass pre hpre d hd
    exact hfits.not_waiting hwait.2

/-- Every batch is answered with two empty commands, and on every batch of replies a
callback reserves and flushes three of them, one by one. -/
def chatty : Peers where
  clientKernel := fun _ size => .accepted size
  serverKernel := fun _ size => .accepted size
  replies := fun _ _ => [⟨[], by decide⟩, ⟨[], by decide⟩]
  serverAccepts := fun _ _ => true
  clientAccepts := fun _ _ => true
  callbacks := fun _ _ => (List.replicate 3 [.command ⟨[], by decide⟩, .flush]).flatten

/-- One command of the application, over sockets of 24 bytes. -/
def waitForEachOther : List Action :=
  [.client (.command ⟨[], by decide⟩), .client .flush, .deliverToServer 24,
    .serverRecv 24, .deliverToClient 24, .clientRecv 24, .deliverToClient 12, .clientRecv 12,
    .deliverToServer 24, .serverRecv 24, .deliverToClient 24, .deliverToServer 24]

theorem waitForEachOther_runs :
    (run (step chatty ⟨24, 24⟩) new waitForEachOther).isSome = true := by decide +kernel

def stuck : Duplex := (run (step chatty ⟨24, 24⟩) new waitForEachOther).get waitForEachOther_runs

theorem stuck_reachable : Reachable (step chatty ⟨24, 24⟩) new stuck :=
  ⟨waitForEachOther, (Option.some_get waitForEachOther_runs).symm⟩

theorem not_never_mutualWait :
    ¬ ∀ (P : Peers) (caps : Capacities), P.clientKernel.AcceptsAll → P.serverKernel.AcceptsAll →
      ∀ d, Reachable (step P caps) new d → ¬ d.MutualWait caps := by
  intro h
  exact h chatty ⟨24, 24⟩ (fun _ _ => rfl) (fun _ _ => rfl) stuck stuck_reachable
    (by decide +kernel)

theorem mutualWait_beyond_capacity_chatty :
    (∀ as, StepsMeet (step chatty ⟨24, 24⟩) (ClientPassFits chatty ⟨24, 24⟩) new as ∨
        StepsMeet (step chatty ⟨24, 24⟩) (ServerPassFits chatty ⟨24, 24⟩) new as →
      Along (step chatty ⟨24, 24⟩) (fun d => ¬ d.MutualWait ⟨24, 24⟩) new as) ∧
    ((∃ d, Reachable (step chatty ⟨24, 24⟩) new d ∧ d.MutualWait ⟨24, 24⟩) ↔
      ∃ d, Reachable (step chatty ⟨24, 24⟩) new d ∧
        ¬ d.ClientFits ⟨24, 24⟩ ∧ ¬ d.ServerFits ⟨24, 24⟩) :=
  mutualWait_beyond_capacity (fun _ _ => rfl) (fun _ _ => rfl) ⟨24, 24⟩ new_opened

end Duplex

end WebGpuDD
