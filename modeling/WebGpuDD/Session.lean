import WebGpuDD.WebGpuServer

/-!
# The session

A client and a server over one connection. Each direction keeps how far the bytes of
its sender have come: into the receiving socket, and through `recv(2)`. Every step of
a receive thread is one pass of `CommandTransport::Recv`; the client's receive thread
also runs the callbacks of the batches that it handed over, which only touch the
sending half.
-/

namespace WebGpuDD

open LittleEndian CommandTransport Reference Runs

/-- One direction of the connection: how many bytes of the stream have arrived at the
receiving socket, and how many of them `recv(2)` has returned. -/
structure Direction where
  arrived : ℕ
  read : ℕ
  deriving DecidableEq

namespace Direction

/-- A piece of `n` bytes arrives. -/
def deliver (stream : List Byte) (n : ℕ) (d : Direction) : Option Direction :=
  if 0 < n ∧ d.arrived + n ≤ stream.length then some { d with arrived := d.arrived + n } else none

/-- `recv(2)` returns the next `n` bytes. -/
def recv (stream : List Byte) (n : ℕ) (d : Direction) : Option (Chunk × Direction) :=
  let bytes := (stream.drop d.read).take n
  if h : d.read + n ≤ d.arrived ∧ bytes ≠ [] ∧ bytes.length ≤ 65536 then
    some (⟨bytes, h.2.1, h.2.2⟩, { d with read := d.read + n })
  else none

theorem deliver_cases {stream : List Byte} {n : ℕ} {d d' : Direction}
    (h : d.deliver stream n = some d') :
    0 < n ∧ d.arrived + n ≤ stream.length ∧ d' = { d with arrived := d.arrived + n } := by
  unfold deliver at h
  split at h
  · rename_i hn
    exact ⟨hn.1, hn.2, (Option.some.inj h).symm⟩
  · cases h

theorem deliver_upTo {stream : List Byte} {d : Direction} {m : ℕ} (h : d.arrived < m)
    (hm : m ≤ stream.length) : d.deliver stream (m - d.arrived) = some { d with arrived := m } := by
  have harrived : d.arrived + (m - d.arrived) = m := by omega
  rw [deliver, harrived, if_pos ⟨by omega, hm⟩]

theorem recv_cases {stream : List Byte} {n : ℕ} {d d' : Direction} {c : Chunk}
    (h : d.recv stream n = some (c, d')) :
    d.read + n ≤ d.arrived ∧ c.bytes = (stream.drop d.read).take n ∧
      d' = { d with read := d.read + n } := by
  unfold recv at h
  dsimp only at h
  split at h
  · rename_i hn
    obtain ⟨rfl, rfl⟩ := Prod.mk.inj (Option.some.inj h)
    exact ⟨hn.1, rfl, rfl⟩
  · cases h

end Direction

/-! ## One direction -/

/-- A receiver that has got as far as its direction says: what it has made of the
stream is what a run of `Recv` makes of the bytes read. -/
structure Link {σ : Type*} (H : CommandHandler σ) (r₀ r : Recv σ) (d : Direction)
    (stream : List Byte) : Prop where
  read_le : d.read ≤ d.arrived
  arrived_le : d.arrived ≤ stream.length
  run : ∃ cs : List Chunk, r = r₀.run H (cs.map .data) ∧
    cs.flatMap Chunk.bytes = stream.take d.read

theorem receivedBytes_data (cs : List Chunk) :
    receivedBytes (cs.map .data) = cs.flatMap Chunk.bytes := by
  induction cs with
  | nil => rfl
  | cons c cs ih => simp [receivedBytes, ih]

namespace Link

variable {σ : Type*} {H : CommandHandler σ} {r₀ r : Recv σ} {d d' : Direction}
  {stream stream' : List Byte}

theorem start (hd : d = ⟨0, 0⟩) : Link H r₀ r₀ d stream where
  read_le := by simp [hd]
  arrived_le := by simp [hd]
  run := ⟨[], rfl, by simp [hd]⟩

/-- What is sent later does not change what was read. -/
theorem grow (h : Link H r₀ r d stream) (hs : stream <+: stream') : Link H r₀ r d stream' where
  read_le := h.read_le
  arrived_le := h.arrived_le.trans hs.length_le
  run := by
    obtain ⟨more, rfl⟩ := hs
    obtain ⟨cs, hr, hcs⟩ := h.run
    exact ⟨cs, hr, by rw [hcs, List.take_append_of_le_length (h.read_le.trans h.arrived_le)]⟩

theorem deliver (h : Link H r₀ r d stream) {n : ℕ} (hd : d.deliver stream n = some d') :
    Link H r₀ r d' stream := by
  obtain ⟨-, hle, rfl⟩ := Direction.deliver_cases hd
  exact ⟨h.read_le.trans (Nat.le_add_right _ _), hle, h.run⟩

theorem recv (h : Link H r₀ r d stream) {n : ℕ} {c : Chunk}
    (hd : d.recv stream n = some (c, d')) : Link H r₀ (r.step H (.data c)) d' stream := by
  obtain ⟨hle, hc, rfl⟩ := Direction.recv_cases hd
  obtain ⟨cs, hr, hcs⟩ := h.run
  refine ⟨hle, h.arrived_le, cs ++ [c], ?_, ?_⟩
  · rw [List.map_append, Recv.run_append, ← hr]
    rfl
  · rw [List.flatMap_append, hcs, List.flatMap_singleton, hc, List.take_add]

/-- Behind a stream of batches the handler has been called with the parser's batches,
which are the first ones of the stream. -/
theorem calls (h : Link H r₀ r d stream) (h₀ : r₀.Entered) {batches : List (List (List Byte))}
    (hb : ∀ ps ∈ batches, Sendable ps) (hs : stream = batches.flatMap batchBytes) :
    r.env = H.after r₀.env (parse (stream.take d.read)).calls ∧
      (parse (stream.take d.read)).calls <+: batches.map List.flatten := by
  obtain ⟨cs, rfl, hcs⟩ := h.run
  have hprefix := List.take_prefix d.read stream
  have hfits : Fits (receivedBytes (cs.map .data)) := by
    rw [receivedBytes_data, hcs]
    exact Fits.left (hs ▸ fits_batches hb) hprefix
  have henv := (Recv.run_of_fits (H := H) h₀ _ hfits).1
  rw [receivedBytes_data, hcs] at henv
  refine ⟨henv, ?_⟩
  have hcalls := parse_calls_prefix hprefix
  rwa [hs, parse_batches hb, ← hs] at hcalls

end Link

/-! ## Both directions -/

structure Session where
  client : Sender
  clientIn : Recv (List (List Byte))
  serverIn : Recv DDWGPUServer
  c2s : Direction
  s2c : Direction

inductive Action where
  | client (op : SafeOp)
  | deliverToServer (n : ℕ)
  | deliverToClient (n : ℕ)
  | serverRecv (n : ℕ)
  | clientRecv (n : ℕ)

namespace Session

/-- Both programs have entered `Recv` on a new connection. -/
structure Opened (s : Session) : Prop where
  client : s.client.Fresh
  clientIn : s.clientIn.Entered
  clientLog : s.clientIn.env = []
  serverIn : s.serverIn.Entered
  server : s.serverIn.env.Fresh
  c2s : s.c2s = ⟨0, 0⟩
  s2c : s.s2c = ⟨0, 0⟩

def new : Session :=
  ⟨Sender.new 3, Recv.enter [], Recv.enter (DDWGPUServer.new 4), ⟨0, 0⟩, ⟨0, 0⟩⟩

theorem new_opened : new.Opened where
  client := Sender.new_fresh (by decide)
  clientIn := Recv.enter_entered []
  clientLog := rfl
  serverIn := Recv.enter_entered _
  server := DDWGPUServer.new_fresh (by decide)
  c2s := rfl
  s2c := rfl

/-- All that the client has sent. -/
def clientStream (s : Session) : List Byte := s.client.conn.stream

/-- All that the server has sent. -/
def serverStream (s : Session) : List Byte := s.serverIn.env.sender.conn.stream

/-- The client's handler, which keeps the batches that it was given. -/
abbrev clientHandler (P : Peers) : CommandHandler (List (List Byte)) :=
  .recorder P.clientAccepts

/-- What the callbacks of these batches do, behind the batches handled before. -/
def completions (P : Peers) (history batches : List (List Byte)) : List SendOp :=
  ((withHistory P.callbacks history batches).flatten).map Subtype.val

theorem completions_noWrap (P : Peers) (history batches : List (List Byte)) :
    ∀ op ∈ completions P history batches, op.NoWrap := by
  intro op hop
  obtain ⟨q, -, rfl⟩ := List.mem_map.mp hop
  exact q.property

/-- The client's receive thread behind a successful `recv(2)`. -/
def clientPass (P : Peers) (s : Session) (c : Chunk) : Session :=
  -- the callbacks do not touch the receive buffer, so they may run behind the pass
  let clientIn := s.clientIn.step (clientHandler P) (.data c)
  let handled := clientIn.env.drop s.clientIn.env.length
  { s with
    client := s.client.run P.clientKernel (completions P s.clientIn.env handled)
    clientIn := clientIn }

def step (P : Peers) (s : Session) : Action → Option Session
  | .client op => some { s with client := s.client.step P.clientKernel op.val }
  | .deliverToServer n =>
    (s.c2s.deliver s.clientStream n).map fun d => { s with c2s := d }
  | .deliverToClient n =>
    (s.s2c.deliver s.serverStream n).map fun d => { s with s2c := d }
  | .serverRecv n =>
    (s.c2s.recv s.clientStream n).map fun r =>
      { s with serverIn := s.serverIn.step (DDWGPUServer.handler P) (.data r.1), c2s := r.2 }
  | .clientRecv n =>
    (s.s2c.recv s.serverStream n).map fun r => { s.clientPass P r.1 with s2c := r.2 }

/-- The invariant of a session that began at `s₀`: the client's flushes went out whole,
and each receiver is as far as its direction. -/
structure Inv (P : Peers) (s₀ s : Session) : Prop where
  client : s.client.Inv
  clientWhole : s.client.AllWhole
  c2s : Link (DDWGPUServer.handler P) s₀.serverIn s.serverIn s.c2s s.clientStream
  s2c : Link (clientHandler P) s₀.clientIn s.clientIn s.s2c s.serverStream

section Inv

variable {P : Peers} {s₀ s : Session}

theorem Opened.inv (h₀ : s₀.Opened) : Inv P s₀ s₀ where
  client := h₀.client.inv
  clientWhole := by simp [Sender.AllWhole, h₀.client.flushes]
  c2s := Link.start h₀.c2s
  s2c := Link.start h₀.s2c

theorem Inv.clientStream (h : Inv P s₀ s) :
    s.clientStream = s.client.batches.flatMap batchBytes :=
  Sender.stream_of_allWhole h.client h.clientWhole

/-- The server has handled the first ones of the client's batches. -/
theorem Inv.server (hs : P.serverKernel.AcceptsAll) (h₀ : s₀.Opened) (h : Inv P s₀ s) :
    DDWGPUServer.Handled P s.serverIn.env (parse (s.clientStream.take s.c2s.read)).calls ∧
      (parse (s.clientStream.take s.c2s.read)).calls <+: s.client.flushed := by
  obtain ⟨henv, hcalls⟩ := h.c2s.calls h₀.serverIn (Sender.sendable_batches h.client)
    h.clientStream
  refine ⟨henv ▸ DDWGPUServer.after_handled hs h₀.server _, ?_⟩
  rwa [Sender.batches, List.map_map] at hcalls

/-- A pass of the server's `Recv` takes back nothing that the server has sent. -/
theorem serverStream_step (hs : P.serverKernel.AcceptsAll) (h₀ : s₀.Opened) (h : Inv P s₀ s)
    {n : ℕ} {c : Chunk} {d : Direction} (hd : s.c2s.recv s.clientStream n = some (c, d)) :
    s.serverStream <+:
      (s.serverIn.step (DDWGPUServer.handler P) (.data c)).env.sender.conn.stream := by
  have hsend := Sender.sendable_batches h.client
  obtain ⟨hbefore, -⟩ := h.c2s.calls h₀.serverIn hsend h.clientStream
  obtain ⟨hafter, -⟩ := (h.c2s.recv hd).calls h₀.serverIn hsend h.clientStream
  obtain ⟨-, -, rfl⟩ := Direction.recv_cases hd
  -- both streams are functions of the batches parsed so far
  rw [serverStream, hbefore, hafter]
  apply DDWGPUServer.after_stream_prefix hs h₀.server
  apply parse_calls_prefix
  exact List.take_prefix_take_left (Nat.le_add_right _ n)

theorem step_inv (hc : P.clientKernel.AcceptsAll) (hs : P.serverKernel.AcceptsAll)
    (h₀ : s₀.Opened) (s : Session) (a : Action) (s' : Session) (h : Inv P s₀ s)
    (hstep : s.step P a = some s') : Inv P s₀ s' := by
  cases a with
  | client op =>
    obtain ⟨hinv, hall, hgrow⟩ := Sender.step_acceptsAll hc h.client h.clientWhole op.property
    obtain rfl := Option.some.inj hstep
    exact ⟨hinv, hall, h.c2s.grow hgrow, h.s2c⟩
  | deliverToServer n =>
    obtain ⟨d, hd, rfl⟩ := Option.map_eq_some_iff.mp hstep
    exact ⟨h.client, h.clientWhole, h.c2s.deliver hd, h.s2c⟩
  | deliverToClient n =>
    obtain ⟨d, hd, rfl⟩ := Option.map_eq_some_iff.mp hstep
    exact ⟨h.client, h.clientWhole, h.c2s, h.s2c.deliver hd⟩
  | serverRecv n =>
    obtain ⟨⟨c, d⟩, hd, rfl⟩ := Option.map_eq_some_iff.mp hstep
    have hgrow := serverStream_step hs h₀ h hd
    exact ⟨h.client, h.clientWhole, h.c2s.recv hd, h.s2c.grow hgrow⟩
  | clientRecv n =>
    obtain ⟨⟨c, d⟩, hd, rfl⟩ := Option.map_eq_some_iff.mp hstep
    obtain ⟨hinv, hall, hgrow⟩ := Sender.run_acceptsAll hc h.client h.clientWhole
      (completions_noWrap P s.clientIn.env _)
    exact ⟨hinv, hall, h.c2s.grow hgrow, h.s2c.recv hd⟩

/-- Nothing that was sent is taken back, and only a pass of the server's `Recv` sends
on its stream. -/
theorem step_streams (hc : P.clientKernel.AcceptsAll) (hs : P.serverKernel.AcceptsAll)
    (h₀ : s₀.Opened) (h : Inv P s₀ s) {a : Action} {s' : Session} (hstep : s.step P a = some s') :
    s.clientStream <+: s'.clientStream ∧ s.serverStream <+: s'.serverStream := by
  cases a with
  | client op =>
    obtain ⟨-, -, hgrow⟩ := Sender.step_acceptsAll hc h.client h.clientWhole op.property
    obtain rfl := Option.some.inj hstep
    exact ⟨hgrow, List.prefix_refl _⟩
  | deliverToServer n =>
    obtain ⟨d, hd, rfl⟩ := Option.map_eq_some_iff.mp hstep
    exact ⟨List.prefix_refl _, List.prefix_refl _⟩
  | deliverToClient n =>
    obtain ⟨d, hd, rfl⟩ := Option.map_eq_some_iff.mp hstep
    exact ⟨List.prefix_refl _, List.prefix_refl _⟩
  | serverRecv n =>
    obtain ⟨⟨c, d⟩, hd, rfl⟩ := Option.map_eq_some_iff.mp hstep
    exact ⟨List.prefix_refl _, serverStream_step hs h₀ h hd⟩
  | clientRecv n =>
    obtain ⟨⟨c, d⟩, hd, rfl⟩ := Option.map_eq_some_iff.mp hstep
    obtain ⟨-, -, hgrow⟩ := Sender.run_acceptsAll hc h.client h.clientWhole
      (completions_noWrap P s.clientIn.env _)
    exact ⟨hgrow, List.prefix_refl _⟩

theorem reachable_inv (hc : P.clientKernel.AcceptsAll) (hs : P.serverKernel.AcceptsAll)
    (h₀ : s₀.Opened) (h : Reachable (step P) s₀ s) : Inv P s₀ s :=
  invariant_reachable (step_inv hc hs h₀) h₀.inv h

end Inv

/-- The replies to some batches, in the order in which they go out. -/
theorem replyBatches_flatMap_flatten (replies : List (List (List Byte))) :
    (replies.flatMap replyBatches).flatten = replies.flatten := by
  induction replies with
  | nil => rfl
  | cons ps replies ih =>
    rw [List.flatMap_cons, List.flatten_append, replyBatches_flatten, ih, List.flatten_cons]

/-- In every session over sockets that take all that is sent, whatever the order of
the steps: each return of `DDWGPUServer::HandleCommands` leaves the send buffer empty
and the replies to its batch on the stream, right behind those to the earlier batches;
what the client's handler was given begins the replies to the batches that the server
has handled, and these begin the batches that the client flushed. -/
theorem replies_in_order {P : Peers} (hc : P.clientKernel.AcceptsAll)
    (hs : P.serverKernel.AcceptsAll) {s₀ s : Session} (h₀ : s₀.Opened)
    (h : Reachable (step P) s₀ s) :
    (s.serverIn.env.returns.length = s.serverIn.env.handled.length ∧
      ∀ i r, s.serverIn.env.returns[i]? = some r →
        r.mOffset = 0 ∧ r.stream <+: s.serverStream ∧
          commandsOf r.stream = ((P.repliesTo s.serverIn.env.handled).take (i + 1)).flatten) ∧
    s.clientIn.env.flatten <+: (P.repliesTo s.serverIn.env.handled).flatten.flatten ∧
    s.serverIn.env.handled <+: s.client.flushed := by
  have hinv := reachable_inv hc hs h₀ h
  obtain ⟨hserver, hflushed⟩ := hinv.server hs h₀
  rw [← hserver.handled] at hflushed hserver
  have hsend := Sender.sendable_batches hserver.inv
  have hstream : s.serverStream = s.serverIn.env.sender.batches.flatMap batchBytes :=
    Sender.stream_of_allWhole hserver.inv hserver.allWhole
  refine ⟨⟨hserver.returns_length, ?_⟩, ?_, hflushed⟩
  · intro i r hr
    obtain ⟨hzero, hr⟩ := hserver.returns i r hr
    have htake : ((P.repliesTo s.serverIn.env.handled).take (i + 1)).flatMap replyBatches <+:
        s.serverIn.env.sender.batches := by
      have htaken := List.take_prefix (i + 1) (P.repliesTo s.serverIn.env.handled)
      rw [hserver.batches]
      exact htaken.flatMap _
    refine ⟨hzero, ?_, ?_⟩
    · rw [hr, hstream]
      exact htake.flatMap _
    · rw [hr, commandsOf_batches fun ps hps => hsend ps (htake.subset hps),
        replyBatches_flatMap_flatten]
  · -- batch borders in the replies are of the server's making, so the bytes are compared
    obtain ⟨henv, hcalls⟩ := hinv.s2c.calls h₀.clientIn hsend hstream
    rw [CommandHandler.recorder_after, h₀.clientLog, List.nil_append] at henv
    rw [← henv] at hcalls
    have hflat := hcalls.flatten
    rwa [← List.flatten_flatten, hserver.batches, replyBatches_flatMap_flatten] at hflat

/-- A server that answers every batch with one byte. -/
def answering : Peers where
  clientKernel := fun _ size => .accepted size
  serverKernel := fun _ size => .accepted size
  replies := fun _ _ => [⟨[9], by decide⟩]
  serverAccepts := fun _ _ => true
  clientAccepts := fun _ _ => true
  callbacks := fun _ _ => []

/-- A command goes out in two pieces, and its reply is read in two. -/
def roundTrip : List Action :=
  [.client (.command ⟨[7], by decide⟩), .client .flush, .deliverToServer 20,
    .serverRecv 5, .serverRecv 15, .deliverToServer 5, .serverRecv 5, .deliverToClient 25,
    .clientRecv 24, .clientRecv 1]

theorem roundTrip_runs : (run (step answering) new roundTrip).isSome = true := by decide +kernel

/-- The session behind it. -/
def answered : Session := (run (step answering) new roundTrip).get roundTrip_runs

theorem replies_in_order_answered :
    (answered.serverIn.env.returns.length = answered.serverIn.env.handled.length ∧
      ∀ i r, answered.serverIn.env.returns[i]? = some r →
        r.mOffset = 0 ∧ r.stream <+: answered.serverStream ∧
          commandsOf r.stream =
            ((answering.repliesTo answered.serverIn.env.handled).take (i + 1)).flatten) ∧
    answered.clientIn.env.flatten <+:
      (answering.repliesTo answered.serverIn.env.handled).flatten.flatten ∧
    answered.serverIn.env.handled <+: answered.client.flushed :=
  replies_in_order (fun _ _ => rfl) (fun _ _ => rfl) new_opened
    ⟨roundTrip, (Option.some_get roundTrip_runs).symm⟩

example : answered.serverIn.env.handled = [[7]] ∧ answered.clientIn.env = [[9]] := by
  decide +kernel

end Session

end WebGpuDD
