import WebGpuDD.BatchQueues

/-!
# Every run of the queues is one of a session

The queues promise no more than a session keeps. What waits in a queue is on the stream of
its sender, so a session can bring it to the receiver and read on to its last byte, as many
bytes at a time as the receiver has room for; on the way there nothing else is handled.
-/

namespace WebGpuDD

open LittleEndian CommandTransport Reference Runs

namespace Reference

theorem wholeWithin_mono {m n : ℕ} (h : m ≤ n) (batches : List (List (List Byte))) :
    wholeWithin m batches <+: wholeWithin n batches := by
  induction batches generalizing m n with
  | nil => exact List.prefix_refl _
  | cons ps batches ih =>
    rw [wholeWithin, wholeWithin]
    by_cases hm : (batchBytes ps).length ≤ m
    · rw [if_pos hm, if_pos (hm.trans h)]
      exact (List.prefix_cons_inj ps).mpr (ih (Nat.sub_le_sub_right h _))
    · rw [if_neg hm]
      exact List.nil_prefix

/-- Where the bytes of the first `k` batches end, these are whole and no others. -/
theorem wholeWithin_take (k : ℕ) (batches : List (List (List Byte))) :
    wholeWithin ((batches.take k).flatMap batchBytes).length batches = batches.take k := by
  induction batches generalizing k with
  | nil => rw [List.take_nil, wholeWithin]
  | cons ps batches ih =>
    cases k with
    | zero =>
      have hlen : 0 < (batchBytes ps).length := by
        rw [batchBytes_length]
        omega
      rw [List.take_zero, List.flatMap_nil, List.length_nil, wholeWithin, if_neg (by omega)]
    | succ k =>
      rw [List.take_succ_cons, List.flatMap_cons, List.length_append, wholeWithin,
        if_pos (Nat.le_add_right _ _), Nat.add_sub_cancel_left, ih]

end Reference

/-- `recv(2)` returns what there is room for, and no more than is asked for. -/
theorem Direction.recv_towards {stream : List Byte} {d : Direction} {m : ℕ} (hread : d.read < m)
    (harrived : m ≤ d.arrived) (hsent : d.arrived ≤ stream.length) :
    ∃ n c, 0 < n ∧ d.read + n ≤ m ∧
      d.recv stream n = some (c, { d with read := d.read + n }) := by
  have hlen : ((stream.drop d.read).take (min 65536 (m - d.read))).length =
      min 65536 (m - d.read) := by
    rw [List.length_take, List.length_drop]
    omega
  have hne : (stream.drop d.read).take (min 65536 (m - d.read)) ≠ [] := by
    apply List.ne_nil_of_length_pos
    omega
  refine ⟨min 65536 (m - d.read), ⟨_, hne, by omega⟩, by omega, by omega, ?_⟩
  rw [recv, dif_pos ⟨by omega, hne, by omega⟩]

namespace Session

section Complete

variable {P : Peers} {s₀ s : Session} {m : ℕ}

/-- A pass of the server's `Recv` that reads no further than `m`. -/
theorem serverRecv_towards (hc : P.clientKernel.AcceptsAll) (hs : P.serverKernel.AcceptsAll)
    (h₀ : s₀.Opened) (h : Inv P s₀ s) (hread : s.c2s.read < m) (harrived : m ≤ s.c2s.arrived) :
    ∃ n s' k, (Inv P s₀ s' ∧ s'.client = s.client ∧ s'.c2s.arrived = s.c2s.arrived) ∧
      s.c2s.read < s'.c2s.read ∧ s'.c2s.read ≤ m ∧
      s'.serverIn.env.handled.length = s.serverIn.env.handled.length + k ∧
      Matched (step P) (BatchQueues.step P) (shows P) BatchQueues.shows s s' s.queues s'.queues
        [.serverRecv n] (List.replicate k .serve) := by
  obtain ⟨n, c, hpos, hle, hrecv⟩ := Direction.recv_towards hread harrived h.c2s.arrived_le
  have hstep : s.step P (.serverRecv n) = some { s with
      serverIn := s.serverIn.step (DDWGPUServer.handler P) (.data c)
      c2s := { s.c2s with read := s.c2s.read + n } } := by
    rw [step, hrecv, Option.map_some]
  obtain ⟨k, hrun, hcount, htrace⟩ := serverRecv_queues hc hs h₀ h hstep
  refine ⟨n, _, k, ⟨step_inv hc hs h₀ _ _ _ h hstep, rfl, rfl⟩, ?_, hle, hcount,
    Matched.single hstep hrun htrace⟩
  exact Nat.lt_add_of_pos_right hpos

theorem clientRecv_towards (hc : P.clientKernel.AcceptsAll) (hs : P.serverKernel.AcceptsAll)
    (h₀ : s₀.Opened) (h : Inv P s₀ s) (hread : s.s2c.read < m) (harrived : m ≤ s.s2c.arrived) :
    ∃ n s' k, (Inv P s₀ s' ∧ s'.serverIn = s.serverIn ∧ s'.s2c.arrived = s.s2c.arrived) ∧
      s.s2c.read < s'.s2c.read ∧ s'.s2c.read ≤ m ∧
      s'.clientIn.env.length = s.clientIn.env.length + k ∧
      Matched (step P) (BatchQueues.step P) (shows P) BatchQueues.shows s s' s.queues s'.queues
        [.clientRecv n] (List.replicate k .receive) := by
  obtain ⟨n, c, hpos, hle, hrecv⟩ := Direction.recv_towards hread harrived h.s2c.arrived_le
  have hstep : s.step P (.clientRecv n) = some { s.clientPass P c with
      s2c := { s.s2c with read := s.s2c.read + n } } := by
    rw [step, hrecv, Option.map_some]
  obtain ⟨k, hrun, hcount, htrace⟩ := clientRecv_queues hc hs h₀ h hstep
  refine ⟨n, _, k, ⟨step_inv hc hs h₀ _ _ _ h hstep, rfl, rfl⟩, ?_, hle, hcount,
    Matched.single hstep hrun htrace⟩
  exact Nat.lt_add_of_pos_right hpos

/-- Bytes arrive up to `m`. -/
theorem deliverToServer_upTo (hc : P.clientKernel.AcceptsAll) (hs : P.serverKernel.AcceptsAll)
    (h₀ : s₀.Opened) (h : Inv P s₀ s) (hm : m ≤ s.clientStream.length) :
    ∃ as s', Inv P s₀ s' ∧ s'.client = s.client ∧ s'.serverIn = s.serverIn ∧
      s'.c2s.read = s.c2s.read ∧ m ≤ s'.c2s.arrived ∧
      Matched (step P) (BatchQueues.step P) (shows P) BatchQueues.shows s s' s.queues s'.queues
        as [] := by
  rcases Nat.lt_or_ge s.c2s.arrived m with hlt | hge
  · have hstep : s.step P (.deliverToServer (m - s.c2s.arrived)) =
        some { s with c2s := { s.c2s with arrived := m } } := by
      rw [step, Direction.deliver_upTo hlt hm, Option.map_some]
    exact ⟨_, _, step_inv hc hs h₀ _ _ _ h hstep, rfl, rfl, rfl, le_refl m,
      Matched.single hstep rfl rfl⟩
  · exact ⟨[], s, h, rfl, rfl, rfl, hge, Matched.nil s _⟩

theorem deliverToClient_upTo (hc : P.clientKernel.AcceptsAll) (hs : P.serverKernel.AcceptsAll)
    (h₀ : s₀.Opened) (h : Inv P s₀ s) (hm : m ≤ s.serverStream.length) :
    ∃ as s', Inv P s₀ s' ∧ s'.serverIn = s.serverIn ∧ s'.clientIn = s.clientIn ∧
      s'.s2c.read = s.s2c.read ∧ m ≤ s'.s2c.arrived ∧
      Matched (step P) (BatchQueues.step P) (shows P) BatchQueues.shows s s' s.queues s'.queues
        as [] := by
  rcases Nat.lt_or_ge s.s2c.arrived m with hlt | hge
  · have hstep : s.step P (.deliverToClient (m - s.s2c.arrived)) =
        some { s with s2c := { s.s2c with arrived := m } } := by
      rw [step, Direction.deliver_upTo hlt hm, Option.map_some]
    exact ⟨_, _, step_inv hc hs h₀ _ _ _ h hstep, rfl, rfl, rfl, le_refl m,
      Matched.single hstep rfl rfl⟩
  · exact ⟨[], s, h, rfl, rfl, rfl, hge, Matched.nil s _⟩

/-- How far a stream has to be read until one more of its batches is whole. -/
theorem exists_read_to {read : ℕ} {batches : List (List (List Byte))}
    (h : (wholeWithin read batches).length < batches.length) :
    ∃ m, read < m ∧ m ≤ (batches.flatMap batchBytes).length ∧
      (wholeWithin m batches).length = (wholeWithin read batches).length + 1 := by
  have htake := wholeWithin_take ((wholeWithin read batches).length + 1) batches
  have hfirst := List.take_prefix ((wholeWithin read batches).length + 1) batches
  refine ⟨_, ?_, (hfirst.flatMap batchBytes).length_le, ?_⟩
  · by_contra hread
    have hle := (wholeWithin_mono (Nat.le_of_not_lt hread) batches).length_le
    rw [htake, List.length_take] at hle
    omega
  · rw [htake, List.length_take]
    omega

/-- The session takes the first batch off the server's queue. -/
theorem exists_serve (hc : P.clientKernel.AcceptsAll) (hs : P.serverKernel.AcceptsAll)
    (h₀ : s₀.Opened) (h : Inv P s₀ s) {q : BatchQueues} (hq : s.queues.step P .serve = some q) :
    ∃ as s', Inv P s₀ s' ∧ s'.queues = q ∧
      Matched (step P) (BatchQueues.step P) (shows P) BatchQueues.shows s s' s.queues s'.queues
        as [.serve] := by
  have hhandled := h.handled_eq hs h₀
  have hwaits : s.serverIn.env.handled.length < s.client.flushed.length := by
    by_contra hle
    have hnone : s.queues.outbox.queue = [] := List.drop_of_length_le (Nat.le_of_not_lt hle)
    simp [BatchQueues.step, hnone] at hq
  obtain ⟨m, hread, hm, hwhole⟩ : ∃ m, s.c2s.read < m ∧ m ≤ s.clientStream.length ∧
      (wholeWithin m s.client.batches).length = s.serverIn.env.handled.length + 1 := by
    rw [hhandled, Sender.flushed_eq, List.length_map, List.length_map] at hwaits
    rw [hhandled, List.length_map, h.clientStream]
    exact exists_read_to hwaits
  obtain ⟨as, t, ht, hclient, hserverIn, htread, harrived, hdeliver⟩ :=
    deliverToServer_upTo hc hs h₀ h hm
  obtain ⟨bs, s', k, ⟨hs', hclient', -⟩, hpos, hcount, hmatched⟩ :=
    exists_matched_to
      (fun u => Inv P s₀ u ∧ u.client = t.client ∧ u.c2s.arrived = t.c2s.arrived)
      (fun u => u.c2s.read) (fun u => u.serverIn.env.handled.length) Session.queues (by
        rintro u ⟨hu, huclient, huarrived⟩ huread
        obtain ⟨n, u', k, ⟨hu', hc', ha'⟩, hrest⟩ :=
          serverRecv_towards hc hs h₀ hu huread (huarrived ▸ harrived)
        exact ⟨_, u', k, ⟨hu', hc'.trans huclient, ha'.trans huarrived⟩, hrest⟩)
      ⟨ht, rfl, rfl⟩ (htread.le.trans hread.le)
  -- exactly one batch ends on the way
  have hk : k = 1 := by
    simp only [hserverIn] at hcount
    rw [hs'.handled_eq hs h₀, List.length_map, hpos, hclient', hclient, hwhole] at hcount
    omega
  subst hk
  have hall := hdeliver.trans hmatched
  refine ⟨_, s', hs', ?_, hall⟩
  have hright := hall.right
  rw [List.nil_append, List.replicate_one, Runs.run_cons, hq] at hright
  exact (Option.some.inj hright).symm

/-- The same for the client's queue. -/
theorem exists_receive (hc : P.clientKernel.AcceptsAll) (hs : P.serverKernel.AcceptsAll)
    (h₀ : s₀.Opened) (h : Inv P s₀ s) {q : BatchQueues}
    (hq : s.queues.step P .receive = some q) :
    ∃ as s', Inv P s₀ s' ∧ s'.queues = q ∧
      Matched (step P) (BatchQueues.step P) (shows P) BatchQueues.shows s s' s.queues s'.queues
        as [.receive] := by
  have hreceived := h.received_eq hs h₀
  have hwaits : s.clientIn.env.length < s.serverIn.env.sender.flushed.length := by
    by_contra hle
    have hnone : s.queues.toClient = [] := List.drop_of_length_le (Nat.le_of_not_lt hle)
    simp [BatchQueues.step, hnone] at hq
  obtain ⟨m, hread, hm, hwhole⟩ : ∃ m, s.s2c.read < m ∧ m ≤ s.serverStream.length ∧
      (wholeWithin m s.serverIn.env.sender.batches).length = s.clientIn.env.length + 1 := by
    rw [hreceived, Sender.flushed_eq, List.length_map, List.length_map] at hwaits
    rw [hreceived, List.length_map, h.serverStream hs h₀]
    exact exists_read_to hwaits
  obtain ⟨as, t, ht, hserverIn, hclientIn, htread, harrived, hdeliver⟩ :=
    deliverToClient_upTo hc hs h₀ h hm
  obtain ⟨bs, s', k, ⟨hs', hserverIn', -⟩, hpos, hcount, hmatched⟩ :=
    exists_matched_to
      (fun u => Inv P s₀ u ∧ u.serverIn = t.serverIn ∧ u.s2c.arrived = t.s2c.arrived)
      (fun u => u.s2c.read) (fun u => u.clientIn.env.length) Session.queues (by
        rintro u ⟨hu, huserver, huarrived⟩ huread
        obtain ⟨n, u', k, ⟨hu', hs', ha'⟩, hrest⟩ :=
          clientRecv_towards hc hs h₀ hu huread (huarrived ▸ harrived)
        exact ⟨_, u', k, ⟨hu', hs'.trans huserver, ha'.trans huarrived⟩, hrest⟩)
      ⟨ht, rfl, rfl⟩ (htread.le.trans hread.le)
  have hk : k = 1 := by
    simp only [hclientIn] at hcount
    rw [hs'.received_eq hs h₀, List.length_map, hpos, hserverIn', hserverIn, hwhole] at hcount
    omega
  subst hk
  have hall := hdeliver.trans hmatched
  refine ⟨_, s', hs', ?_, hall⟩
  have hright := hall.right
  rw [List.nil_append, List.replicate_one, Runs.run_cons, hq] at hright
  exact (Option.some.inj hright).symm

theorem queues_simulation (hc : P.clientKernel.AcceptsAll) (hs : P.serverKernel.AcceptsAll)
    (h₀ : s₀.Opened) :
    Simulation (BatchQueues.step P) (step P) BatchQueues.shows (shows P)
      fun q s => Inv P s₀ s ∧ s.queues = q := by
  rintro q b q' s ⟨hinv, rfl⟩ hstep
  cases b with
  | client op =>
    have hsession : s.step P (.client op) =
        some { s with client := s.client.step P.clientKernel op.val } := rfl
    have hqueues := client_queues hc hs h₀ hinv hsession
    rw [hstep] at hqueues
    refine ⟨[.client op], _, ?_, ⟨step_inv hc hs h₀ _ _ _ hinv hsession, ?_⟩, rfl⟩
    · rw [Runs.run_cons, hsession, Option.bind_some, Runs.run_nil]
    · exact (Option.some.inj hqueues).symm
  | serve =>
    obtain ⟨as, s', hs', hq, hmatched⟩ := exists_serve hc hs h₀ hinv hstep
    refine ⟨as, s', hmatched.left, ⟨hs', hq⟩, ?_⟩
    rw [← hmatched.same, trace_cons hstep, trace_nil, List.append_nil]
  | receive =>
    obtain ⟨as, s', hs', hq, hmatched⟩ := exists_receive hc hs h₀ hinv hstep
    refine ⟨as, s', hmatched.left, ⟨hs', hq⟩, ?_⟩
    rw [← hmatched.same, trace_cons hstep, trace_nil, List.append_nil]

end Complete

/-- The queues show nothing that a session does not: every run of the queues has a run of
the session, over the same sockets, that shows the same calls and the same batches handled
and received, in the same order, and that ends with the same queues. -/
theorem queues_refine {P : Peers} (hc : P.clientKernel.AcceptsAll)
    (hs : P.serverKernel.AcceptsAll) {s₀ : Session} (h₀ : s₀.Opened) {q : BatchQueues}
    {bs : List BatchQueues.Action}
    (h : Runs.run (BatchQueues.step P) BatchQueues.init bs = some q) :
    ∃ as s, Runs.run (step P) s₀ as = some s ∧ s.queues = q ∧
      trace (step P) (shows P) s₀ as =
        trace (BatchQueues.step P) BatchQueues.shows BatchQueues.init bs := by
  obtain ⟨as, s, hrun, ⟨-, hq⟩, htrace⟩ :=
    (queues_simulation hc hs h₀).run ⟨h₀.inv, h₀.queues⟩ h
  exact ⟨as, s, hrun, hq, htrace⟩

/-- One command through both queues. -/
def onceAround : List BatchQueues.Action :=
  [.client (.command ⟨[3, 4], by decide⟩), .client .flush, .serve, .receive]

theorem onceAround_runs :
    (Runs.run (BatchQueues.step answering) BatchQueues.init onceAround).isSome = true := by decide

theorem queues_refine_onceAround :
    ∃ as s, Runs.run (step answering) new as = some s ∧
      s.queues = (Runs.run (BatchQueues.step answering) BatchQueues.init onceAround).get
        onceAround_runs ∧
      trace (step answering) (shows answering) new as =
        trace (BatchQueues.step answering) BatchQueues.shows BatchQueues.init onceAround :=
  queues_refine (fun _ _ => rfl) (fun _ _ => rfl) new_opened
    (Option.some_get onceAround_runs).symm

end Session

end WebGpuDD
