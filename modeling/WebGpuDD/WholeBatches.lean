import WebGpuDD.Session

/-!
# What has been handled at any moment

A batch is handed over when the last byte of its flush header is read, not earlier and not
later. So how far a direction of the session has been read says which batches its receiver
has handled, in every state and not only behind the whole stream.
-/

namespace WebGpuDD

open LittleEndian CommandTransport Reference Runs

namespace Reference

/-- The first batches whose bytes are all among the first `n` bytes of their stream. -/
def wholeWithin : ℕ → List (List (List Byte)) → List (List (List Byte))
  | _, [] => []
  | n, ps :: batches =>
    if (batchBytes ps).length ≤ n then ps :: wholeWithin (n - (batchBytes ps).length) batches
    else []

section WholeWithin

variable {n : ℕ} {batches : List (List (List Byte))}

theorem wholeWithin_prefix_batches (n : ℕ) (batches : List (List (List Byte))) :
    wholeWithin n batches <+: batches := by
  induction batches generalizing n with
  | nil => exact List.prefix_refl _
  | cons ps batches ih =>
    rw [wholeWithin]
    split
    · exact (List.prefix_cons_inj ps).mpr (ih _)
    · exact List.nil_prefix

/-- All of them are, exactly when the stream is no longer than that. -/
theorem wholeWithin_eq_self_iff :
    wholeWithin n batches = batches ↔ (batches.flatMap batchBytes).length ≤ n := by
  induction batches generalizing n with
  | nil => exact iff_of_true rfl (Nat.zero_le n)
  | cons ps batches ih =>
    rw [wholeWithin, List.flatMap_cons, List.length_append]
    by_cases h : (batchBytes ps).length ≤ n
    · rw [if_pos h, List.cons_inj_right, ih]
      omega
    · rw [if_neg h]
      apply iff_of_false
      · exact (List.cons_ne_nil ps batches).symm
      · omega

/-- The same for what is handed over of them. -/
theorem map_wholeWithin_eq_iff :
    (wholeWithin n batches).map List.flatten = batches.map List.flatten ↔
      (batches.flatMap batchBytes).length ≤ n := by
  rw [← wholeWithin_eq_self_iff]
  constructor
  · intro hmap
    have hlen := congrArg List.length hmap
    rw [List.length_map, List.length_map] at hlen
    exact (wholeWithin_prefix_batches n batches).eq_of_length hlen
  · exact congrArg _

theorem run_take_batches {r : Reference} (hr : r.phase = .header []) (hp : r.pending = [])
    (h : ∀ ps ∈ batches, Sendable ps) (n : ℕ) :
    (r.run ((batches.flatMap batchBytes).take n)).calls =
      r.calls ++ (wholeWithin n batches).map List.flatten := by
  induction batches generalizing r n with
  | nil => simp [wholeWithin]
  | cons ps batches ih =>
    have hps := h ps List.mem_cons_self
    rw [List.flatMap_cons, wholeWithin]
    by_cases hle : (batchBytes ps).length ≤ n
    · have hone : r.run (batchBytes ps) = ⟨.header [], [], r.calls ++ [ps.flatten]⟩ := by
        have hrun := run_batches (r := r) hr hp (fun qs hqs => List.mem_singleton.mp hqs ▸ hps)
        rwa [List.flatMap_singleton, List.map_singleton] at hrun
      rw [List.take_append, List.take_of_length_le hle, run_append, hone, if_pos hle,
        ih rfl rfl fun qs hqs => h qs (List.mem_cons_of_mem ps hqs)]
      simp
    · have hfit : r.pending.length + ps.flatten.length ≤ 2000000 := by
        rw [hp, List.length_nil, Nat.zero_add]
        exact hps.fits
      rw [List.take_append_of_le_length (Nat.le_of_not_le hle), if_neg hle,
        run_take_batch hr hfit (Nat.lt_of_not_le hle)]
      simp

/-- What the parser has handed over behind the first `n` bytes of a stream of batches. -/
theorem parse_take_batches (h : ∀ ps ∈ batches, Sendable ps) (n : ℕ) :
    (parse ((batches.flatMap batchBytes).take n)).calls =
      (wholeWithin n batches).map List.flatten :=
  run_take_batches rfl rfl h n

end WholeWithin

end Reference

theorem Sender.flushed_eq (s : Sender) : s.flushed = s.batches.map List.flatten := by
  rw [flushed, batches, List.map_map]
  rfl

namespace Session

section Exact

variable {P : Peers} {s₀ s : Session}

/-- The server has handled the batches that it has read to their last byte. -/
theorem Inv.handled_eq (hs : P.serverKernel.AcceptsAll) (h₀ : s₀.Opened) (h : Inv P s₀ s) :
    s.serverIn.env.handled = (wholeWithin s.c2s.read s.client.batches).map List.flatten := by
  obtain ⟨hserver, -⟩ := h.server hs h₀
  rw [hserver.handled, h.clientStream, parse_take_batches (Sender.sendable_batches h.client)]

/-- All replies to what the server has handled are on its stream. -/
theorem Inv.serverHandled (hs : P.serverKernel.AcceptsAll) (h₀ : s₀.Opened) (h : Inv P s₀ s) :
    DDWGPUServer.Handled P s.serverIn.env s.serverIn.env.handled := by
  obtain ⟨hserver, -⟩ := h.server hs h₀
  rwa [← hserver.handled] at hserver

theorem Inv.serverStream (hs : P.serverKernel.AcceptsAll) (h₀ : s₀.Opened) (h : Inv P s₀ s) :
    s.serverStream = s.serverIn.env.sender.batches.flatMap batchBytes := by
  have hserver := h.serverHandled hs h₀
  exact Sender.stream_of_allWhole hserver.inv hserver.allWhole

/-- The client has been given the batches of replies that it has read to their last byte. -/
theorem Inv.received_eq (hs : P.serverKernel.AcceptsAll) (h₀ : s₀.Opened) (h : Inv P s₀ s) :
    s.clientIn.env =
      (wholeWithin s.s2c.read s.serverIn.env.sender.batches).map List.flatten := by
  have hsend := Sender.sendable_batches (h.serverHandled hs h₀).inv
  have hstream := h.serverStream hs h₀
  obtain ⟨henv, -⟩ := h.s2c.calls h₀.clientIn hsend hstream
  rw [CommandHandler.recorder_after, h₀.clientLog, List.nil_append, hstream,
    parse_take_batches hsend] at henv
  exact henv

/-- Nothing that was flushed is unhandled, exactly when all of the stream is read. -/
theorem Inv.handled_all_iff (hs : P.serverKernel.AcceptsAll) (h₀ : s₀.Opened) (h : Inv P s₀ s) :
    s.serverIn.env.handled = s.client.flushed ↔ s.c2s.read = s.clientStream.length := by
  have hle := h.c2s.read_le.trans h.c2s.arrived_le
  rw [h.handled_eq hs h₀, Sender.flushed_eq, map_wholeWithin_eq_iff, ← h.clientStream]
  omega

theorem Inv.received_all_iff (hs : P.serverKernel.AcceptsAll) (h₀ : s₀.Opened)
    (h : Inv P s₀ s) :
    s.clientIn.env = s.serverIn.env.sender.flushed ↔ s.s2c.read = s.serverStream.length := by
  have hle := h.s2c.read_le.trans h.s2c.arrived_le
  rw [h.received_eq hs h₀, Sender.flushed_eq, map_wholeWithin_eq_iff, ← h.serverStream hs h₀]
  omega

end Exact

/-- In every session over sockets that take all that is sent, whatever the order of the
steps: the server has handled exactly the batches that it has read to the last byte of
their flush header and has sent every reply to them, and the client has been given exactly
the batches of replies that it has read so far. So nothing that was flushed is outstanding
in a direction, if and only if it is read to the end. -/
theorem handled_exactly {P : Peers} (hc : P.clientKernel.AcceptsAll)
    (hs : P.serverKernel.AcceptsAll) {s₀ s : Session} (h₀ : s₀.Opened)
    (h : Reachable (step P) s₀ s) :
    s.serverIn.env.handled = (wholeWithin s.c2s.read s.client.batches).map List.flatten ∧
    s.serverIn.env.sender.batches = (P.repliesTo s.serverIn.env.handled).flatMap replyBatches ∧
    s.clientIn.env = (wholeWithin s.s2c.read s.serverIn.env.sender.batches).map List.flatten ∧
    (s.serverIn.env.handled = s.client.flushed ↔ s.c2s.read = s.clientStream.length) ∧
    (s.clientIn.env = s.serverIn.env.sender.flushed ↔ s.s2c.read = s.serverStream.length) := by
  have hinv := reachable_inv hc hs h₀ h
  exact ⟨hinv.handled_eq hs h₀, (hinv.serverHandled hs h₀).batches, hinv.received_eq hs h₀,
    hinv.handled_all_iff hs h₀, hinv.received_all_iff hs h₀⟩

/-- The session of one command and its reply. -/
theorem handled_exactly_answered :
    answered.serverIn.env.handled =
      (wholeWithin answered.c2s.read answered.client.batches).map List.flatten ∧
    answered.serverIn.env.sender.batches =
      (answering.repliesTo answered.serverIn.env.handled).flatMap replyBatches ∧
    answered.clientIn.env =
      (wholeWithin answered.s2c.read answered.serverIn.env.sender.batches).map List.flatten ∧
    (answered.serverIn.env.handled = answered.client.flushed ↔
      answered.c2s.read = answered.clientStream.length) ∧
    (answered.clientIn.env = answered.serverIn.env.sender.flushed ↔
      answered.s2c.read = answered.serverStream.length) :=
  handled_exactly (fun _ _ => rfl) (fun _ _ => rfl) new_opened
    ⟨roundTrip, (Option.some_get roundTrip_runs).symm⟩

end Session

end WebGpuDD
