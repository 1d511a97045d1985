import WebGpuDD.BatchStream
import WebGpuDD.Sender

/-!
# End-to-end delivery

On a connection whose `send(2)` calls accept everything, the peer's handler is called
once for each flush that had something to send, with the payloads reserved for it.
-/

namespace WebGpuDD

open LittleEndian CommandTransport

/-- The batches that the operations flush, behind the payloads already reserved: at
every flush with something pending, and where a command and a flush header do not fit
behind the frames of what is pending. -/
def batchesOf (pending : List (List Byte)) : List SendOp → List (List (List Byte))
  | [] => []
  | .flush :: ops =>
    if pending = [] then batchesOf [] ops else pending :: batchesOf [] ops
  | .command payload :: ops =>
    if 2000000 < (frames pending).length + (frame payload).length + flushHeader.length then
      pending :: batchesOf [payload] ops
    else batchesOf (pending ++ [payload]) ops

/-- Commands of an admissible size do not wrap. -/
theorem noWrap_of_size {ops : List SendOp}
    (hops : ∀ p, .command p ∈ ops → p.length ≤ SendBuffer.getMaximumAllocationSize) :
    ∀ op ∈ ops, op.NoWrap := by
  intro op hop
  cases op with
  | flush => trivial
  | command p =>
    have hp := hops p hop
    unfold SendBuffer.getMaximumAllocationSize at hp
    simp only [SendOp.NoWrap]
    omega

namespace Sender

section AcceptsAll

variable {k : Kernel} {s : Sender}

/-- Every flush so far was taken whole. -/
def AllWhole (s : Sender) : Prop := ∀ f ∈ s.flushes, f.Whole

/-- The payloads of the flushes so far. -/
def batches (s : Sender) : List (List (List Byte)) := s.flushes.map FlushRecord.payloads

theorem flushRecord_whole (hk : k.AcceptsAll) (h : s.Inv) (hne : s.pending ≠ []) :
    (s.flushRecord k s.pending).Whole := by
  have hresult : (s.flushRecord k s.pending).result = true := by
    simp [flushRecord, send_acceptsAll hk (batchBytes s.pending) h.opened]
  obtain ⟨hok, -⟩ := flushRecord_ok hk.wholeOrFail h.opened h.holds hne
  rcases hok.outcome with hwhole | ⟨soff, hcut⟩
  · exact hwhole
  · rw [hcut.result] at hresult
    cases hresult

theorem flush_acceptsAll (hk : k.AcceptsAll) (h : s.Inv) (hall : s.AllWhole) :
    (s.flush k).1 = true ∧ (s.flush k).2.AllWhole ∧
      (s.flush k).2.batches = s.batches ++ if s.pending = [] then [] else [s.pending] := by
  by_cases hne : s.pending = []
  · rw [flush_of_empty h.holds hne, if_pos hne, List.append_nil]
    exact ⟨rfl, hall, rfl⟩
  · have hwhole := flushRecord_whole hk h hne
    rw [flush_of_pending h.holds hne, if_neg hne]
    refine ⟨hwhole.result, ?_, by simp [batches, flushRecord]⟩
    intro f hf
    rcases List.mem_append.mp hf with hf | hf
    · exact hall f hf
    · exact List.mem_singleton.mp hf ▸ hwhole

/-- The command is reserved in any case; what had to make room for it was flushed. -/
theorem command_acceptsAll (hk : k.AcceptsAll) (h : s.Inv) (hall : s.AllWhole)
    {payload : List Byte} (hs : payload.length ≤ SendBuffer.getMaximumAllocationSize) :
    (s.command k payload).1 = true ∧ (s.command k payload).2.AllWhole ∧
      (if s.buf.full payload.length then
        (s.command k payload).2.batches = s.batches ++ [s.pending] ∧
          (s.command k payload).2.pending = [payload]
      else
        (s.command k payload).2.batches = s.batches ∧
          (s.command k payload).2.pending = s.pending ++ [payload]) := by
  cases hf : s.buf.full payload.length with
  | false =>
    obtain ⟨buf, -, hcommand⟩ := command_of_not_full (k := k) h.holds hs hf
    rw [hcommand]
    exact ⟨rfl, hall, by simp [batches]⟩
  | true =>
    -- an empty buffer is never too full, so there was something to flush
    have hne : s.pending ≠ [] := by
      intro hnil
      have hoff := h.holds.eq_nil_iff.mpr hnil
      rw [not_full_of_empty hoff hs] at hf
      cases hf
    obtain ⟨hflush, hall', hbatches⟩ := flush_acceptsAll hk h hall
    rw [if_neg hne] at hbatches
    have hinv := flush_inv hk.wholeOrFail h
    have hpending := flush_pending (k := k) h.holds
    have hf' := not_full_of_empty (hinv.holds.eq_nil_iff.mpr hpending) hs
    obtain ⟨buf, -, hcommand⟩ := command_of_not_full (k := k) hinv.holds hs hf'
    rw [command_of_full hs hf, if_pos hflush, hcommand, if_pos rfl, hpending]
    exact ⟨rfl, hall', hbatches, rfl⟩

theorem run_batches (hk : k.AcceptsAll) (h : s.Inv) (hall : s.AllWhole) {ops : List SendOp}
    (hops : ∀ p, .command p ∈ ops → p.length ≤ SendBuffer.getMaximumAllocationSize) :
    (s.run k ops).AllWhole ∧ (s.run k ops).batches = s.batches ++ batchesOf s.pending ops := by
  induction ops generalizing s with
  | nil => exact ⟨hall, by simp [batchesOf]⟩
  | cons op ops ih =>
    have hrest : ∀ p, .command p ∈ ops → p.length ≤ SendBuffer.getMaximumAllocationSize :=
      fun p hp => hops p (List.mem_cons_of_mem op hp)
    rw [run_cons]
    cases op with
    | flush =>
      obtain ⟨-, hall', hbatches⟩ := flush_acceptsAll hk h hall
      obtain ⟨hwhole, hrun⟩ := ih (flush_inv hk.wholeOrFail h) hall' hrest
      refine ⟨hwhole, ?_⟩
      simp only [step] at hrun ⊢
      rw [hrun, hbatches, flush_pending h.holds, batchesOf]
      split <;> simp
    | command payload =>
      have hs := hops payload List.mem_cons_self
      have hw := noWrap_of_size hops _ List.mem_cons_self
      have hfull : s.buf.full payload.length = true ↔
          2000000 < (frames s.pending).length + (frame payload).length + flushHeader.length := by
        rw [SendBuffer.full_iff hs, h.holds.offset, frame_length, flushHeader_length]
        omega
      obtain ⟨-, hall', hcommand⟩ := command_acceptsAll hk h hall hs
      obtain ⟨hwhole, hrun⟩ := ih (command_inv hk.wholeOrFail h hw) hall' hrest
      refine ⟨hwhole, ?_⟩
      simp only [step] at hrun ⊢
      rw [hrun, batchesOf]
      by_cases hf : s.buf.full payload.length = true
      · rw [if_pos hf] at hcommand
        rw [if_pos (hfull.mp hf), hcommand.1, hcommand.2]
        simp
      · rw [if_neg hf] at hcommand
        rw [if_neg (hfull.not.mp hf), hcommand.1, hcommand.2]

/-- The stream of a sender whose flushes were all taken whole. -/
theorem stream_of_allWhole (h : s.Inv) (hall : s.AllWhole) :
    s.conn.stream = s.batches.flatMap batchBytes := by
  rw [h.stream, batches, List.flatMap_map]
  exact List.flatMap_congr fun f hf => (hall f hf).accepted

/-- Nothing that was sent is taken back. -/
theorem step_acceptsAll (hk : k.AcceptsAll) (h : s.Inv) (hall : s.AllWhole) {op : SendOp}
    (hop : op.NoWrap) :
    (s.step k op).Inv ∧ (s.step k op).AllWhole ∧ s.conn.stream <+: (s.step k op).conn.stream := by
  have hinv := step_inv hk.wholeOrFail h hop
  suffices hgrow : (s.step k op).AllWhole ∧ ∃ more, (s.step k op).batches = s.batches ++ more by
    obtain ⟨hall', more, hbatches⟩ := hgrow
    refine ⟨hinv, hall', more.flatMap batchBytes, ?_⟩
    rw [stream_of_allWhole hinv hall', stream_of_allWhole h hall, hbatches, List.flatMap_append]
  cases op with
  | flush =>
    obtain ⟨-, hall', hbatches⟩ := flush_acceptsAll hk h hall
    exact ⟨hall', _, hbatches⟩
  | command payload =>
    simp only [step]
    by_cases hs : payload.length ≤ SendBuffer.getMaximumAllocationSize
    · obtain ⟨-, hall', hcommand⟩ := command_acceptsAll hk h hall hs
      apply And.intro hall'
      split at hcommand
      · exact ⟨_, hcommand.1⟩
      · exact ⟨[], by rw [hcommand.1, List.append_nil]⟩
    · rw [command_of_tooLarge (SendBuffer.tooLarge_eq_true (by omega) hop)]
      exact ⟨hall, [], by rw [List.append_nil]⟩

theorem run_acceptsAll (hk : k.AcceptsAll) (h : s.Inv) (hall : s.AllWhole) {ops : List SendOp}
    (hops : ∀ op ∈ ops, op.NoWrap) :
    (s.run k ops).Inv ∧ (s.run k ops).AllWhole ∧ s.conn.stream <+: (s.run k ops).conn.stream := by
  induction ops generalizing s with
  | nil => exact ⟨h, hall, List.prefix_refl _⟩
  | cons op ops ih =>
    obtain ⟨hinv, hall', hgrow⟩ := step_acceptsAll hk h hall (hops op List.mem_cons_self)
    obtain ⟨hinv', hall'', hgrow'⟩ :=
      ih hinv hall' fun op' hop' => hops op' (List.mem_cons_of_mem op hop')
    rw [run_cons]
    exact ⟨hinv', hall'', hgrow.trans hgrow'⟩

theorem sendable_batches (h : s.Inv) : ∀ ps ∈ s.batches, Reference.Sendable ps := by
  intro ps hps
  obtain ⟨f, hf, rfl⟩ := List.mem_map.mp hps
  exact (h.records f hf).room

end AcceptsAll

end Sender

/-! ## Delivery -/

/-- The stream of a sender on a connection that takes everything. -/
theorem stream_eq_batches {k : Kernel} (hk : k.AcceptsAll) (s : Sender) (hs : s.Fresh)
    (ops : List SendOp)
    (hops : ∀ p, .command p ∈ ops → p.length ≤ SendBuffer.getMaximumAllocationSize) :
    (s.run k ops).conn.stream = (batchesOf [] ops).flatMap batchBytes ∧
      ∀ ps ∈ batchesOf [] ops, Reference.Sendable ps := by
  have hinv := Sender.run_inv hk.wholeOrFail hs.inv (noWrap_of_size hops)
  have hnew : s.AllWhole := by
    intro f hf
    simp [hs.flushes] at hf
  obtain ⟨hall, hbatches⟩ := Sender.run_batches hk hs.inv hnew hops
  have hnone : s.batches = [] := by simp [Sender.batches, hs.flushes]
  have hsend := Sender.sendable_batches hinv
  rw [hbatches, hnone, hs.pending, List.nil_append] at hsend
  rw [Sender.stream_of_allWhole hinv hall, hbatches, hnone, hs.pending, List.nil_append]
  exact ⟨rfl, hsend⟩

/-- Whatever is reserved and flushed, and however the stream is cut into reads, the
peer's handler is called once for each batch, in order, with its payloads; every
reservation of the receive buffer is granted at once. -/
theorem commands_delivered {k : Kernel} (hk : k.AcceptsAll) (s : Sender) (hs : s.Fresh)
    (ops : List SendOp)
    (hops : ∀ p, .command p ∈ ops → p.length ≤ SendBuffer.getMaximumAllocationSize)
    (answer : List (List Byte) → List Byte → Bool) (r : Recv (List (List Byte)))
    (hr : r.Entered) (hlog : r.env = []) (reads : List Received)
    (hreads : receivedBytes reads = (s.run k ops).conn.stream) :
    (r.run (CommandHandler.recorder answer) reads).env = (batchesOf [] ops).map List.flatten ∧
      ∀ q ∈ (r.run (CommandHandler.recorder answer) reads).reservations,
        q.result.isSome ∧ q.mOffset + q.size ≤ 2000000 := by
  obtain ⟨hstream, hsend⟩ := stream_eq_batches hk s hs ops hops
  rw [hstream] at hreads
  obtain ⟨henv, hres⟩ := Recv.run_of_fits (H := CommandHandler.recorder answer) hr reads
    (hreads ▸ Reference.fits_batches hsend)
  refine ⟨?_, hres⟩
  rw [henv, CommandHandler.recorder_after, hlog, List.nil_append, hreads,
    Reference.parse_batches hsend]

theorem commandFlush_size : ∀ p, .command p ∈ [SendOp.command [7], .flush] →
    p.length ≤ SendBuffer.getMaximumAllocationSize := by
  intro p hp
  simp only [List.mem_cons, SendOp.command.injEq, reduceCtorEq, List.not_mem_nil,
    or_false] at hp
  subst hp
  decide

/-- One command and a flush, read in two pieces. -/
theorem commands_delivered_splitReads :
    ((Recv.enter []).run (CommandHandler.recorder fun _ _ => true) Recv.splitReads).env =
        (batchesOf [] [.command [7], .flush]).map List.flatten ∧
      ∀ q ∈ ((Recv.enter []).run (CommandHandler.recorder fun _ _ => true)
          Recv.splitReads).reservations, q.result.isSome ∧ q.mOffset + q.size ≤ 2000000 :=
  commands_delivered (k := fun _ size => .accepted size) (fun _ _ => rfl) (Sender.new 3)
    (Sender.new_fresh (by decide)) [.command [7], .flush] commandFlush_size
    (fun _ _ => true) (Recv.enter []) (Recv.enter_entered []) rfl Recv.splitReads
    (by decide +kernel)

end WebGpuDD
