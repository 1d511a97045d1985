import WebGpuDD.BatchStream
import WebGpuDD.Sender

/-!
# Batches across failed sends

A `send(2)` that fails behind the first chunk of a batch leaves the beginning of the
batch on the stream; `Send` returns, `Flush` starts over at offset 0, and what is
flushed next is read by the peer as the rest of that batch. Batches stay intact as
long as nothing is accepted behind such a failure.
-/

namespace WebGpuDD

open LittleEndian CommandTransport Recv
open Reference (parse Sendable)

/-- The payloads of the flushes that were taken whole. -/
def wholeBatches (fs : List FlushRecord) : List (List (List Byte)) :=
  (fs.filter FlushRecord.result).map FlushRecord.payloads

/-- What the peer receives are flushed batches: each call of the handler is one of
them, in flush order, only batches whose flush failed are missing once all is read, and no
header and no command continues from the bytes of one flush into those of a later one. -/
structure BatchesIntact (s : Sender) (answer : List (List Byte) → List Byte → Bool)
    (r : Recv (List (List Byte))) : Prop where
  batches : ∀ reads, receivedBytes reads <+: s.conn.stream →
    (r.run (CommandHandler.recorder answer) reads).env.Sublist s.flushed
  delivered : ∀ reads, receivedBytes reads = s.conn.stream →
    ((wholeBatches s.flushes).map List.flatten).Sublist
      (r.run (CommandHandler.recorder answer) reads).env
  unmixed : ∀ pre post, s.flushes = pre ++ post → post.flatMap FlushRecord.accepted ≠ [] →
    ∀ reads, receivedBytes reads = pre.flatMap FlushRecord.accepted →
      (r.run (CommandHandler.recorder answer) reads).BetweenFrames

/-- Behind a call that failed with a part of its batch already accepted, every call
fails. -/
def CutIsLast (calls : List SendCall) : Prop :=
  ∀ pre c post, calls = pre ++ c :: post → c.Failed → c.soff ≠ 0 → ∀ c' ∈ post, c'.Failed

section Flushes

variable {fs post : List FlushRecord}

theorem wholeBatches_sublist (fs : List FlushRecord) :
    (wholeBatches fs).Sublist (fs.map FlushRecord.payloads) :=
  (List.filter_sublist).map FlushRecord.payloads

/-- Flushes that were taken whole or not at all leave whole batches on the stream. -/
theorem accepted_of_not_cut (h : ∀ f ∈ fs, f.Ok)
    (hcut : ∀ f ∈ fs, f.result = false → f.accepted = []) :
    fs.flatMap FlushRecord.accepted = (wholeBatches fs).flatMap batchBytes := by
  induction fs with
  | nil => rfl
  | cons f fs ih =>
    have hrest := ih (fun g hg => h g (List.mem_cons_of_mem f hg))
      (fun g hg => hcut g (List.mem_cons_of_mem f hg))
    rw [List.flatMap_cons, hrest]
    rcases (h f List.mem_cons_self).outcome with hwhole | ⟨soff, hc⟩
    · simp [wholeBatches, hwhole.result, hwhole.accepted]
    · simp [wholeBatches, hc.result, hcut f List.mem_cons_self hc.result]

theorem exists_call_of_accepted (h : ∀ f ∈ post, f.Ok)
    (hne : post.flatMap FlushRecord.accepted ≠ []) :
    ∃ c ∈ post.flatMap FlushRecord.calls, ¬ c.Failed := by
  obtain ⟨b, hb⟩ := List.exists_mem_of_ne_nil _ hne
  obtain ⟨f, hf, hbf⟩ := List.mem_flatMap.mp hb
  rcases (h f hf).outcome with hwhole | ⟨soff, hc⟩
  · obtain ⟨c, hc⟩ := List.exists_mem_of_ne_nil _ hwhole.calls.1
    exact ⟨c, List.mem_flatMap.mpr ⟨f, hf, hc⟩, hwhole.calls.2 c hc⟩
  · obtain ⟨cs, c, hcalls, -, -, hok, hpos⟩ := hc.calls
    have hsoff : 0 < soff := by
      rw [hc.accepted] at hbf
      by_contra h0
      simp [show soff = 0 by omega] at hbf
    obtain ⟨d, hd⟩ := List.exists_mem_of_ne_nil _ (hpos hsoff)
    refine ⟨d, List.mem_flatMap.mpr ⟨f, hf, ?_⟩, hok d hd⟩
    rw [hcalls]
    exact List.mem_append_left _ hd

/-- In front of accepted bytes no batch was cut. -/
theorem not_cut_of_accepted (h : ∀ f ∈ fs ++ post, f.Ok)
    (hlast : CutIsLast ((fs ++ post).flatMap FlushRecord.calls))
    (hne : post.flatMap FlushRecord.accepted ≠ []) :
    ∀ f ∈ fs, f.result = false → f.accepted = [] := by
  intro f hf hresult
  rcases (h f (List.mem_append_left _ hf)).outcome with hwhole | ⟨soff, hc⟩
  · rw [hwhole.result] at hresult
    cases hresult
  · obtain ⟨cs, c, hcalls, hfail, hsoff, -⟩ := hc.calls
    obtain ⟨d, hd, hdok⟩ := exists_call_of_accepted
      (fun g hg => h g (List.mem_append_right fs hg)) hne
    by_contra haccepted
    have hpos : c.soff ≠ 0 := by
      rw [hsoff]
      intro h0
      rw [hc.accepted, h0] at haccepted
      exact haccepted rfl
    obtain ⟨fs₁, fs₂, rfl⟩ := List.append_of_mem hf
    have hsplit : (fs₁ ++ f :: fs₂ ++ post).flatMap FlushRecord.calls =
        (fs₁.flatMap FlushRecord.calls ++ cs) ++ c ::
          (fs₂.flatMap FlushRecord.calls ++ post.flatMap FlushRecord.calls) := by
      simp [hcalls]
    exact hdok (hlast _ c _ hsplit hfail hpos d (List.mem_append_right _ hd))

theorem sendable_wholeBatches (h : ∀ f ∈ fs, f.Ok) : ∀ ps ∈ wholeBatches fs, Sendable ps := by
  intro ps hps
  obtain ⟨f, hf, rfl⟩ := List.mem_map.mp hps
  exact (h f (List.mem_of_mem_filter hf)).room

theorem wholeBatches_concat (fs : List FlushRecord) (f : FlushRecord) :
    wholeBatches (fs ++ [f]) = wholeBatches fs ++ if f.result then [f.payloads] else [] := by
  rw [wholeBatches, List.filter_append, List.map_append]
  cases hf : f.result with
  | true => simp [hf, wholeBatches]
  | false => simp [hf, wholeBatches]

/-- The stream is the batches that were taken whole, and the beginning of one more where the
last flush that got bytes out was cut. -/
theorem accepted_cases (h : ∀ f ∈ fs, f.Ok) (hlast : CutIsLast (fs.flatMap FlushRecord.calls)) :
    fs.flatMap FlushRecord.accepted = (wholeBatches fs).flatMap batchBytes ∨
      ∃ f ∈ fs, ∃ soff, f.Cut soff ∧
        (wholeBatches fs ++ [f.payloads]).Sublist (fs.map FlushRecord.payloads) ∧
        fs.flatMap FlushRecord.accepted =
          (wholeBatches fs).flatMap batchBytes ++ (batchBytes f.payloads).take soff := by
  induction fs using List.reverseRecOn with
  | nil => exact .inl rfl
  | append_singleton fs f ih =>
    have hfs : ∀ g ∈ fs, g.Ok := fun g hg => h g (List.mem_append_left _ hg)
    have hf := h f (List.mem_append_right _ List.mem_cons_self)
    have hconcat : (fs ++ [f]).flatMap FlushRecord.accepted =
        fs.flatMap FlushRecord.accepted ++ f.accepted := by simp
    by_cases hne : f.accepted = []
    · have hlast' : CutIsLast (fs.flatMap FlushRecord.calls) := by
        intro pre c post hsplit hfail hsoff d hd
        apply hlast pre c (post ++ f.calls) _ hfail hsoff d (List.mem_append_left _ hd)
        simp [hsplit]
      have hresult : f.result = false := by
        rcases hf.outcome with hwhole | ⟨soff, hc⟩
        · have hlen := congrArg List.length (hwhole.accepted.symm.trans hne)
          simp at hlen
        · exact hc.result
      have hwhole : wholeBatches (fs ++ [f]) = wholeBatches fs := by
        simp [wholeBatches_concat, hresult]
      rw [hconcat, hne, List.append_nil, hwhole]
      rcases ih hfs hlast' with hall | ⟨g, hg, soff, hc, hsub, hstream⟩
      · exact .inl hall
      · refine .inr ⟨g, List.mem_append_left _ hg, soff, hc, ?_, hstream⟩
        rw [List.map_append]
        exact hsub.trans (List.sublist_append_left _ _)
    · -- the last flush that got bytes out: all before it were whole or lost
      have hbefore := accepted_of_not_cut hfs (not_cut_of_accepted h hlast (by simpa using hne))
      rw [hconcat, hbefore]
      rcases hf.outcome with hwhole | ⟨soff, hc⟩
      · left
        simp [wholeBatches_concat, hwhole.result, hwhole.accepted]
      · refine .inr ⟨f, List.mem_append_right _ List.mem_cons_self, soff, hc, ?_, ?_⟩
        · rw [wholeBatches_concat, hc.result, List.map_append]
          simpa using (wholeBatches_sublist fs).append (List.Sublist.refl [f.payloads])
        · simp [wholeBatches_concat, hc.result, hc.accepted]

/-- The stream is the first part of some of the flushed batches, in order. -/
theorem accepted_prefix (h : ∀ f ∈ fs, f.Ok) (hlast : CutIsLast (fs.flatMap FlushRecord.calls)) :
    ∃ batches : List (List (List Byte)), batches.Sublist (fs.map FlushRecord.payloads) ∧
      (∀ ps ∈ batches, Sendable ps) ∧
      fs.flatMap FlushRecord.accepted <+: batches.flatMap batchBytes := by
  rcases accepted_cases h hlast with hall | ⟨f, hf, soff, hc, hsub, hstream⟩
  · exact ⟨wholeBatches fs, wholeBatches_sublist fs, sendable_wholeBatches h,
      hall ▸ List.prefix_rfl⟩
  · refine ⟨wholeBatches fs ++ [f.payloads], hsub, ?_, ?_⟩
    · intro ps hps
      rcases List.mem_append.mp hps with hps | hps
      · exact sendable_wholeBatches h ps hps
      · exact List.mem_singleton.mp hps ▸ (h f hf).room
    · rw [hstream, List.flatMap_append, List.flatMap_singleton]
      exact (List.prefix_append_right_inj _).mpr (List.take_prefix _ _)

/-- What the stream hands over is every batch that was taken whole. -/
theorem parse_accepted (h : ∀ f ∈ fs, f.Ok) (hlast : CutIsLast (fs.flatMap FlushRecord.calls)) :
    (parse (fs.flatMap FlushRecord.accepted)).calls = (wholeBatches fs).map List.flatten := by
  have hparse := Reference.parse_batches (sendable_wholeBatches h)
  rcases accepted_cases h hlast with hall | ⟨f, hf, soff, hc, -, hstream⟩
  · rw [hall, hparse]
  · -- the batch that was cut hands nothing over
    have hfits : ([] : List Byte).length + f.payloads.flatten.length ≤ 2000000 := by
      rw [List.length_nil, Nat.zero_add]
      exact Sendable.fits (h f hf).room
    rw [hstream, Reference.parse_append, hparse, Reference.run_take_batch rfl hfits hc.lt]

end Flushes

/-- Every batch arrives intact, in every run in which nothing is accepted behind a
failure in the middle of a batch. -/
theorem batches_intact {k : Kernel} (hk : k.WholeOrFail) (s : Sender) (hs : s.Fresh)
    (ops : List SendOp) (hops : ∀ op ∈ ops, op.NoWrap)
    (hlast : CutIsLast (s.run k ops).conn.calls)
    (answer : List (List Byte) → List Byte → Bool) (r : Recv (List (List Byte)))
    (hr : r.Entered) (hlog : r.env = []) : BatchesIntact (s.run k ops) answer r := by
  have hinv := Sender.run_inv hk hs.inv hops
  generalize s.run k ops = t at hlast hinv ⊢
  rw [hinv.calls] at hlast
  obtain ⟨batches, hsub, hsend, hpre⟩ := accepted_prefix hinv.records hlast
  have hfits := Reference.fits_batches hsend
  have hparse := parse_accepted hinv.records hlast
  rw [← hinv.stream] at hpre hparse
  have henv (reads : List Received) (hreads : receivedBytes reads <+: t.conn.stream) :
      (r.run (CommandHandler.recorder answer) reads).env =
        (parse (receivedBytes reads)).calls := by
    rw [run_env_of_clean hr reads (clean_of_fits (hfits.left (hreads.trans hpre))),
      CommandHandler.recorder_after, hlog, List.nil_append]
  constructor
  · -- the peer has a first part of whole batches, so its calls are some of the first ones
    intro reads hreads
    have hcalls := Reference.parse_calls_prefix (hreads.trans hpre)
    rw [Reference.parse_batches hsend] at hcalls
    have hflat := hsub.map List.flatten
    rw [List.map_map] at hflat
    rw [henv reads hreads]
    exact hcalls.sublist.trans hflat
  · intro reads hreads
    rw [henv reads (hreads ▸ List.prefix_rfl), hreads, hparse]
  · intro pre post hsplit hne reads hreads
    have hok : ∀ f ∈ pre, f.Ok := fun f hf => hinv.records f (by simp [hsplit, hf])
    rw [hsplit] at hlast
    have hcut := not_cut_of_accepted (fun f hf => hinv.records f (hsplit ▸ hf)) hlast hne
    have hle : receivedBytes reads <+: batches.flatMap batchBytes := by
      apply List.IsPrefix.trans _ hpre
      rw [hreads, hinv.stream, hsplit, List.flatMap_append]
      exact List.prefix_append _ _
    rw [betweenFrames_iff hr reads (clean_of_fits (hfits.left hle)), hreads,
      accepted_of_not_cut hok hcut, Reference.parse_batches (sendable_wholeBatches hok)]

/-- The first call fails, the later ones accept everything. -/
def firstFails : Kernel := fun n size =>
  if n = 0 then .failed ⟨105, by decide⟩ else .accepted size

/-- A batch that fails at its first chunk, and one that is sent. -/
theorem batches_intact_firstFails :
    BatchesIntact ((Sender.new 3).run firstFails
      [.command [7], .flush, .command [8], .flush]) (fun _ _ => true) (Recv.enter []) := by
  have hcalls : ((Sender.new 3).run firstFails
      [.command [7], .flush, .command [8], .flush]).conn.calls =
        [⟨0, 25, .failed ⟨105, by decide⟩⟩, ⟨0, 25, .accepted 25⟩] := by
    decide +kernel
  refine batches_intact ?_ (Sender.new 3) (Sender.new_fresh (by decide)) _ ?_ ?_ _ _
    (Recv.enter_entered []) rfl
  · intro n size
    by_cases h : n = 0
    · exact .inr ⟨_, if_pos h⟩
    · exact .inl (if_neg h)
  · simp [SendOp.NoWrap]
  · rw [hcalls]
    intro pre c post hsplit _ hsoff
    have hc : c ∈ [(⟨0, 25, .failed ⟨105, by decide⟩⟩ : SendCall), ⟨0, 25, .accepted 25⟩] := by
      rw [hsplit]
      simp
    simp only [List.mem_cons, List.not_mem_nil, or_false] at hc
    rcases hc with rfl | rfl <;> exact absurd rfl hsoff

/-! ## Two batches mixed into one -/

/-- The second call is interrupted, all others accept everything. -/
def interrupted : Kernel := fun n size =>
  if n = 1 then .failed ⟨4, by decide⟩ else .accepted size

section Mixed

variable {head tail : List Byte}

/-- The batch of a command of 65,536 bytes, cut where its first chunk ends. -/
theorem batchBytes_long (hhead : head.length = 65524) (htail : tail.length = 12) :
    batchBytes [head ++ tail] = (commandHeader 65536 ++ head) ++ (tail ++ flushHeader) := by
  simp [batchBytes, frame, hhead, htail]

/-- Behind that chunk, the batch of an empty command reads as the end of the long one. -/
theorem batchBytes_mixed (hhead : head.length = 65524) :
    (commandHeader 65536 ++ head) ++ batchBytes [[]] = batchBytes [head ++ commandHeader 0] := by
  simp [batchBytes, frame, hhead]

theorem sendChunk_accepted {k : Kernel} {t : CommandTransport} (soff : ℕ) (chunk : List Byte)
    (h : k t.calls.length chunk.length = .accepted chunk.length) :
    t.sendChunk k soff chunk = (.accepted chunk.length, ⟨t.mConnfd, t.stream ++ chunk,
      t.calls ++ [⟨soff, chunk.length, .accepted chunk.length⟩]⟩) := by
  simp only [sendChunk, h, List.take_length]

/-- The first chunk of the long command is accepted, the second one fails. -/
theorem send_interrupted (hhead : head.length = 65524) (htail : tail.length = 12)
    {t : CommandTransport} (h : t.Open) (hcalls : t.calls = []) :
    (t.send interrupted (batchBytes [head ++ tail])).2.stream =
        t.stream ++ (commandHeader 65536 ++ head) ∧
      (t.send interrupted (batchBytes [head ++ tail])).2.calls.length = 2 := by
  have hl : (commandHeader 65536 ++ head).length = 65536 := by simp [hhead]
  have hlen : (batchBytes [head ++ tail]).length = 65560 := by simp [hhead, htail]
  have htake : (batchBytes [head ++ tail]).take 65536 = commandHeader 65536 ++ head := by
    rw [batchBytes_long hhead htail]
    exact List.take_left' hl
  have hfirst := sendChunk_accepted (k := interrupted) (t := t) 0 (commandHeader 65536 ++ head)
    (by rw [hcalls]; rfl)
  rw [send_open _ _ h, sendLoop, if_pos (by omega)]
  simp only [hlen, Nat.sub_zero, List.drop_zero]
  rw [if_pos (by decide), htake, hfirst]
  simp only [Nat.zero_add]
  rw [sendLoop, if_pos (by omega)]
  simp [sendChunk, interrupted, hcalls]

/-- A buffer of at most one chunk is one call. -/
theorem send_short {k : Kernel} {t : CommandTransport} (buf : List Byte) (h : t.Open)
    (hne : buf ≠ []) (hlen : buf.length ≤ 65536)
    (hk : k t.calls.length buf.length = .accepted buf.length) :
    (t.send k buf).2.stream = t.stream ++ buf := by
  have hpos := List.length_pos_iff.mpr hne
  rw [send_open _ _ h, sendLoop, if_pos hpos]
  simp only [Nat.sub_zero, List.drop_zero]
  rw [if_neg (by omega), List.take_length, sendChunk_accepted 0 buf hk]
  simp only
  rw [sendLoop, if_neg (by omega)]

/-- The run: the stream behind the two batches is that of one that was never flushed. -/
theorem run_mixed (hhead : head.length = 65524) (htail : tail.length = 12) :
    ((Sender.new 3).run interrupted
        [.command (head ++ tail), .flush, .command [], .flush]).conn.stream =
      batchBytes [head ++ commandHeader 0] ∧
    ((Sender.new 3).run interrupted
        [.command (head ++ tail), .flush, .command [], .flush]).flushed = [head ++ tail, []] := by
  have hlong : (head ++ tail).length ≤ SendBuffer.getMaximumAllocationSize := by
    simp [hhead, htail, SendBuffer.getMaximumAllocationSize]
  have hopen : (Sender.new 3).conn.Open := show (0 : ℤ) ≤ 3 by decide
  obtain ⟨hholds₁, hnil₁, hconn₁, hflushes₁⟩ := Sender.run_command_flush (k := interrupted)
    (s := Sender.new 3) (head ++ tail) (SendBuffer.holds_nil rfl) rfl hlong
  obtain ⟨hstream₁, hcalls₁⟩ := send_interrupted hhead htail hopen rfl
  generalize hs₁ : (Sender.new 3).run interrupted [.command (head ++ tail), .flush] = s₁ at *
  have hopen₁ : s₁.conn.Open := by
    rw [hconn₁]
    simpa [Open] using hopen
  obtain ⟨-, -, hconn₂, hflushes₂⟩ := Sender.run_command_flush (k := interrupted) []
    hholds₁ hnil₁ (Nat.zero_le _)
  have hrun : (Sender.new 3).run interrupted
      [.command (head ++ tail), .flush, .command [], .flush] =
      s₁.run interrupted [.command [], .flush] := by rw [← hs₁, ← Sender.run_append]; rfl
  have hcalls : s₁.conn.calls.length = 2 := by rw [hconn₁, hcalls₁]
  have hshort := send_short (k := interrupted) (batchBytes [[]]) hopen₁ (by decide) (by decide)
    (by rw [hcalls]; rfl)
  rw [hrun]
  constructor
  · rw [hconn₂, hshort, hconn₁, hstream₁, ← batchBytes_mixed hhead]
    rfl
  · simp [Sender.flushed, hflushes₂, hflushes₁, Sender.flushRecord, Sender.new]

/-- The peer is handed a batch that was never flushed, unless the long command already
ends like a frame's header. -/
theorem not_batchesIntact_of_mixed (hhead : head.length = 65524) (htail : tail.length = 12)
    (hne : tail ≠ commandHeader 0) :
    ¬ BatchesIntact ((Sender.new 3).run interrupted
      [.command (head ++ tail), .flush, .command [], .flush]) (fun _ _ => true)
      (Recv.enter []) := by
  intro h
  obtain ⟨hstream, hflushed⟩ := run_mixed hhead htail
  generalize (Sender.new 3).run interrupted
    [.command (head ++ tail), .flush, .command [], .flush] = s at h hstream hflushed
  have hlen : (batchBytes [head ++ commandHeader 0]).length = 65560 := by simp [hhead]
  -- the stream in two reads
  let first : Chunk := ⟨(batchBytes [head ++ commandHeader 0]).take 65536, by
    rw [← List.length_pos_iff, List.length_take]
    omega, by simp⟩
  let second : Chunk := ⟨(batchBytes [head ++ commandHeader 0]).drop 65536, by
    rw [← List.length_pos_iff, List.length_drop]
    omega, by rw [List.length_drop]; omega⟩
  have hreads : receivedBytes [.data first, .data second] =
      batchBytes [head ++ commandHeader 0] := by
    simp [receivedBytes, first, second]
  have hsend : ∀ ps ∈ [[head ++ commandHeader 0]], Sendable ps := by
    simp [Sendable, hhead]
  have hparse := Reference.parse_batches hsend
  have hfits := Reference.fits_batches hsend
  simp only [List.flatMap_singleton] at hparse hfits
  have hsub := h.batches [.data first, .data second] (by rw [hreads, hstream])
  obtain ⟨henv, -⟩ := Recv.run_of_fits (H := CommandHandler.recorder fun _ _ => true)
    (Recv.enter_entered []) [.data first, .data second] (hreads ▸ hfits)
  rw [henv, CommandHandler.recorder_after, hreads, hparse, hflushed] at hsub
  have hmem := hsub.subset (List.mem_append_right _ (List.mem_singleton.mpr rfl))
  simp only [List.flatten_cons, List.flatten_nil, List.append_nil, List.mem_cons,
    List.not_mem_nil, or_false] at hmem
  rcases hmem with hlong | hempty
  · exact hne (List.append_cancel_left hlong).symm
  · have := congrArg List.length hempty
    simp at this

end Mixed

/-- A command of zeros, interrupted in its second chunk, and an empty one. -/
theorem not_batchesIntact_interrupted :
    ¬ BatchesIntact ((Sender.new 3).run interrupted
      [.command (List.replicate 65524 0 ++ List.replicate 12 0), .flush, .command [], .flush])
      (fun _ _ => true) (Recv.enter []) :=
  not_batchesIntact_of_mixed List.length_replicate List.length_replicate (by decide)

end WebGpuDD
