import WebGpuDD.RecvRefines

/-!
# Streams of batches

What the parser makes of the bytes of whole batches, and of any first part of them:
every header fits, every batch that is complete has been handed over as the
concatenation of its payloads, and nothing else has.
-/

namespace WebGpuDD

open LittleEndian

namespace Reference

/-! ## One frame -/

section Frame

variable {r : Reference}

theorem onHeader_of_fits {h : CommandTlv} (ht : h.type ≠ 2)
    (hfit : r.pending.length + h.len ≤ 2000000) :
    r.onHeader h = { r with phase := if h.len = 0 then .header [] else .command h.len [] } := by
  simp [onHeader, ht, Nat.not_lt.mpr hfit]

theorem run_commandHeader (hr : r.phase = .header []) {size : ℕ} (hs : size < 2 ^ 64) :
    r.run (commandHeader size) = r.onHeader ⟨1, size⟩ := by
  rw [run_header_full hr (by simp) (commandHeader_ne_nil size), List.nil_append,
    ofBytes_commandHeader hs]

theorem run_frame (hr : r.phase = .header []) {payload : List Byte}
    (hfit : r.pending.length + payload.length ≤ 2000000) :
    r.run (frame payload) = ⟨.header [], r.pending ++ payload, r.calls⟩ := by
  have hs : payload.length < 2 ^ 64 := by omega
  rw [frame, run_append, run_commandHeader hr hs, onHeader_of_fits (by simp) hfit]
  exact run_body rfl rfl

theorem run_frames (hr : r.phase = .header []) {payloads : List (List Byte)}
    (hfit : r.pending.length + payloads.flatten.length ≤ 2000000) :
    r.run (frames payloads) = ⟨.header [], r.pending ++ payloads.flatten, r.calls⟩ := by
  induction payloads generalizing r with
  | nil => simp [← hr]
  | cons p ps ih =>
    simp only [List.flatten_cons, List.length_append] at hfit
    have hrest : (r.pending ++ p).length + ps.flatten.length ≤ 2000000 := by
      rw [List.length_append]
      omega
    rw [frames_cons, run_append, run_frame hr (by omega), ih rfl hrest]
    simp

theorem run_flushHeader (hr : r.phase = .header []) :
    r.run flushHeader = ⟨.header [], [], r.calls ++ [r.pending]⟩ := by
  rw [run_header_full hr (by simp) (by decide), List.nil_append, ofBytes_flushHeader,
    onHeader_flush rfl]

end Frame

/-! ## Batches -/

/-- The frames of the batch leave room for a flush header in a send buffer. -/
def Sendable (payloads : List (List Byte)) : Prop := (frames payloads).length ≤ 2000000 - 12

/-- The payloads leave room for one header of their own besides. -/
theorem Sendable.flatten_le {payloads : List (List Byte)} (h : Sendable payloads) :
    payloads.flatten.length ≤ 2000000 - 2 * 12 := by
  have hle := flatten_length_le_frames payloads
  unfold Sendable at h
  cases payloads with
  | nil => exact Nat.zero_le _
  | cons p ps =>
    rw [List.length_cons] at hle
    omega

theorem Sendable.fits {payloads : List (List Byte)} (h : Sendable payloads) :
    payloads.flatten.length ≤ 2000000 :=
  h.flatten_le.trans (by decide)

theorem run_batches {r : Reference} (hr : r.phase = .header []) (hp : r.pending = [])
    {batches : List (List (List Byte))} (h : ∀ ps ∈ batches, Sendable ps) :
    r.run (batches.flatMap batchBytes) =
      ⟨.header [], [], r.calls ++ batches.map List.flatten⟩ := by
  induction batches generalizing r with
  | nil =>
    cases r
    simp_all
  | cons ps batches ih =>
    have hps : r.pending.length + ps.flatten.length ≤ 2000000 := by
      rw [hp, List.length_nil, Nat.zero_add]
      exact (h ps List.mem_cons_self).fits
    rw [List.flatMap_cons, run_append, batchBytes, run_append, run_frames hr hps,
      run_flushHeader rfl, ih rfl rfl fun qs hqs => h qs (List.mem_cons_of_mem ps hqs)]
    simp [hp]

/-- The parser behind a stream of whole batches. -/
theorem parse_batches {batches : List (List (List Byte))} (h : ∀ ps ∈ batches, Sendable ps) :
    parse (batches.flatMap batchBytes) = ⟨.header [], [], batches.map List.flatten⟩ :=
  run_batches rfl rfl h

theorem commandsOf_frame {payload : List Byte} (hs : payload.length < 2 ^ 64) (rest : List Byte) :
    commandsOf (frame payload ++ rest) = payload :: commandsOf rest := by
  have htake : (frame payload ++ rest).take 12 = commandHeader payload.length := by
    rw [frame, List.append_assoc, List.take_left' (commandHeader_length _)]
  have hdrop : (frame payload ++ rest).drop 12 = payload ++ rest := by
    rw [frame, List.append_assoc, List.drop_left' (commandHeader_length _)]
  have hlen : (frame payload ++ rest).length = 12 + payload.length + rest.length := by
    rw [List.length_append, frame_length]
  rw [commandsOf, if_neg (by omega)]
  simp only [htake, ofBytes_commandHeader hs]
  rw [if_neg (by decide), if_neg (by omega), hdrop, ← List.drop_drop, hdrop,
    List.take_left' rfl, List.drop_left' rfl]

theorem commandsOf_flushHeader (rest : List Byte) :
    commandsOf (flushHeader ++ rest) = commandsOf rest := by
  rw [commandsOf, if_neg (by simp)]
  simp only [List.take_left' flushHeader_length, List.drop_left' flushHeader_length,
    ofBytes_flushHeader, if_true]

/-- The commands of a stream of whole batches. -/
theorem commandsOf_batches {batches : List (List (List Byte))} (h : ∀ ps ∈ batches, Sendable ps) :
    commandsOf (batches.flatMap batchBytes) = batches.flatten := by
  have hframes (ps : List (List Byte)) (hps : ps.flatten.length ≤ 2000000) (rest : List Byte) :
      commandsOf (frames ps ++ rest) = ps ++ commandsOf rest := by
    induction ps with
    | nil => rfl
    | cons p ps ih =>
      simp only [List.flatten_cons, List.length_append] at hps
      rw [frames_cons, List.append_assoc, commandsOf_frame (by omega), ih (by omega)]
      rfl
  induction batches with
  | nil => rw [List.flatMap_nil, commandsOf, if_pos (by decide), List.flatten_nil]
  | cons ps batches ih =>
    rw [List.flatMap_cons, batchBytes, List.append_assoc,
      hframes ps (h ps List.mem_cons_self).fits, commandsOf_flushHeader,
      ih fun qs hqs => h qs (List.mem_cons_of_mem ps hqs), List.flatten_cons]

/-! ## First parts of a stream -/

theorem feed_calls_prefix (r : Reference) (b : Byte) : r.calls <+: (r.feed b).calls := by
  unfold feed onHeader handOver
  split
  · split_ifs <;> simp
  · split_ifs <;> simp

theorem run_calls_prefix (r : Reference) (bs : List Byte) : r.calls <+: (r.run bs).calls := by
  induction bs generalizing r with
  | nil => exact List.prefix_refl _
  | cons b bs ih =>
    have hfeed := feed_calls_prefix r b
    exact hfeed.trans (ih (r.feed b))

theorem parse_calls_prefix {bs cs : List Byte} (h : bs <+: cs) :
    (parse bs).calls <+: (parse cs).calls := by
  obtain ⟨more, rfl⟩ := h
  rw [parse_append]
  exact run_calls_prefix _ more

/-- A batch that is cut off hands nothing over. -/
theorem run_take_batch {r : Reference} (hr : r.phase = .header []) {ps : List (List Byte)}
    {n : ℕ} (hfit : r.pending.length + ps.flatten.length ≤ 2000000)
    (hn : n < (batchBytes ps).length) :
    (r.run ((batchBytes ps).take n)).calls = r.calls := by
  rw [batchBytes_length] at hn
  rcases Nat.lt_or_ge n (frames ps).length with hlt | hge
  · -- inside the frames: what they hand over altogether is nothing
    have htake : (batchBytes ps).take n = (frames ps).take n := by
      rw [batchBytes, List.take_append_of_le_length hlt.le]
    have hgrow := run_calls_prefix r ((frames ps).take n)
    have hmore := run_calls_prefix (r.run ((frames ps).take n)) ((frames ps).drop n)
    rw [← run_append, List.take_append_drop, run_frames hr hfit] at hmore
    rw [htake]
    exact (hgrow.eq_of_length_le hmore.length_le).symm
  · -- inside the flush header
    have htake : (batchBytes ps).take n =
        frames ps ++ flushHeader.take (n - (frames ps).length) := by
      rw [batchBytes, List.take_append, List.take_of_length_le hge]
    have hshort : ([] : List Byte).length + (flushHeader.take (n - (frames ps).length)).length <
        12 := by
      rw [List.length_take, List.length_nil]
      omega
    rw [htake, run_append, run_frames hr hfit, run_header_part rfl hshort]

/-! ## Every command of a batch fits -/

/-- No command of the stream needs more room than is left behind the pending ones. -/
def Fits : List Byte → Prop :=
  HeadersMeet fun r h => h.type ≠ 2 → r.pending.length + h.len ≤ 2000000

/-- The same with a smaller buffer. -/
def FitsIn (room : ℕ) : List Byte → Prop :=
  HeadersMeet fun r h => h.type ≠ 2 → r.pending.length + h.len ≤ room

section Fits

variable {bs : List Byte} {room : ℕ}

theorem Fits.left {cs : List Byte} (h : Fits cs) (hbs : bs <+: cs) : Fits bs := by
  obtain ⟨more, rfl⟩ := hbs
  exact HeadersMeet.left h

theorem FitsIn.fits (h : FitsIn room bs) (hroom : room ≤ 2000000) : Fits bs := by
  refine HeadersMeet.imp h fun r t hfit ht => ?_
  exact (hfit ht).trans hroom

theorem FitsIn.frame (h : FitsIn room bs) (hroom : room ≤ 2000000)
    (hp : (parse bs).phase = .header []) {payload : List Byte}
    (hfit : (parse bs).pending.length + payload.length ≤ room) :
    FitsIn room (bs ++ WebGpuDD.frame payload) := by
  have hs : payload.length < 2 ^ 64 := by omega
  have hheader : FitsIn room (bs ++ commandHeader payload.length) := by
    apply HeadersMeet.header_full h hp
    · simp
    · exact commandHeader_ne_nil _
    · intro p _
      rw [List.nil_append, ofBytes_commandHeader hs]
      exact hfit
  have hphase : (parse (bs ++ commandHeader payload.length)).phase =
      if payload.length = 0 then .header [] else .command payload.length [] := by
    rw [parse_append, run_commandHeader hp hs, onHeader_of_fits (by simp) (hfit.trans hroom)]
  have hbody : FitsIn room (bs ++ commandHeader payload.length ++ payload.take payload.length) :=
    HeadersMeet.begun hheader hphase
  rwa [List.take_length, List.append_assoc] at hbody

theorem FitsIn.frames (h : FitsIn room bs) (hroom : room ≤ 2000000)
    (hp : (parse bs).phase = .header []) {payloads : List (List Byte)}
    (hfit : (parse bs).pending.length + payloads.flatten.length ≤ room) :
    FitsIn room (bs ++ WebGpuDD.frames payloads) := by
  induction payloads generalizing bs with
  | nil => simpa using h
  | cons p ps ih =>
    simp only [List.flatten_cons, List.length_append] at hfit
    have hp' : (parse bs).pending.length + p.length ≤ 2000000 := by omega
    rw [frames_cons, ← List.append_assoc]
    apply ih (h.frame hroom hp (by omega))
    · rw [parse_append, run_frame hp hp']
    · rw [parse_append, run_frame hp hp']
      simp only [List.length_append]
      omega

theorem FitsIn.flushHeader (h : FitsIn room bs) (hp : (parse bs).phase = .header []) :
    FitsIn room (bs ++ WebGpuDD.flushHeader) := by
  apply HeadersMeet.header_full h hp
  · simp
  · decide
  · intro p ht
    rw [List.nil_append, ofBytes_flushHeader] at ht
    exact absurd rfl ht

theorem FitsIn.batches (h : FitsIn (2000000 - 2 * 12) bs) (hp : (parse bs).phase = .header [])
    (hnil : (parse bs).pending = []) {batches : List (List (List Byte))}
    (hb : ∀ ps ∈ batches, Sendable ps) :
    FitsIn (2000000 - 2 * 12) (bs ++ batches.flatMap batchBytes) := by
  induction batches generalizing bs with
  | nil => simpa using h
  | cons ps batches ih =>
    have hfit : (parse bs).pending.length + ps.flatten.length ≤ 2000000 - 2 * 12 := by
      rw [hnil, List.length_nil, Nat.zero_add]
      exact (hb ps List.mem_cons_self).flatten_le
    have hfit' := hfit.trans (show 2000000 - 2 * 12 ≤ 2000000 by decide)
    rw [List.flatMap_cons, batchBytes, ← List.append_assoc, ← List.append_assoc]
    apply ih
    · apply (h.frames (by decide) hp hfit).flushHeader
      rw [parse_append, run_frames hp hfit']
    · rw [parse_append, parse_append, run_frames hp hfit', run_flushHeader rfl]
    · rw [parse_append, parse_append, run_frames hp hfit', run_flushHeader rfl]
    · exact fun qs hqs => hb qs (List.mem_cons_of_mem ps hqs)

/-- The batches of a send buffer fill no receive buffer up to its end. -/
theorem fitsIn_batches {batches : List (List (List Byte))} (h : ∀ ps ∈ batches, Sendable ps) :
    FitsIn (2000000 - 2 * 12) (batches.flatMap batchBytes) :=
  FitsIn.batches headersMeet_nil rfl rfl h

theorem fits_batches {batches : List (List (List Byte))} (h : ∀ ps ∈ batches, Sendable ps) :
    Fits (batches.flatMap batchBytes) :=
  (fitsIn_batches h).fits (by decide)

end Fits

end Reference

namespace Recv

open Reference (parse Fits)

variable {σ : Type*} {H : CommandHandler σ}

/-- A stream whose commands fit has none that is refused. -/
theorem clean_of_fits {e₀ : σ} {bs : List Byte} (h : Fits bs) : Clean H e₀ bs := by
  refine Reference.HeadersMeet.imp h fun r t hfit href => ?_
  have hle := hfit href.1
  rcases href.2 with hbig | hfull
  · omega
  · omega

/-- On a stream whose commands fit every reservation is granted without a flush. -/
theorem run_of_fits {s : Recv σ} (hs : s.Entered) (reads : List Received)
    (h : Fits (receivedBytes reads)) :
    (s.run H reads).env = H.after s.env (parse (receivedBytes reads)).calls ∧
      ∀ q ∈ (s.run H reads).reservations,
        q.result.isSome ∧ q.mOffset + q.size ≤ 2000000 := by
  refine ⟨run_env_of_clean hs reads (clean_of_fits h), ?_⟩
  intro q hq
  obtain ⟨pre, b, post, t, hbs, ht, htype, rfl⟩ :=
    run_reservations_of_clean hs reads (clean_of_fits h) q hq
  exact ⟨rfl, h pre b post t hbs ht htype⟩

end Recv

end WebGpuDD
