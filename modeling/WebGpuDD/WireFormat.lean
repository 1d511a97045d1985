import WebGpuDD.Delivery

/-!
# What a stream is made of

A stream is whole batches, then the commands of a batch that is not flushed yet, then the
beginning of a frame. `Wire.ofBytes` takes a stream apart in the one way in which it was put
together: the two are inverse to each other on the streams that a send buffer writes, and
what is taken apart is what `Recv` hands over.
-/

namespace WebGpuDD

open LittleEndian CommandTransport Reference

/-- The bytes of a header are all that it holds. -/
theorem CommandTlv.bytes_ofBytes {bs : List Byte} (h : bs.length = 12) :
    (ofBytes bs).bytes = bs := by
  have htype := encode_decode (bs.take 4)
  have hlen := encode_decode ((bs.drop 4).take 8)
  rw [show (bs.take 4).length = 4 by rw [List.length_take]; omega] at htype
  rw [show ((bs.drop 4).take 8).length = 8 by rw [List.length_take, List.length_drop]; omega]
    at hlen
  simp only [bytes, ofBytes, htype, hlen]
  have hrest : (bs.drop 4).take 8 = bs.drop 4 := by
    apply List.take_of_length_le
    rw [List.length_drop]
    omega
  rw [hrest, List.take_append_drop]

/-- A stream, taken apart. -/
structure Wire where
  batches : List (List (List Byte))
  pending : List (List Byte)
  rest : List Byte

namespace Wire

/-- Put together again. -/
def bytes (w : Wire) : List Byte := w.batches.flatMap batchBytes ++ frames w.pending ++ w.rest

/-- A command in front joins the first batch. -/
def command (payload : List Byte) (w : Wire) : Wire :=
  match w.batches with
  | [] => { w with pending := payload :: w.pending }
  | ps :: batches => { w with batches := (payload :: ps) :: batches }

/-- A flush header in front is an empty batch. -/
def flush (w : Wire) : Wire := { w with batches := [] :: w.batches }

/-- The frames of a stream, one by one. A flush header has no body, whatever its `len`. -/
def ofBytes (bs : List Byte) : Wire :=
  if bs.length < 12 then ⟨[], [], bs⟩
  else
    let h := CommandTlv.ofBytes (bs.take 12)
    if h.type = 2 then (ofBytes (bs.drop 12)).flush
    else if bs.length < 12 + h.len then ⟨[], [], bs⟩
    else (ofBytes (bs.drop (12 + h.len))).command ((bs.drop 12).take h.len)
termination_by bs.length
decreasing_by
  all_goals
    simp only [List.length_drop]
    omega

/-- No frame is whole in these bytes. -/
def Cut (bs : List Byte) : Prop :=
  bs.length < 12 ∨ (CommandTlv.ofBytes (bs.take 12)).type ≠ 2 ∧
    bs.length < 12 + (CommandTlv.ofBytes (bs.take 12)).len

/-- The length of every command fits into its header, and what is left over is no frame. -/
structure WellFormed (w : Wire) : Prop where
  batches : ∀ ps ∈ w.batches, ∀ p ∈ ps, p.length < 2 ^ 64
  pending : ∀ p ∈ w.pending, p.length < 2 ^ 64
  cut : Cut w.rest

/-- The headers of the frames that are whole. -/
def headers (bs : List Byte) : List CommandTlv :=
  if bs.length < 12 then []
  else
    let h := CommandTlv.ofBytes (bs.take 12)
    if h.type = 2 then h :: headers (bs.drop 12)
    else if bs.length < 12 + h.len then []
    else h :: headers (bs.drop (12 + h.len))
termination_by bs.length
decreasing_by
  all_goals
    simp only [List.length_drop]
    omega

/-- A header that a send buffer writes. -/
def Written (h : CommandTlv) : Prop := h.type = 1 ∨ h = ⟨2, 0⟩

section TakeApart

variable {w : Wire} {bs payload : List Byte} {ps : List (List Byte)}

theorem bytes_command (payload : List Byte) (w : Wire) :
    (w.command payload).bytes = frame payload ++ w.bytes := by
  unfold command
  split
  · rename_i hnil
    simp [bytes, hnil]
  · rename_i ps batches hcons
    simp [bytes, hcons, batchBytes]

theorem bytes_flush (w : Wire) : w.flush.bytes = flushHeader ++ w.bytes := by
  simp [flush, bytes, batchBytes]

theorem ofBytes_frame (h : payload.length < 2 ^ 64) (bs : List Byte) :
    ofBytes (frame payload ++ bs) = (ofBytes bs).command payload := by
  have htake : (frame payload ++ bs).take 12 = commandHeader payload.length := by
    rw [frame, List.append_assoc, List.take_left' (commandHeader_length _)]
  have hdrop : (frame payload ++ bs).drop 12 = payload ++ bs := by
    rw [frame, List.append_assoc, List.drop_left' (commandHeader_length _)]
  have hlen : (frame payload ++ bs).length = 12 + payload.length + bs.length := by
    rw [List.length_append, frame_length]
  rw [ofBytes, if_neg (by omega)]
  simp only [htake, ofBytes_commandHeader h]
  rw [if_neg (by decide), if_neg (by omega), hdrop, ← List.drop_drop, hdrop,
    List.take_left' rfl, List.drop_left' rfl]

theorem ofBytes_flushHeader (bs : List Byte) :
    ofBytes (flushHeader ++ bs) = (ofBytes bs).flush := by
  rw [ofBytes, if_neg (by simp)]
  simp only [List.take_left' flushHeader_length, List.drop_left' flushHeader_length,
    WebGpuDD.ofBytes_flushHeader, if_true]

theorem ofBytes_cut (h : Cut bs) : ofBytes bs = ⟨[], [], bs⟩ := by
  rw [ofBytes]
  split
  · rfl
  · rename_i hlen
    obtain ⟨htype, hshort⟩ := h.resolve_left hlen
    rw [if_neg htype, if_pos hshort]

/-- Commands in front of a stream without a batch are pending. -/
theorem ofBytes_frames (h : ∀ p ∈ ps, p.length < 2 ^ 64) (hbs : (ofBytes bs).batches = []) :
    ofBytes (frames ps ++ bs) = { ofBytes bs with pending := ps ++ (ofBytes bs).pending } := by
  induction ps with
  | nil => rfl
  | cons p ps ih =>
    have hps := ih fun q hq => h q (List.mem_cons_of_mem p hq)
    rw [frames_cons, List.append_assoc, ofBytes_frame (h p List.mem_cons_self), hps, command]
    simp only [hbs, List.cons_append]

theorem ofBytes_batchBytes (h : ∀ p ∈ ps, p.length < 2 ^ 64) (bs : List Byte) :
    ofBytes (batchBytes ps ++ bs) = { ofBytes bs with batches := ps :: (ofBytes bs).batches } := by
  rw [batchBytes, List.append_assoc]
  induction ps with
  | nil => exact ofBytes_flushHeader bs
  | cons p ps ih =>
    have hps := ih fun q hq => h q (List.mem_cons_of_mem p hq)
    rw [frames_cons, List.append_assoc, ofBytes_frame (h p List.mem_cons_self), hps, command]

theorem ofBytes_batches {batches : List (List (List Byte))}
    (h : ∀ ps ∈ batches, ∀ p ∈ ps, p.length < 2 ^ 64) (bs : List Byte) :
    ofBytes (batches.flatMap batchBytes ++ bs) =
      { ofBytes bs with batches := batches ++ (ofBytes bs).batches } := by
  induction batches with
  | nil => rfl
  | cons ps batches ih =>
    have hrest := ih fun qs hqs => h qs (List.mem_cons_of_mem ps hqs)
    rw [List.flatMap_cons, List.append_assoc, ofBytes_batchBytes (h ps List.mem_cons_self), hrest]
    rfl

/-- Taking apart undoes putting together. -/
theorem WellFormed.ofBytes_bytes (h : w.WellFormed) : ofBytes w.bytes = w := by
  have hrest := ofBytes_cut h.cut
  have hpending : Wire.ofBytes (frames w.pending ++ w.rest) = _ :=
    ofBytes_frames h.pending (by rw [hrest])
  rw [bytes, List.append_assoc, ofBytes_batches h.batches, hpending, hrest]
  simp

theorem WellFormed.command (h : w.WellFormed) (hp : payload.length < 2 ^ 64) :
    (w.command payload).WellFormed := by
  unfold Wire.command
  split
  · refine ⟨h.batches, ?_, h.cut⟩
    intro p hmem
    rcases List.mem_cons.mp hmem with rfl | hmem
    · exact hp
    · exact h.pending p hmem
  · rename_i ps batches hcons
    refine ⟨?_, h.pending, h.cut⟩
    intro qs hqs p hmem
    have hall := h.batches
    rw [hcons] at hall
    rcases List.mem_cons.mp hqs with rfl | hqs
    · rcases List.mem_cons.mp hmem with rfl | hmem
      · exact hp
      · exact hall ps List.mem_cons_self p hmem
    · exact hall qs (List.mem_cons_of_mem ps hqs) p hmem

theorem WellFormed.flush (h : w.WellFormed) : w.flush.WellFormed := by
  refine ⟨?_, h.pending, h.cut⟩
  intro ps hps p hmem
  rcases List.mem_cons.mp hps with rfl | hps
  · cases hmem
  · exact h.batches ps hps p hmem

theorem ofBytes_wellFormed (bs : List Byte) : (ofBytes bs).WellFormed := by
  fun_induction ofBytes bs with
  | case1 bs hlt => exact ⟨by simp, by simp, .inl hlt⟩
  | case2 bs hlt h ht ih => exact ih.flush
  | case3 bs hlt h ht hshort => exact ⟨by simp, by simp, .inr ⟨ht, hshort⟩⟩
  | case4 bs hlt h ht hlong ih =>
    apply ih.command
    have hlen := CommandTlv.ofBytes_len_lt (bs.take 12)
    exact lt_of_le_of_lt (List.length_take_le _ _) hlen

/-- A frame is written again as it was, exactly when a send buffer writes its header. -/
theorem header_eq_iff {h c : CommandTlv} (hh : CommandTlv.ofBytes (bs.take 12) = h)
    (hbs : 12 ≤ bs.length) (ht : c.type < 2 ^ 32) (hl : c.len < 2 ^ 64) :
    c.bytes = bs.take 12 ↔ h = c := by
  have htake : (bs.take 12).length = 12 := by
    rw [List.length_take]
    omega
  constructor
  · intro hbytes
    rw [← hh, ← hbytes, CommandTlv.ofBytes_bytes ht hl]
  · intro hc
    rw [← hc, ← hh, CommandTlv.bytes_ofBytes htake]

theorem append_eq_iff_take_drop {α : Type*} {xs ys zs : List α} {n : ℕ} (hn : xs.length = n)
    (hle : n ≤ zs.length) : xs ++ ys = zs ↔ xs = zs.take n ∧ ys = zs.drop n := by
  constructor
  · rintro rfl
    exact ⟨(List.take_left' hn).symm, (List.drop_left' hn).symm⟩
  · rintro ⟨hxs, hys⟩
    rw [hxs, hys, List.take_append_drop]

/-- Putting together undoes taking apart where a send buffer wrote the whole frames, and
only there. -/
theorem bytes_ofBytes_iff (bs : List Byte) :
    (ofBytes bs).bytes = bs ↔ ∀ h ∈ headers bs, Written h := by
  fun_induction ofBytes bs with
  | case1 bs hlt =>
    rw [headers, if_pos hlt]
    simp [bytes]
  | case2 bs hlt h ht ih =>
    have hheader : flushHeader = bs.take 12 ↔ h = ⟨2, 0⟩ :=
      header_eq_iff rfl (by omega) (by decide) (by decide)
    have hwritten : Written h ↔ h = ⟨2, 0⟩ := by
      unfold Written
      constructor
      · rintro (hone | heq)
        · rw [ht] at hone
          cases hone
        · exact heq
      · exact .inr
    rw [headers, if_neg hlt]
    simp only
    rw [if_pos ht, List.forall_mem_cons, hwritten, ← hheader, ← ih, bytes_flush,
      append_eq_iff_take_drop flushHeader_length (by omega)]
  | case3 bs hlt h ht hshort =>
    rw [headers, if_neg hlt]
    simp only
    rw [if_neg ht, if_pos hshort]
    simp [bytes]
  | case4 bs hlt h ht hlong ih =>
    have hbody : ((bs.drop 12).take h.len).length = h.len := by
      rw [List.length_take, List.length_drop]
      omega
    have hheader : commandHeader h.len = bs.take 12 ↔ h = ⟨1, h.len⟩ :=
      header_eq_iff rfl (by omega) (show 1 < 2 ^ 32 by decide) (CommandTlv.ofBytes_len_lt _)
    have hwritten : Written h ↔ h = ⟨1, h.len⟩ := by
      unfold Written
      constructor
      · rintro (hone | heq)
        · rw [← hone]
        · exact absurd (congrArg CommandTlv.type heq) ht
      · intro heq
        exact .inl (congrArg CommandTlv.type heq)
    rw [headers, if_neg hlt]
    simp only
    rw [if_neg ht, if_neg hlong, List.forall_mem_cons, hwritten, ← hheader, ← ih, bytes_command,
      frame, hbody, List.append_assoc, append_eq_iff_take_drop (commandHeader_length _) (by omega),
      append_eq_iff_take_drop hbody (by rw [List.length_drop]; omega), List.drop_drop]
    simp only [true_and]

end TakeApart

/-- Taking a stream apart and putting it together are inverse to each other on the streams
whose whole frames a send buffer writes, and on no others; what comes of taking apart is
always well formed. -/
theorem round_trip :
    (∀ w : Wire, w.WellFormed → ofBytes w.bytes = w) ∧
      ∀ bs, (ofBytes bs).WellFormed ∧
        ((ofBytes bs).bytes = bs ↔ ∀ h ∈ headers bs, Written h) :=
  ⟨fun _ h => h.ofBytes_bytes, fun bs => ⟨ofBytes_wellFormed bs, bytes_ofBytes_iff bs⟩⟩

/-- A batch, a command that is not flushed and one byte of the next header. -/
def begun : Wire := ⟨[[[7], []]], [[8, 9]], [1]⟩

theorem begun_wellFormed : begun.WellFormed := ⟨by decide, by decide, .inl (by decide)⟩

theorem round_trip_begun :
    ofBytes begun.bytes = begun ∧ (ofBytes begun.bytes).WellFormed ∧
      ((ofBytes begun.bytes).bytes = begun.bytes ↔ ∀ h ∈ headers begun.bytes, Written h) :=
  ⟨round_trip.1 begun begun_wellFormed, round_trip.2 begun.bytes⟩

/-! ## What `Recv` hands over -/

section Parse

variable {w : Wire} {pre bs : List Byte}

/-- What a command adds to the first batch is its bytes, and nothing else of it is left. -/
theorem command_command_flatten (p q : List Byte) (w : Wire) :
    ((w.command q).command p).batches.map List.flatten =
        (w.command (p ++ q)).batches.map List.flatten ∧
      ((w.command q).command p).pending.flatten = (w.command (p ++ q)).pending.flatten := by
  unfold command
  cases w.batches with
  | nil => simp
  | cons ps batches => simp

theorem command_nil_flatten (w : Wire) :
    (w.command []).batches.map List.flatten = w.batches.map List.flatten ∧
      (w.command []).pending.flatten = w.pending.flatten := by
  unfold command
  cases hbatches : w.batches with
  | nil => simp
  | cons ps batches => simp

/-- The first command behind `pre` fits behind what is pending there. -/
theorem first_fits (h : Fits (pre ++ bs)) (hp : (parse pre).phase = .header [])
    (hlen : 12 ≤ bs.length) (ht : (CommandTlv.ofBytes (bs.take 12)).type ≠ 2) :
    (parse pre).pending.length + (CommandTlv.ofBytes (bs.take 12)).len ≤ 2000000 := by
  have htake : (bs.take 12).length = 12 := by
    rw [List.length_take]
    omega
  have hne : bs.take 12 ≠ [] := by
    intro hnil
    simp [hnil] at htake
  obtain ⟨ys, b, hsplit, hrun, hcomp⟩ := header_last hp (by simpa using htake) hne
  have hstream : pre ++ bs = (pre ++ ys) ++ b :: bs.drop 12 := by
    conv_lhs => rw [← List.take_append_drop 12 bs, hsplit]
    simp
  have hfit := h (pre ++ ys) b (bs.drop 12) _ hstream hcomp ht
  rwa [hrun, List.nil_append] at hfit

/-- A flush command behind `pre` hands over what is pending. -/
theorem parse_append_flush (hp : (parse pre).phase = .header []) (hlen : 12 ≤ bs.length)
    (ht : (CommandTlv.ofBytes (bs.take 12)).type = 2) :
    parse (pre ++ bs.take 12) = ⟨.header [], [], (parse pre).calls ++ [(parse pre).pending]⟩ := by
  have htake : 12 ≤ (bs.take 12).length := by
    rw [List.length_take]
    omega
  rw [parse_append, run_of_header hp htake, List.take_take, min_self, onHeader_flush ht,
    List.drop_eq_nil_of_le (List.length_take_le _ _), run_nil]

/-- A whole command behind `pre` goes to what is pending. -/
theorem parse_append_command {h₀ : CommandTlv} (hp : (parse pre).phase = .header [])
    (h : CommandTlv.ofBytes (bs.take 12) = h₀) (hlen : 12 + h₀.len ≤ bs.length)
    (ht : h₀.type ≠ 2) (hfit : (parse pre).pending.length + h₀.len ≤ 2000000) :
    parse (pre ++ bs.take (12 + h₀.len)) =
      ⟨.header [], (parse pre).pending ++ (bs.drop 12).take h₀.len, (parse pre).calls⟩ := by
  have htake : (bs.take (12 + h₀.len)).length = 12 + h₀.len := by
    rw [List.length_take]
    omega
  have hheader : CommandTlv.ofBytes ((bs.take (12 + h₀.len)).take 12) = h₀ := by
    rw [List.take_take, min_eq_left (Nat.le_add_right 12 _), h]
  rw [parse_append, run_of_command hp hheader ht htake.ge, onHeader_of_fits ht hfit,
    List.drop_of_length_le htake.le, run_nil, List.drop_take, Nat.add_sub_cancel_left,
    List.take_take, min_self]

/-- The parser hands over the batches of a stream whose commands fit, with what is pending
in front of it. -/
theorem parse_append_ofBytes (bs : List Byte) :
    ∀ pre, Fits (pre ++ bs) → (parse pre).phase = .header [] →
      (parse (pre ++ bs)).calls = (parse pre).calls ++
          ((ofBytes bs).command (parse pre).pending).batches.map List.flatten ∧
        (parse (pre ++ bs)).pending =
          ((ofBytes bs).command (parse pre).pending).pending.flatten := by
  fun_induction ofBytes bs with
  | case1 bs hlt =>
    intro pre h hp
    rw [parse_append, run_header_part hp (by simpa using hlt)]
    simp [command]
  | case2 bs hlt h₀ ht ih =>
    intro pre h hp
    have hfirst := parse_append_flush hp (by omega) ht
    have hsplit : pre ++ bs = (pre ++ bs.take 12) ++ bs.drop 12 := by
      rw [List.append_assoc, List.take_append_drop]
    obtain ⟨hcalls, hpending⟩ := ih _ (hsplit ▸ h) (by rw [hfirst])
    obtain ⟨hbatches, hrest⟩ := command_nil_flatten (ofBytes (bs.drop 12))
    rw [hsplit, hcalls, hpending, hfirst, hbatches, hrest]
    simp [flush, command]
  | case3 bs hlt h₀ ht hshort =>
    intro pre h hp
    have hfit := first_fits h hp (by omega) ht
    have hpart : h₀.len ≠ 0 := by omega
    have hphase : ((parse pre).onHeader h₀).phase = .command h₀.len [] := by
      rw [onHeader_command_phase ht, if_neg hpart]
    rw [parse_append, run_of_header hp (by omega), run_command_part hphase (by simp; omega),
      onHeader_of_fits ht hfit]
    simp [command]
  | case4 bs hlt h₀ ht hlong ih =>
    intro pre h hp
    have hlen : 12 + h₀.len ≤ bs.length := by omega
    have hfirst := parse_append_command hp rfl hlen ht (first_fits h hp (by omega) ht)
    have hsplit : pre ++ bs = (pre ++ bs.take (12 + h₀.len)) ++ bs.drop (12 + h₀.len) := by
      rw [List.append_assoc, List.take_append_drop]
    obtain ⟨hcalls, hpending⟩ := ih _ (hsplit ▸ h) (by rw [hfirst])
    obtain ⟨hbatches, hrest⟩ := command_command_flatten (parse pre).pending
      ((bs.drop 12).take h₀.len) (ofBytes (bs.drop (12 + h₀.len)))
    rw [hsplit, hcalls, hpending, hfirst, hbatches, hrest]
    exact ⟨rfl, rfl⟩

theorem parse_ofBytes (h : Fits bs) :
    (parse bs).calls = (ofBytes bs).batches.map List.flatten ∧
      (parse bs).pending = (ofBytes bs).pending.flatten := by
  obtain ⟨hcalls, hpending⟩ := parse_append_ofBytes bs [] h rfl
  obtain ⟨hbatches, hrest⟩ := command_nil_flatten (ofBytes bs)
  rw [List.nil_append] at hcalls hpending
  exact ⟨hcalls.trans hbatches, hpending.trans hrest⟩

end Parse

end Wire

/-- On every stream whose commands fit, and however it is cut into reads, `Recv` takes the
stream apart: the handler is called once for each whole batch, in order, with the payloads of
the commands that are between its borders. -/
theorem Recv.run_takes_apart {σ : Type*} {H : CommandHandler σ} {s : Recv σ} (hs : s.Entered)
    (reads : List Received) (h : Fits (receivedBytes reads)) :
    (s.run H reads).env =
      H.after s.env ((Wire.ofBytes (receivedBytes reads)).batches.map List.flatten) := by
  rw [← (Wire.parse_ofBytes h).1]
  exact (Recv.run_of_fits hs reads h).1

/-- One command and a flush, read in two pieces. -/
theorem Recv.run_takes_apart_splitReads :
    ((Recv.enter []).run (CommandHandler.recorder fun _ _ => true) splitReads).env =
      (CommandHandler.recorder fun _ _ => true).after []
        ((Wire.ofBytes (receivedBytes splitReads)).batches.map List.flatten) := by
  have hstream : receivedBytes splitReads = [[[7]]].flatMap batchBytes := by decide +kernel
  apply run_takes_apart (enter_entered [])
  rw [hstream]
  apply fits_batches
  intro ps hps
  rw [List.mem_singleton.mp hps, Sendable]
  decide

/-- The lengths of the commands of a batch fit into their headers. -/
theorem Reference.Sendable.small {ps : List (List Byte)} (h : Sendable ps) :
    ∀ p ∈ ps, p.length < 2 ^ 64 := by
  intro p hp
  have hle := (List.sublist_flatten_of_mem hp).length_le
  have hfits := h.fits
  omega

/-- What was sent says which batches were flushed: one sender's stream begins another's,
exactly when the batches that the one has flushed begin those of the other. -/
theorem stream_prefix_iff {k k' : Kernel} (hk : k.AcceptsAll) (hk' : k'.AcceptsAll)
    {s s' : Sender} (hs : s.Fresh) (hs' : s'.Fresh) {ops ops' : List SendOp}
    (hops : ∀ p, .command p ∈ ops → p.length ≤ SendBuffer.getMaximumAllocationSize)
    (hops' : ∀ p, .command p ∈ ops' → p.length ≤ SendBuffer.getMaximumAllocationSize) :
    (s.run k ops).conn.stream <+: (s'.run k' ops').conn.stream ↔
      batchesOf [] ops <+: batchesOf [] ops' := by
  obtain ⟨hstream, hsend⟩ := stream_eq_batches hk s hs ops hops
  obtain ⟨hstream', hsend'⟩ := stream_eq_batches hk' s' hs' ops' hops'
  rw [hstream, hstream']
  constructor
  · rintro ⟨more, hmore⟩
    have hnone : (Wire.ofBytes []).batches = [] := by
      rw [Wire.ofBytes_cut (.inl (by decide))]
    have hparts := Wire.ofBytes_batches (fun ps hps => (hsend ps hps).small) more
    have hparts' := Wire.ofBytes_batches (fun ps hps => (hsend' ps hps).small) []
    rw [List.append_nil, ← hmore, hparts, hnone, List.append_nil] at hparts'
    exact ⟨_, congrArg Wire.batches hparts'⟩
  · intro h
    exact h.flatMap batchBytes

theorem stream_prefix_iff_commandFlush :
    ((Sender.new 3).run (fun _ size => .accepted size) [.command [7], .flush]).conn.stream <+:
        ((Sender.new 4).run (fun _ size => .accepted size) [.command [7], .flush]).conn.stream ↔
      batchesOf [] [.command [7], .flush] <+: batchesOf [] [.command [7], .flush] :=
  stream_prefix_iff (fun _ _ => rfl) (fun _ _ => rfl) (Sender.new_fresh (by decide))
    (Sender.new_fresh (by decide)) commandFlush_size commandFlush_size

end WebGpuDD
