import WebGpuDD.RecvPass

/-!
# `Recv` implements the wire grammar

`Sim` relates a `Recv` to all bytes it has received: up to the first refused command
it is the parser's state, and behind one it is waiting for a body without a place to
put it, or has copied to a null pointer. Every read keeps it, whatever its length.
-/

namespace WebGpuDD

open LittleEndian Memory Loop

namespace Recv

open Reference (parse HeadersMeet header_last)

variable {σ : Type*} (H : CommandHandler σ) (e₀ : σ)

/-! ## Streams without a refused command -/

/-- No command of the stream is refused. -/
def Clean : List Byte → Prop := HeadersMeet fun r h => ¬ Refused H e₀ r h

/-! ## Every read keeps the simulation -/

/-- A reservation made for a header of the stream, at the parser's fill level. -/
def Granted (bs : List Byte) (q : Reservation) : Prop :=
  ∃ pre b post h, bs = pre ++ b :: post ∧ (parse pre).completes b = some h ∧ h.type ≠ 2 ∧
    q = ⟨(parse pre).pending.length, h.len, some ((parse pre).onHeader h).pending.length⟩

theorem Granted.append {bs : List Byte} {q : Reservation} (h : Granted bs q) (xs : List Byte) :
    Granted (bs ++ xs) q := by
  obtain ⟨pre, b, post, t, rfl, ht⟩ := h
  exact ⟨pre, b, post ++ xs, t, by simp, ht⟩

/-- Where `Recv` is after the bytes `bs`. -/
inductive Sim (s : Recv σ) (bs : List Byte) : Prop where
  | clean (hclean : Clean H e₀ bs) (hrel : Rel H e₀ s (parse bs))
      (hres : ∀ q ∈ s.reservations, Granted bs q)
  | awaiting (pre : List Byte) (b : Byte) (h : CommandTlv) (hbs : bs = pre ++ [b])
      (hclean : Clean H e₀ pre) (hh : (parse pre).completes b = some h)
      (href : Refused H e₀ (parse pre) h) (hlen : h.len < 2 ^ 63) (hs : s.Awaiting)
  | undefined (pre : List Byte) (b : Byte) (post : List Byte) (h : CommandTlv)
      (hbs : bs = pre ++ b :: post) (hclean : Clean H e₀ pre)
      (hh : (parse pre).completes b = some h) (href : Refused H e₀ (parse pre) h)
      (hpost : post ≠ [] ∨ 2 ^ 63 ≤ h.len) (hs : s.outcome = .undefined) (hbad : ¬ s.CopiesOk)

/-- The invariant of the inner loop over the read `data` behind the bytes `bs`: `done`
is consumed, `rest` is left, and a body can only be open at either end of the read. -/
def LoopInv (bs data : List Byte) (s : Recv σ) : Prop :=
  ∃ done rest, data = done ++ rest ∧ Sim H e₀ s (bs ++ done) ∧
    (s.outcome = .running → s.bytesLeft = rest.length ∧
      (s.recvCmd = true → done = [] ∨ rest = [])) ∧
    (s.outcome ≠ .running → rest = [])

/-- The passes that are left, at most. -/
def passesLeft (s : Recv σ) : ℕ := if s.outcome = .running then s.bytesLeft.toNat else 0

theorem passesLeft_lt {s s' : Recv σ} (hrun : s.outcome = .running) (hpos : 0 < s.bytesLeft)
    (h : s'.outcome = .running → s'.bytesLeft < s.bytesLeft) : s'.passesLeft < s.passesLeft := by
  unfold passesLeft
  rw [if_pos hrun]
  split_ifs with hrun'
  · have := h hrun'
    omega
  · omega

/-- A pass over `data` behind the bytes `bs` that keeps the invariant and takes at least
one byte, or leaves the loop at the end of the read. -/
def PassOk (bs data : List Byte) (s : Recv σ) (f : Flow (Recv σ)) : Prop :=
  f.Ends (fun s' => LoopInv H e₀ bs data s' ∧ s'.passesLeft < s.passesLeft)
    (fun s' => Sim H e₀ s' (bs ++ data))

/-- In a header of a clean stream. -/
structure InHeader (s : Recv σ) (bs got : List Byte) : Prop where
  clean : Clean H e₀ bs
  rel : Rel H e₀ s (parse bs)
  granted : ∀ q ∈ s.reservations, Granted bs q
  phase : (parse bs).phase = .header got

section HeaderPass

variable {H e₀} {s : Recv σ} {bs done got xs post : List Byte} {h : CommandTlv}

/-- The read ends inside the header. -/
theorem header_pass_part (hin : InHeader H e₀ s (bs ++ done) got) (hb : s.bytesLeft = xs.length)
    (hlt : got.length + xs.length < 12) : PassOk H e₀ bs (done ++ xs) s (s.body H (done ++ xs)) := by
  obtain ⟨s', hbody, hrel, hres⟩ := pass_header_part hin.rel hin.phase
    (rfl : done ++ xs = _) hb hlt
  rw [hbody]
  show Sim H e₀ s' (bs ++ (done ++ xs))
  rw [← List.append_assoc]
  apply Sim.clean
  · exact hin.clean.header_part hin.phase hlt
  · rwa [Reference.parse_append]
  · rw [hres]
    exact fun q hq => (hin.granted q hq).append xs

/-- The header is that of a flush frame. -/
theorem header_pass_flush (hin : InHeader H e₀ s (bs ++ done) got)
    (hb : s.bytesLeft = (xs ++ post).length) (hlen : got.length + xs.length = 12) (hxs : xs ≠ [])
    (ht : (CommandTlv.ofBytes (got ++ xs)).type = 2) :
    PassOk H e₀ bs (done ++ (xs ++ post)) s (s.body H (done ++ (xs ++ post))) := by
  have hxpos := List.length_pos_iff.mpr hxs
  rw [List.length_append] at hb
  obtain ⟨s', hbody, hrel, hb', hrecv, hres⟩ :=
    pass_flush hin.rel hin.phase (rfl : done ++ (xs ++ post) = _) (by simpa using hb) hlen hxs ht
  rw [hbody]
  constructor
  · refine ⟨done ++ xs, post, by simp, ?_, by simp [hb', hrecv], by simp [hrel.running]⟩
    rw [← List.append_assoc]
    apply Sim.clean
    · exact hin.clean.header_full hin.phase hlen hxs fun _ hr => hr.1 ht
    · rwa [Reference.parse_append]
    · rw [hres]
      exact fun q hq => (hin.granted q hq).append xs
  · apply passesLeft_lt hin.rel.running
    · omega
    · omega

/-- The command of the header is refused: where nothing follows it, `Recv` waits, and
otherwise it has copied to a null pointer. -/
theorem header_pass_refused (hin : InHeader H e₀ s (bs ++ done) got)
    (hb : s.bytesLeft = (xs ++ post).length) (hlen : got.length + xs.length = 12) (hxs : xs ≠ [])
    (hh : CommandTlv.ofBytes (got ++ xs) = h) (href : Refused H e₀ (parse (bs ++ done)) h) :
    PassOk H e₀ bs (done ++ (xs ++ post)) s (s.body H (done ++ (xs ++ post))) := by
  have hpos := List.length_pos_iff.mpr hxs
  obtain ⟨s', hbody, hwait, hbad⟩ :=
    pass_refused hin.rel hin.phase (rfl : done ++ (xs ++ post) = _) hb hlen hh href
  rw [List.length_append] at hb
  -- the header's last byte is the one that the parser refuses at
  obtain ⟨ys, b, rfl, hrun, hcomp⟩ := header_last hin.phase hlen hxs
  rw [hh] at hcomp
  rw [List.length_append, List.length_singleton] at hlen
  have hclean : Clean H e₀ (bs ++ done ++ ys) := hin.clean.header_part hin.phase (by omega)
  have href' : Refused H e₀ (parse (bs ++ done ++ ys)) h := by
    rw [hrun]
    exact href
  rw [hbody]
  by_cases hlast : post = [] ∧ h.len < 2 ^ 63
  · obtain ⟨rfl, hsmall⟩ := hlast
    obtain ⟨hs', hb'⟩ := hwait ⟨rfl, hsmall⟩
    constructor
    · refine ⟨done ++ (ys ++ [b]), [], by simp, ?_, by simp [hb'], by simp⟩
      exact .awaiting _ b h (by simp) hclean hcomp href' hsmall hs'
    · apply passesLeft_lt hin.rel.running
      · omega
      · omega
  · have hpost : post ≠ [] ∨ 2 ^ 63 ≤ h.len := by
      by_cases hnil : post = []
      · exact .inr (Nat.le_of_not_lt fun hsmall => hlast ⟨hnil, hsmall⟩)
      · exact .inl hnil
    obtain ⟨hout, hcopies⟩ := hbad hpost
    constructor
    · refine ⟨done ++ (ys ++ [b] ++ post), [], by simp, ?_, by simp [hout], by simp⟩
      exact .undefined _ b post h (by simp) hclean hcomp href' hpost hout hcopies
    · apply passesLeft_lt hin.rel.running
      · omega
      · simp [hout]

/-- The header begins a command that gets room. -/
theorem header_pass_command (hin : InHeader H e₀ s (bs ++ done) got)
    (hb : s.bytesLeft = (xs ++ post).length) (hlen : got.length + xs.length = 12) (hxs : xs ≠ [])
    (hh : CommandTlv.ofBytes (got ++ xs) = h) (ht : h.type ≠ 2)
    (href : ¬ Refused H e₀ (parse (bs ++ done)) h) :
    PassOk H e₀ bs (done ++ (xs ++ post)) s (s.body H (done ++ (xs ++ post))) := by
  have hp := hin.phase
  have hxpos := List.length_pos_iff.mpr hxs
  obtain ⟨s', hbody, hrel, hb', hrecv, hres⟩ :=
    pass_command hin.rel hp (rfl : done ++ (xs ++ post) = _) hb hlen hxs hh ht href
  rw [List.length_append] at hb
  have hphase := Reference.onHeader_command_phase (r := parse (bs ++ done)) ht
  rw [← hh, ← Reference.run_header_full hp hlen hxs, ← Reference.parse_append, hh] at hphase
  have hclean : Clean H e₀ (bs ++ done ++ (xs ++ post.take h.len)) := by
    rw [← List.append_assoc]
    exact (hin.clean.header_full hp hlen hxs fun _ => hh ▸ href).begun hphase
  have hgranted : Granted (bs ++ done ++ (xs ++ post.take h.len))
      ⟨(parse (bs ++ done)).pending.length, h.len,
        some ((parse (bs ++ done)).onHeader h).pending.length⟩ := by
    obtain ⟨ys, b, rfl, hrun, hcomp⟩ := header_last hp hlen hxs
    rw [hh] at hcomp
    refine ⟨bs ++ done ++ ys, b, post.take h.len, h, by simp, hcomp, ht, ?_⟩
    simp only [hrun, Reference.onHeader_phase]
  rw [hbody]
  constructor
  · refine ⟨done ++ (xs ++ post.take h.len), post.drop h.len, by simp, ?_,
      fun _ => ⟨hb', fun hc => .inr (hrecv hc)⟩, by simp [hrel.running]⟩
    rw [← List.append_assoc]
    apply Sim.clean hclean
    · rwa [Reference.parse_append]
    · rw [hres]
      intro q hq
      rcases List.mem_append.mp hq with hq | hq
      · exact (hin.granted q hq).append _
      · exact List.mem_singleton.mp hq ▸ hgranted
  · rw [List.length_drop] at hb'
    apply passesLeft_lt hin.rel.running
    · omega
    · omega

/-- A pass that starts in a header. -/
theorem header_pass {rest : List Byte} (hin : InHeader H e₀ s (bs ++ done) got)
    (hb : s.bytesLeft = rest.length) :
    PassOk H e₀ bs (done ++ rest) s (s.body H (done ++ rest)) := by
  have hplace := hin.rel.place
  simp only [Place, hin.phase] at hplace
  have hpartly := hplace.partly
  by_cases hlt : got.length + rest.length < 12
  · exact header_pass_part hin hb hlt
  -- the read holds the rest of the header
  obtain ⟨xs, post, rfl, hlen, hxs⟩ := Reference.header_split hpartly (Nat.not_lt.mp hlt)
  by_cases ht : (CommandTlv.ofBytes (got ++ xs)).type = 2
  · exact header_pass_flush hin hb hlen hxs ht
  by_cases href : Refused H e₀ (parse (bs ++ done)) (CommandTlv.ofBytes (got ++ xs))
  · exact header_pass_refused hin hb hlen hxs rfl href
  · exact header_pass_command hin hb hlen hxs rfl ht href

end HeaderPass

section Loop

variable {H e₀} {s : Recv σ} {bs data : List Byte}

/-- A pass that starts inside a body is the first one of its read. -/
theorem body_pass {len : ℕ} {got : List Byte} (hclean : Clean H e₀ bs)
    (hrel : Rel H e₀ s (parse bs)) (hres : ∀ q ∈ s.reservations, Granted bs q)
    (hp : (parse bs).phase = .command len got) (hb : s.bytesLeft = data.length)
    (hne : data ≠ []) : PassOk H e₀ bs data s (s.body H data) := by
  have hplace := hrel.place
  simp only [Place, hp] at hplace
  have hpartly := hplace.partly
  have hpos := List.length_pos_iff.mpr hne
  obtain ⟨s', hbody, hrel', hb', hrecv, hres'⟩ := pass_body hrel hp hb hne
  rw [hbody]
  constructor
  · refine ⟨data.take (len - got.length), data.drop (len - got.length), by simp, ?_,
      fun _ => ⟨hb', fun hc => .inr (hrecv hc)⟩, by simp [hrel'.running]⟩
    apply Sim.clean
    · apply hclean.command hp
      rw [List.length_take]
      omega
    · rwa [Reference.parse_append]
    · rw [hres']
      exact fun q hq => (hres q hq).append _
  · rw [List.length_drop] at hb'
    apply passesLeft_lt hrel.running
    · omega
    · omega

/-- Every pass keeps the invariant and takes at least one byte. -/
theorem body_loopInv (hinv : LoopInv H e₀ bs data s) (hg : s.guard = true) :
    PassOk H e₀ bs data s (s.body H data) := by
  simp only [guard, Bool.and_eq_true, decide_eq_true_eq] at hg
  obtain ⟨hpos, hrun⟩ := hg
  obtain ⟨done, rest, rfl, hsim, hopen, -⟩ := hinv
  obtain ⟨hb, hrecv⟩ := hopen hrun
  have hne : rest ≠ [] := by
    intro hnil
    simp [hb, hnil] at hpos
  cases hsim with
  | clean hclean hrel hres =>
    cases hp : (parse (bs ++ done)).phase with
    | header got => exact header_pass ⟨hclean, hrel, hres, hp⟩ hb
    | command len got =>
      have hplace := hrel.place
      simp only [Place, hp] at hplace
      obtain rfl := (hrecv hplace.recvCmd).resolve_right hne
      rw [List.append_nil] at hclean hrel hp hres
      exact body_pass hclean hrel hres hp hb hne
  | awaiting pre b h hbs hclean hh href hlen hs =>
    obtain rfl := (hrecv hs.recvCmd).resolve_right hne
    rw [List.append_nil] at hbs
    rw [List.nil_append]
    obtain ⟨s', hbody, hout, hbad⟩ := pass_awaiting (H := H) hs hne
    rw [hbody]
    constructor
    · refine ⟨rest, [], by simp, ?_, by simp [hout], by simp⟩
      exact .undefined pre b rest h (by simp [hbs]) hclean hh href (.inl hne) hout hbad
    · exact passesLeft_lt hrun hpos (by simp [hout])
  | undefined pre b post h hbs hclean hh href hpost hs hbad =>
    rw [hrun] at hs
    cases hs

theorem Sim.bytesLeft (h : Sim H e₀ s bs) (n : ℤ) : Sim H e₀ { s with bytesLeft := n } bs := by
  cases h with
  | clean hclean hrel hres =>
    refine .clean hclean ⟨hrel.running, hrel.env, ?_, hrel.copies⟩ hres
    have hplace := hrel.place
    unfold Place at hplace ⊢
    split at hplace
    · exact { hplace with }
    · exact { hplace with }
  | awaiting pre b h hbs hclean hh href hlen hs =>
    exact .awaiting pre b h hbs hclean hh href hlen { hs with }
  | undefined pre b post h hbs hclean hh href hpost hs hbad =>
    exact .undefined pre b post h hbs hclean hh href hpost hs hbad

/-- The inner loop ends within its `nread` passes, with the read consumed. -/
theorem innerLoop_sim (data : List Byte) (hsim : Sim H e₀ s bs) (hrun : s.outcome = .running) :
    ∃ t, whileLoop guard (body H data) data.length { s with bytesLeft := data.length } = some t ∧
      Sim H e₀ t (bs ++ data) := by
  have hinit : LoopInv H e₀ bs data { s with bytesLeft := data.length } :=
    ⟨[], data, rfl, by simpa using hsim.bytesLeft data.length, by simp, by simp [hrun]⟩
  have hpos (s' : Recv σ) (_ : LoopInv H e₀ bs data s') (hg : s'.guard = true) :
      0 < s'.passesLeft := by
    simp only [guard, Bool.and_eq_true, decide_eq_true_eq] at hg
    unfold passesLeft
    rw [if_pos hg.2]
    omega
  have hdone (s' : Recv σ) (hinv : LoopInv H e₀ bs data s') (hg : s'.guard = false) :
      Sim H e₀ s' (bs ++ data) := by
    obtain ⟨done, rest, rfl, hs', hopen, hclosed⟩ := hinv
    simp only [guard, Bool.and_eq_false_iff, decide_eq_false_iff_not] at hg
    have hrest : rest = [] := by
      by_cases hrun' : s'.outcome = .running
      · have hb := (hopen hrun').1
        rcases hg with hg | hg
        · exact List.length_eq_zero_iff.mp (by omega)
        · exact absurd hrun' hg
      · exact hclosed hrun'
    simpa [hrest] using hs'
  exact whileLoop_rule (LoopInv H e₀ bs data) (fun s' => Sim H e₀ s' (bs ++ data)) passesLeft hpos
    (fun s' => body_loopInv) hdone data.length _ hinit (by simp [passesLeft, hrun])

/-- A read keeps the simulation. -/
theorem onData_sim (data : List Byte) (hsim : Sim H e₀ s bs) (hrun : s.outcome = .running) :
    Sim H e₀ (s.onData H data) (bs ++ data) := by
  obtain ⟨t, ht, hsim'⟩ := innerLoop_sim data hsim hrun
  rw [onData, ht]
  exact hsim'

theorem Sim.append_of_not_running (h : Sim H e₀ s bs) (hrun : s.outcome ≠ .running)
    (more : List Byte) : Sim H e₀ s (bs ++ more) := by
  cases h with
  | clean hclean hrel hres => exact absurd hrel.running hrun
  | awaiting pre b h hbs hclean hh href hlen hs => exact absurd hs.running hrun
  | undefined pre b post h hbs hclean hh href hpost hs hbad =>
    refine .undefined pre b (post ++ more) h (by simp [hbs]) hclean hh href ?_ hs hbad
    exact hpost.imp_left (by simp_all)

/-- Reads keep the simulation; a return leaves everything else as it was. -/
theorem run_sim (hsim : Sim H e₀ s bs) (rs : List Received) :
    ∃ t, Sim H e₀ t (bs ++ receivedBytes rs) ∧
      s.run H rs = { t with outcome := (s.run H rs).outcome } := by
  induction rs generalizing s bs with
  | nil => exact ⟨s, by simpa [receivedBytes] using hsim, rfl⟩
  | cons r rs ih =>
    by_cases hrun : s.outcome = .running
    · rw [run_cons]
      have hstep : s.step H r = _ := if_pos hrun
      cases r with
      | data c =>
        rw [hstep]
        have h := ih (onData_sim c.bytes hsim hrun)
        rwa [List.append_assoc] at h
      | again =>
        rw [hstep]
        exact ih hsim
      | closed =>
        rw [run_of_not_running H (by rw [hstep]; simp), hstep]
        exact ⟨s, by simpa [receivedBytes] using hsim, rfl⟩
      | failed e =>
        rw [run_of_not_running H (by rw [hstep]; simp), hstep]
        exact ⟨s, by simpa [receivedBytes] using hsim, rfl⟩
    · rw [run_of_not_running H hrun]
      exact ⟨s, hsim.append_of_not_running hrun _, rfl⟩

theorem Entered.sim (h : s.Entered) : Sim H s.env s [] :=
  .clean Reference.headersMeet_nil {
    running := h.running
    env := rfl
    place := {
      recvCmd := h.recvCmd
      partly := by simp
      hdrLenLeft := by simpa using h.hdrLenLeft
      cmd := rfl
      mOffset := h.empty
      mBuffer := rfl
      fits := by simp [parse, Reference.init] }
    copies := by simp [CopiesOk, h.copies] } (by simp [h.reservations])

/-- On a stream without a refused command only the parser's state is possible. -/
theorem Sim.rel (h : Sim H e₀ s bs) (hclean : Clean H e₀ bs) :
    Rel H e₀ s (parse bs) ∧ ∀ q ∈ s.reservations, Granted bs q := by
  cases h with
  | clean _ hrel hgranted => exact ⟨hrel, hgranted⟩
  | awaiting pre b h' hbs _ hh href _ _ => exact absurd href (hclean pre b [] h' hbs hh)
  | undefined pre b post h' hbs _ hh href _ _ _ => exact absurd href (hclean pre b post h' hbs hh)

/-- On a stream without a refused command `Recv` is where the parser is. -/
theorem run_rel_of_clean (h : s.Entered) (rs : List Received)
    (hclean : Clean H s.env (receivedBytes rs)) :
    ∃ t, Rel H s.env t (parse (receivedBytes rs)) ∧
      (∀ q ∈ t.reservations, Granted (receivedBytes rs) q) ∧
      s.run H rs = { t with outcome := (s.run H rs).outcome } := by
  obtain ⟨t, hsim, hrun⟩ := run_sim (h.sim (H := H)) rs
  rw [List.nil_append] at hsim
  obtain ⟨hrel, hgranted⟩ := hsim.rel hclean
  exact ⟨t, hrel, hgranted, hrun⟩

/-- The handler has seen the parser's calls. -/
theorem run_env_of_clean (h : s.Entered) (rs : List Received)
    (hclean : Clean H s.env (receivedBytes rs)) :
    (s.run H rs).env = H.after s.env (parse (receivedBytes rs)).calls := by
  obtain ⟨t, hrel, -, hrun⟩ := run_rel_of_clean h rs hclean
  rw [hrun]
  exact hrel.env

/-- Every reservation is one of the parser's. -/
theorem run_reservations_of_clean (h : s.Entered) (rs : List Received)
    (hclean : Clean H s.env (receivedBytes rs)) :
    ∀ q ∈ (s.run H rs).reservations, Granted (receivedBytes rs) q := by
  obtain ⟨t, -, hgranted, hrun⟩ := run_rel_of_clean h rs hclean
  rw [hrun]
  exact hgranted

/-- Between two frames: no body is open and no byte of a header is there. -/
def BetweenFrames (s : Recv σ) : Prop := s.recvCmd = false ∧ s.hdrLenLeft = 12

instance (s : Recv σ) : Decidable s.BetweenFrames := by
  unfold BetweenFrames
  infer_instance

/-- `Recv` is between two frames exactly when the parser is. -/
theorem betweenFrames_iff (h : s.Entered) (rs : List Received)
    (hclean : Clean H s.env (receivedBytes rs)) :
    (s.run H rs).BetweenFrames ↔ (parse (receivedBytes rs)).phase = .header [] := by
  obtain ⟨t, hrel, -, hrun⟩ := run_rel_of_clean h rs hclean
  have hplace := hrel.place
  rw [hrun]
  simp only [BetweenFrames]
  unfold Place at hplace
  split at hplace
  · rename_i got hphase
    rw [hphase, hplace.hdrLenLeft, Phase.header.injEq, ← List.length_eq_zero_iff]
    simp only [hplace.recvCmd, true_and]
    omega
  · rename_i len got hphase
    rw [hphase]
    simp [hplace.recvCmd]

end Loop

/-! ## The calls of the handler -/

theorem receivedBytes_prefix {rs reads : List Received} (h : rs <+: reads) :
    receivedBytes rs <+: receivedBytes reads := by
  obtain ⟨more, rfl⟩ := h
  induction rs with
  | nil => exact List.nil_prefix
  | cons r rs ih =>
    cases r with
    | data c => exact (List.prefix_append_right_inj _).mpr ih
    | again => exact ih
    | closed => exact List.prefix_refl _
    | failed e => exact List.prefix_refl _

/-- The handler accepts every batch of the stream that is handed over for lack of
space. -/
def AcceptsForSpace (answer : List (List Byte) → List Byte → Bool) (bs : List Byte) : Prop :=
  ∀ pre b post h, bs = pre ++ b :: post → (parse pre).completes b = some h → h.type ≠ 2 →
    2000000 < (parse pre).pending.length + h.len →
    answer (parse pre).calls (parse pre).pending = true

theorem clean_of_bounded {answer : List (List Byte) → List Byte → Bool} {bs : List Byte}
    (hlen : ∀ h ∈ headersOf bs, h.type ≠ 2 → h.len ≤ 2000000) (hacc : AcceptsForSpace answer bs) :
    Clean (CommandHandler.recorder answer) [] bs := by
  rintro pre b post h hbs hc ⟨ht, hbig | ⟨hfull, hno⟩⟩
  · have := hlen h (Reference.mem_headersOf bs _ rfl hbs hc) ht
    omega
  · rw [CommandHandler.recorder_after, List.nil_append] at hno
    simp [CommandHandler.recorder, hacc pre b post h hbs hc ht hfull] at hno

/-- `Recv` implements the wire grammar, whatever the reads: after each of them the
handler's calls are those of the byte-at-a-time parser on the bytes received so far,
and with what is pending they are made of complete commands. -/
theorem recv_calls_eq_reference (answer : List (List Byte) → List Byte → Bool)
    (s : Recv (List (List Byte))) (hs : s.Entered) (hlog : s.env = []) (reads : List Received)
    (hlen : ∀ h ∈ headersOf (receivedBytes reads), h.type ≠ 2 → h.len ≤ 2000000)
    (hacc : AcceptsForSpace answer (receivedBytes reads)) :
    ∀ rs, rs <+: reads →
      (s.run (CommandHandler.recorder answer) rs).env = (parse (receivedBytes rs)).calls ∧
      (parse (receivedBytes rs)).calls.flatten ++ (parse (receivedBytes rs)).pending =
        (commandsOf (receivedBytes rs)).flatten := by
  intro rs hrs
  obtain ⟨more, hmore⟩ := receivedBytes_prefix hrs
  have hclean := clean_of_bounded hlen hacc
  rw [← hmore, ← hlog] at hclean
  constructor
  · rw [run_env_of_clean hs rs hclean.left, CommandHandler.recorder_after, hlog, List.nil_append]
  · have h := Reference.run_commandsOf (receivedBytes rs) Reference.init rfl
    simpa [parse, Reference.init] using h

/-- A command of one byte and a flush, read in two pieces with an `EAGAIN` in between. -/
def splitReads : List Received :=
  [.data ⟨(frame [7] ++ flushHeader).take 5, by decide, by decide⟩, .again,
    .data ⟨(frame [7] ++ flushHeader).drop 5, by decide, by decide⟩]

theorem recv_calls_eq_reference_splitReads :
    ((enter []).run (CommandHandler.recorder fun _ _ => true) splitReads).env =
        (parse (receivedBytes splitReads)).calls ∧
      (parse (receivedBytes splitReads)).calls.flatten ++
          (parse (receivedBytes splitReads)).pending =
        (commandsOf (receivedBytes splitReads)).flatten :=
  recv_calls_eq_reference (fun _ _ => true) (enter []) (enter_entered []) rfl splitReads
    (by decide +kernel) (fun _ _ _ _ _ _ _ _ => rfl) splitReads (List.prefix_refl _)

example : ((enter []).run (CommandHandler.recorder fun _ _ => true) splitReads).env = [[7]] := by
  decide +kernel

end Recv

end WebGpuDD
