import WebGpuDD.CommandTlv

/-!
# The wire grammar

The meaning of a received stream, twice. `commandsOf` and `headersOf` read whole
frames off the front of a byte string; `Reference` is a parser that takes one byte
at a time and also says which batches are handed over, and when. It knows nothing
of reads, copies or buffer offsets.
-/

namespace WebGpuDD

open LittleEndian

/-! ## Whole frames -/

/-- The headers that are complete in a stream, in order. A flush frame has no body,
whatever its `len` says. -/
def headersOf (bs : List Byte) : List CommandTlv :=
  if bs.length < 12 then []
  else
    let h := CommandTlv.ofBytes (bs.take 12)
    h :: headersOf (bs.drop (12 + if h.type = 2 then 0 else h.len))
termination_by bs.length
decreasing_by simp only [List.length_drop]; omega

/-- The bodies of the commands that are complete in a stream, in order. -/
def commandsOf (bs : List Byte) : List (List Byte) :=
  if bs.length < 12 then []
  else
    let h := CommandTlv.ofBytes (bs.take 12)
    if h.type = 2 then commandsOf (bs.drop 12)
    else if bs.length < 12 + h.len then []
    else (bs.drop 12).take h.len :: commandsOf (bs.drop (12 + h.len))
termination_by bs.length
decreasing_by
  all_goals
    simp only [List.length_drop]
    omega

/-! ## One byte at a time -/

/-- Where the parser stands: in a header, or in the body of a command of `len > 0`
bytes, with what it has of it. -/
inductive Phase where
  | header (got : List Byte)
  | command (len : ℕ) (got : List Byte)
  deriving DecidableEq

/-- The parser: its place in the stream, the complete commands that are not handed
over yet, and the batches that are. -/
structure Reference where
  phase : Phase
  pending : List Byte
  calls : List (List Byte)
  deriving DecidableEq

namespace Reference

def init : Reference := ⟨.header [], [], []⟩

def handOver (r : Reference) : Reference :=
  { r with pending := [], calls := r.calls ++ [r.pending] }

/-- A complete header. Type 2 hands over everything pending; any other type does so
when its command would not fit behind what is pending. -/
def onHeader (r : Reference) (h : CommandTlv) : Reference :=
  if h.type = 2 then { r.handOver with phase := .header [] }
  else
    let r' := if 2000000 < r.pending.length + h.len then r.handOver else r
    { r' with phase := if h.len = 0 then .header [] else .command h.len [] }

/-- The header that a byte completes, if it completes one. -/
def completes (r : Reference) (b : Byte) : Option CommandTlv :=
  match r.phase with
  | .header got => if got.length + 1 < 12 then none else some (CommandTlv.ofBytes (got ++ [b]))
  | .command _ _ => none

def feed (r : Reference) (b : Byte) : Reference :=
  match r.phase with
  | .header got =>
    if got.length + 1 < 12 then { r with phase := .header (got ++ [b]) }
    else r.onHeader (CommandTlv.ofBytes (got ++ [b]))
  | .command len got =>
    if got.length + 1 < len then { r with phase := .command len (got ++ [b]) }
    else { r with phase := .header [], pending := r.pending ++ (got ++ [b]) }

def run (r : Reference) (bs : List Byte) : Reference := bs.foldl feed r

/-- The parser after a stream. -/
def parse (bs : List Byte) : Reference := init.run bs

@[simp] theorem run_nil (r : Reference) : r.run [] = r := rfl

theorem run_cons (r : Reference) (b : Byte) (bs : List Byte) :
    r.run (b :: bs) = (r.feed b).run bs := rfl

theorem run_append (r : Reference) (bs cs : List Byte) :
    r.run (bs ++ cs) = (r.run bs).run cs := List.foldl_append

theorem parse_append (bs cs : List Byte) : parse (bs ++ cs) = (parse bs).run cs :=
  run_append init bs cs

/-! ## Pieces of a frame -/

variable {r : Reference} {got xs : List Byte} {len : ℕ}

theorem run_header_part (hr : r.phase = .header got) (h : got.length + xs.length < 12) :
    r.run xs = { r with phase := .header (got ++ xs) } := by
  induction xs generalizing r got with
  | nil => simp [← hr]
  | cons b xs ih =>
    simp only [List.length_cons] at h
    have hf : r.feed b = { r with phase := .header (got ++ [b]) } := by
      simp only [feed, hr]
      rw [if_pos (by omega)]
    have hlt : (got ++ [b]).length + xs.length < 12 := by
      simp
      omega
    rw [run_cons, hf, ih rfl hlt]
    simp

/-- What a header does depends on the parser's batches alone. -/
theorem onHeader_phase (r : Reference) (p : Phase) (h : CommandTlv) :
    ({ r with phase := p } : Reference).onHeader h = r.onHeader h := by
  unfold onHeader handOver
  split_ifs <;> rfl

theorem run_header_full (hr : r.phase = .header got) (h : got.length + xs.length = 12)
    (hne : xs ≠ []) : r.run xs = r.onHeader (CommandTlv.ofBytes (got ++ xs)) := by
  obtain ⟨ys, b, rfl⟩ := List.eq_nil_or_concat' xs |>.resolve_left hne
  simp only [List.length_append, List.length_singleton] at h
  rw [run_append, run_header_part hr (by omega), run_cons, run_nil, ← onHeader_phase]
  simp only [feed, List.length_append, List.append_assoc]
  rw [if_neg (by omega)]

theorem run_command_part (hr : r.phase = .command len got) (h : got.length + xs.length < len) :
    r.run xs = { r with phase := .command len (got ++ xs) } := by
  induction xs generalizing r got with
  | nil => simp [← hr]
  | cons b xs ih =>
    simp only [List.length_cons] at h
    have hf : r.feed b = { r with phase := .command len (got ++ [b]) } := by
      simp only [feed, hr]
      rw [if_pos (by omega)]
    have hlt : (got ++ [b]).length + xs.length < len := by
      simp
      omega
    rw [run_cons, hf, ih rfl hlt]
    simp

theorem run_command_full (hr : r.phase = .command len got) (h : got.length + xs.length = len)
    (hne : xs ≠ []) :
    r.run xs = { r with phase := .header [], pending := r.pending ++ (got ++ xs) } := by
  obtain ⟨ys, b, rfl⟩ := List.eq_nil_or_concat' xs |>.resolve_left hne
  simp only [List.length_append, List.length_singleton] at h
  rw [run_append, run_command_part hr (by omega), run_cons, run_nil]
  simp only [feed, List.length_append, List.append_assoc]
  rw [if_neg (by omega)]

/-! ## Whole frames -/

@[simp] theorem onHeader_flush {h : CommandTlv} (ht : h.type = 2) :
    r.onHeader h = ⟨.header [], [], r.calls ++ [r.pending]⟩ := by
  simp [onHeader, handOver, ht]

theorem onHeader_command_phase {h : CommandTlv} (ht : h.type ≠ 2) :
    (r.onHeader h).phase = if h.len = 0 then .header [] else .command h.len [] := by
  simp [onHeader, ht]

/-- A header moves pending bytes to the calls or leaves them where they are. -/
theorem onHeader_flatten (h : CommandTlv) :
    (r.onHeader h).calls.flatten ++ (r.onHeader h).pending = r.calls.flatten ++ r.pending := by
  unfold onHeader handOver
  split_ifs <;> simp

/-- The 12 bytes of a header in front of a stream. -/
theorem run_of_header (hr : r.phase = .header []) {bs : List Byte} (h : 12 ≤ bs.length) :
    r.run bs = (r.onHeader (CommandTlv.ofBytes (bs.take 12))).run (bs.drop 12) := by
  have htake : (bs.take 12).length = 12 := by simpa using h
  have hne : bs.take 12 ≠ [] := by
    intro hnil
    simp [hnil] at htake
  have hrun : r.run (bs.take 12) = r.onHeader (CommandTlv.ofBytes (bs.take 12)) :=
    run_header_full hr (by simpa using h) hne
  rw [← hrun, ← run_append, List.take_append_drop]

/-- The whole body of a command, which may be empty. -/
theorem run_body (hr : r.phase = if len = 0 then .header [] else .command len [])
    (h : xs.length = len) : r.run xs = ⟨.header [], r.pending ++ xs, r.calls⟩ := by
  by_cases hlen : len = 0
  · rw [if_pos hlen] at hr
    have hnil : xs = [] := List.length_eq_zero_iff.mp (h.trans hlen)
    simp [hnil, ← hr]
  · rw [if_neg hlen] at hr
    apply run_command_full hr (by simpa using h)
    intro hnil
    simp [hnil] at h
    exact hlen h.symm

/-- A whole command in front of a stream. -/
theorem run_of_command {h : CommandTlv} (hr : r.phase = .header []) {bs : List Byte}
    (hh : CommandTlv.ofBytes (bs.take 12) = h) (ht : h.type ≠ 2) (hlen : 12 + h.len ≤ bs.length) :
    r.run bs = Reference.run ⟨.header [], (r.onHeader h).pending ++ (bs.drop 12).take h.len,
      (r.onHeader h).calls⟩ (bs.drop (12 + h.len)) := by
  have hbody : ((bs.drop 12).take h.len).length = h.len := by
    rw [List.length_take, List.length_drop]
    omega
  have hsplit : bs.drop 12 = (bs.drop 12).take h.len ++ bs.drop (12 + h.len) := by
    rw [← List.drop_drop, List.take_append_drop]
  rw [run_of_header hr (by omega), hh, ← run_body (onHeader_command_phase (r := r) ht) hbody,
    ← run_append, ← hsplit]

/-- The first header of a stream completes with the stream's twelfth byte. -/
theorem completes_first (hr : r.phase = .header []) {pre : List Byte} (post : List Byte)
    {b : Byte} {h : CommandTlv} (hpre : pre.length < 12) (hc : (r.run pre).completes b = some h) :
    12 ≤ (pre ++ b :: post).length ∧ CommandTlv.ofBytes ((pre ++ b :: post).take 12) = h := by
  rw [run_header_part hr (by simpa using hpre)] at hc
  simp only [completes, List.nil_append] at hc
  split at hc
  · cases hc
  · have hlen : (pre ++ [b]).length = 12 := by
      rw [List.length_append, List.length_singleton]
      omega
    have hsplit : pre ++ b :: post = (pre ++ [b]) ++ post := by simp
    rw [hsplit]
    constructor
    · rw [List.length_append]
      omega
    · rw [List.take_left' hlen]
      exact Option.some.inj hc

/-! ## The two readings agree -/

/-- The bytes handed over and the pending ones are those of the complete commands. -/
theorem run_commandsOf (bs : List Byte) (r : Reference) (hr : r.phase = .header []) :
    (r.run bs).calls.flatten ++ (r.run bs).pending =
      r.calls.flatten ++ r.pending ++ (commandsOf bs).flatten := by
  fun_induction commandsOf bs generalizing r with
  | case1 bs hlt =>
    rw [run_header_part hr (by simpa using hlt)]
    simp
  | case2 bs hlt h ht ih =>
    have hon : (r.onHeader h).phase = .header [] := by rw [onHeader_flush ht]
    rw [run_of_header hr (by omega), ih _ hon, onHeader_flatten]
  | case3 bs hlt h ht hshort =>
    have hon := onHeader_command_phase (r := r) ht
    rw [if_neg (by omega)] at hon
    rw [run_of_header hr (by omega), run_command_part hon (by simp; omega)]
    simpa using onHeader_flatten (r := r) h
  | case4 bs hlt h ht hlong ih =>
    rw [run_of_command (h := h) hr rfl ht (by omega), ih _ rfl]
    simp only [List.flatten_cons, ← List.append_assoc]
    rw [onHeader_flatten]

/-- A header that completes is one of the stream's headers. -/
theorem mem_headersOf (bs : List Byte) (r : Reference) (hr : r.phase = .header [])
    {pre post : List Byte} {b : Byte} {h : CommandTlv} (hbs : bs = pre ++ b :: post)
    (hc : (r.run pre).completes b = some h) : h ∈ headersOf bs := by
  fun_induction headersOf bs generalizing r pre with
  | case1 bs hlt =>
    have hlen := congrArg List.length hbs
    rw [List.length_append, List.length_cons] at hlen
    have hfirst := (completes_first hr post (by omega) hc).1
    rw [← hbs] at hfirst
    omega
  | case2 bs hlt h₀ ih =>
    by_cases hpre : pre.length < 12
    · -- it is the first header itself
      have hfirst := (completes_first hr post hpre hc).2
      rw [← hbs] at hfirst
      rw [← hfirst]
      exact List.mem_cons_self
    · -- it completes behind the first frame, or inside its body
      have htake : pre.take 12 = bs.take 12 := by
        rw [hbs, List.take_append_of_le_length (by omega)]
      have hfirst : CommandTlv.ofBytes (pre.take 12) = h₀ := congrArg CommandTlv.ofBytes htake
      apply List.mem_cons_of_mem
      by_cases ht : h₀.type = 2
      · have hon : (r.onHeader h₀).phase = .header [] := by rw [onHeader_flush ht]
        rw [run_of_header hr (by omega), hfirst] at hc
        simp only [if_pos ht, dif_pos ht] at ih ⊢
        apply ih _ hon _ hc
        rw [hbs, List.drop_append_of_le_length (by omega)]
      · simp only [if_neg ht, dif_neg ht] at ih ⊢
        by_cases hbody : pre.length < 12 + h₀.len
        · -- inside the body no header can complete
          have hon := onHeader_command_phase (r := r) ht
          rw [if_neg (by omega)] at hon
          rw [run_of_header hr (by omega), hfirst, run_command_part hon (by simp; omega)] at hc
          cases hc
        · rw [run_of_command hr hfirst ht (by omega)] at hc
          apply ih _ rfl _ hc
          rw [hbs, List.drop_append_of_le_length (by omega)]

/-! ## The headers of a stream -/

/-- Every header of the stream meets `Q`, which also sees the parser in front of it. -/
def HeadersMeet (Q : Reference → CommandTlv → Prop) (bs : List Byte) : Prop :=
  ∀ pre b post h, bs = pre ++ b :: post → (parse pre).completes b = some h → Q (parse pre) h

section HeadersMeet

variable {Q Q' : Reference → CommandTlv → Prop} {bs xs got : List Byte}

theorem headersMeet_nil : HeadersMeet Q [] := by
  intro pre b post h hbs
  simp at hbs

theorem HeadersMeet.imp (hbs : HeadersMeet Q bs) (h : ∀ r t, Q r t → Q' r t) :
    HeadersMeet Q' bs :=
  fun pre b post t hpre ht => h _ t (hbs pre b post t hpre ht)

theorem HeadersMeet.append (hbs : HeadersMeet Q bs)
    (hxs : ∀ pre b post h, xs = pre ++ b :: post → (parse (bs ++ pre)).completes b = some h →
      Q (parse (bs ++ pre)) h) : HeadersMeet Q (bs ++ xs) := by
  intro pre b post h heq
  rcases List.append_eq_append_iff.mp heq with ⟨as, rfl, hx⟩ | ⟨cs, hb, hx⟩
  · exact hxs as b post h hx
  · cases cs with
    | nil =>
      rw [List.append_nil] at hb
      have := hxs [] b post h (by simpa using hx.symm)
      rwa [List.append_nil, hb] at this
    | cons c cs =>
      obtain ⟨rfl, -⟩ := List.cons.inj hx
      exact hbs pre b cs h hb

theorem HeadersMeet.left (h : HeadersMeet Q (bs ++ xs)) : HeadersMeet Q bs := by
  intro pre b post h' hbs
  exact h pre b (post ++ xs) h' (by rw [hbs]; simp)

/-- No header completes before its twelfth byte. -/
theorem HeadersMeet.header_part (hbs : HeadersMeet Q bs) (hp : (parse bs).phase = .header got)
    (hlt : got.length + xs.length < 12) : HeadersMeet Q (bs ++ xs) := by
  apply hbs.append
  intro pre b post h hxs hc
  have hlen := congrArg List.length hxs
  simp only [List.length_append, List.length_cons] at hlen
  rw [parse_append, run_header_part hp (by omega)] at hc
  simp only [completes, List.length_append] at hc
  rw [if_pos (by omega)] at hc
  cases hc

/-- Enough bytes for the header that is begun start with the rest of it. -/
theorem header_split {rest : List Byte} (hgot : got.length < 12)
    (hrest : 12 ≤ got.length + rest.length) :
    ∃ xs post, rest = xs ++ post ∧ got.length + xs.length = 12 ∧ xs ≠ [] := by
  have hlen : got.length + (rest.take (12 - got.length)).length = 12 := by
    rw [List.length_take]
    omega
  refine ⟨_, _, (List.take_append_drop _ rest).symm, hlen, ?_⟩
  intro hnil
  rw [hnil, List.length_nil] at hlen
  omega

/-- The twelfth byte of a header completes it. -/
theorem header_last (hp : (parse bs).phase = .header got) (hlen : got.length + xs.length = 12)
    (hne : xs ≠ []) : ∃ ys b, xs = ys ++ [b] ∧
      parse (bs ++ ys) = { parse bs with phase := .header (got ++ ys) } ∧
      (parse (bs ++ ys)).completes b = some (CommandTlv.ofBytes (got ++ xs)) := by
  obtain ⟨ys, b, rfl⟩ := List.eq_nil_or_concat' xs |>.resolve_left hne
  simp only [List.length_append, List.length_singleton] at hlen
  have hrun : parse (bs ++ ys) = { parse bs with phase := .header (got ++ ys) } := by
    rw [parse_append, run_header_part hp (by omega)]
  refine ⟨ys, b, rfl, hrun, ?_⟩
  simp only [hrun, completes, List.length_append, List.append_assoc]
  rw [if_neg (by omega)]

theorem HeadersMeet.header_full (hbs : HeadersMeet Q bs) (hp : (parse bs).phase = .header got)
    (hlen : got.length + xs.length = 12) (hne : xs ≠ [])
    (hq : ∀ p, Q { parse bs with phase := p } (CommandTlv.ofBytes (got ++ xs))) :
    HeadersMeet Q (bs ++ xs) := by
  obtain ⟨ys, b, rfl, hrun, hcomp⟩ := header_last hp hlen hne
  rw [List.length_append, List.length_singleton] at hlen
  have hpart : HeadersMeet Q (bs ++ ys) := hbs.header_part hp (by omega)
  rw [← List.append_assoc]
  apply hpart.append
  intro pre c post h hpost hc
  have hpre : pre = [] := by
    have := congrArg List.length hpost
    simp only [List.length_append, List.length_cons, List.length_nil] at this
    exact List.length_eq_zero_iff.mp (by omega)
  subst hpre
  obtain ⟨rfl, -⟩ := List.cons.inj hpost
  rw [List.append_nil] at hc ⊢
  rw [hcomp] at hc
  rw [hrun, ← Option.some.inj hc]
  exact hq _

/-- No header completes inside a body. -/
theorem HeadersMeet.command (hbs : HeadersMeet Q bs) (hp : (parse bs).phase = .command len got)
    (hle : got.length + xs.length ≤ len) : HeadersMeet Q (bs ++ xs) := by
  apply hbs.append
  intro pre b post h hxs hc
  have hlen := congrArg List.length hxs
  simp only [List.length_append, List.length_cons] at hlen
  rw [parse_append, run_command_part hp (by omega)] at hc
  cases hc

/-- The body of a command that starts where the stream ends, as far as it goes. -/
theorem HeadersMeet.begun (hbs : HeadersMeet Q bs)
    (hp : (parse bs).phase = if len = 0 then .header [] else .command len []) :
    HeadersMeet Q (bs ++ xs.take len) := by
  by_cases h : len = 0
  · simpa [h] using hbs
  · rw [if_neg h] at hp
    exact hbs.command hp (by simp)

end HeadersMeet

end Reference

end WebGpuDD
