import WebGpuDD.Lib.Runs

/-!
# Forward simulation

One system does what another one allows: every step of the first is matched by any number
of steps of the second, and what the two show on the way is the same. `Simulation.run` takes
this from a step to a run, so every trace of the first system is a trace of the second.
-/

namespace WebGpuDD.Runs

variable {σ τ α β ε : Type*}

/-- What the actions of a run show, each in the state in which it is taken. -/
def trace (step : σ → α → Option σ) (shows : σ → α → List ε) (s : σ) : List α → List ε
  | [] => []
  | a :: as => shows s a ++ (step s a).elim [] fun s' => trace step shows s' as

section Trace

variable {step : σ → α → Option σ} {shows : σ → α → List ε}

@[simp] theorem trace_nil (s : σ) : trace step shows s [] = [] := rfl

theorem trace_cons {s s' : σ} {a : α} (h : step s a = some s') (as : List α) :
    trace step shows s (a :: as) = shows s a ++ trace step shows s' as := by
  rw [trace, h]
  rfl

theorem trace_append {s t : σ} {as : List α} (h : run step s as = some t) (bs : List α) :
    trace step shows s (as ++ bs) = trace step shows s as ++ trace step shows t bs := by
  induction as generalizing s with
  | nil => rw [← Option.some.inj h, List.nil_append, trace_nil, List.nil_append]
  | cons a as ih =>
    rw [run_cons] at h
    obtain ⟨s', hs', ht⟩ := Option.bind_eq_some_iff.mp h
    rw [List.cons_append, trace_cons hs', trace_cons hs', ih ht, List.append_assoc]

variable (shows) in
/-- A step is a run. -/
theorem exists_run_of_step {s t : σ} {a : α} (h : step s a = some t) :
    ∃ as, run step s as = some t ∧ trace step shows s as = shows s a := by
  refine ⟨[a], ?_, ?_⟩
  · rw [run_cons, h, Option.bind_some, run_nil]
  · rw [trace_cons h, trace_nil, List.append_nil]

end Trace

/-- Each step of the first system is matched by steps of the second that show the same. -/
def Simulation (step₁ : σ → α → Option σ) (step₂ : τ → β → Option τ)
    (shows₁ : σ → α → List ε) (shows₂ : τ → β → List ε) (R : σ → τ → Prop) : Prop :=
  ∀ s a s' t, R s t → step₁ s a = some s' → ∃ bs t', run step₂ t bs = some t' ∧ R s' t' ∧
    trace step₂ shows₂ t bs = shows₁ s a

section Simulation

variable {step₁ : σ → α → Option σ} {step₂ : τ → β → Option τ}
  {shows₁ : σ → α → List ε} {shows₂ : τ → β → List ε} {R : σ → τ → Prop}

/-- So is each run. -/
theorem Simulation.run (h : Simulation step₁ step₂ shows₁ shows₂ R) {s s' : σ} {t : τ}
    {as : List α} (hR : R s t) (hrun : Runs.run step₁ s as = some s') :
    ∃ bs t', Runs.run step₂ t bs = some t' ∧ R s' t' ∧
      trace step₂ shows₂ t bs = trace step₁ shows₁ s as := by
  induction as generalizing s t with
  | nil => exact ⟨[], t, rfl, Option.some.inj hrun ▸ hR, rfl⟩
  | cons a as ih =>
    rw [run_cons] at hrun
    obtain ⟨u, hu, hrest⟩ := Option.bind_eq_some_iff.mp hrun
    obtain ⟨bs, t₁, hbs, hR₁, hshow⟩ := h s a u t hR hu
    obtain ⟨cs, t', hcs, hR', hshows⟩ := ih hR₁ hrest
    refine ⟨bs ++ cs, t', ?_, hR', ?_⟩
    · rw [run_append, hbs, Option.bind_some, hcs]
    · rw [trace_append hbs, hshow, hshows, trace_cons hu]

end Simulation

/-! ## Matched runs -/

/-- A run of each system, and both show the same. -/
structure Matched (step₁ : σ → α → Option σ) (step₂ : τ → β → Option τ)
    (shows₁ : σ → α → List ε) (shows₂ : τ → β → List ε) (s s' : σ) (t t' : τ)
    (as : List α) (bs : List β) : Prop where
  left : run step₁ s as = some s'
  right : run step₂ t bs = some t'
  same : trace step₂ shows₂ t bs = trace step₁ shows₁ s as

section Matched

variable {step₁ : σ → α → Option σ} {step₂ : τ → β → Option τ}
  {shows₁ : σ → α → List ε} {shows₂ : τ → β → List ε} {s s' s'' : σ} {t t' t'' : τ}
  {as as' : List α} {bs bs' : List β}

theorem Matched.nil (s : σ) (t : τ) : Matched step₁ step₂ shows₁ shows₂ s s t t [] [] :=
  ⟨rfl, rfl, rfl⟩

theorem Matched.trans (h : Matched step₁ step₂ shows₁ shows₂ s s' t t' as bs)
    (h' : Matched step₁ step₂ shows₁ shows₂ s' s'' t' t'' as' bs') :
    Matched step₁ step₂ shows₁ shows₂ s s'' t t'' (as ++ as') (bs ++ bs') where
  left := by rw [run_append, h.left, Option.bind_some, h'.left]
  right := by rw [run_append, h.right, Option.bind_some, h'.right]
  same := by rw [trace_append h.left, trace_append h.right, h.same, h'.same]

theorem Matched.single {a : α} (hstep : step₁ s a = some s') (hrun : run step₂ t bs = some t')
    (hshow : trace step₂ shows₂ t bs = shows₁ s a) :
    Matched step₁ step₂ shows₁ shows₂ s s' t t' [a] bs where
  left := by rw [run_cons, hstep, Option.bind_some, run_nil]
  right := hrun
  same := by rw [hshow, trace_cons hstep, trace_nil, List.append_nil]

/-- Where every state of `I` that is short of `m` has a step towards it, matched by a number
of steps `b` that `count` tells, there is such a run to `m`. -/
theorem exists_matched_to (I : σ → Prop) (pos count : σ → ℕ) (abs : σ → τ) {m : ℕ} {b : β}
    (hstep : ∀ s, I s → pos s < m → ∃ a s' k, I s' ∧ pos s < pos s' ∧ pos s' ≤ m ∧
      count s' = count s + k ∧ Matched step₁ step₂ shows₁ shows₂ s s' (abs s) (abs s') [a]
        (List.replicate k b))
    (hs : I s) (hpos : pos s ≤ m) :
    ∃ as s' k, I s' ∧ pos s' = m ∧ count s' = count s + k ∧
      Matched step₁ step₂ shows₁ shows₂ s s' (abs s) (abs s') as (List.replicate k b) := by
  induction hgap : m - pos s using Nat.strong_induction_on generalizing s with
  | _ gap ih =>
    rcases Nat.eq_or_lt_of_le hpos with heq | hlt
    · exact ⟨[], s, 0, hs, heq, rfl, Matched.nil s (abs s)⟩
    · obtain ⟨a, s₁, k, hs₁, hmore, hle, hcount, hmatched⟩ := hstep s hs hlt
      obtain ⟨as, s', l, hs', hm, hcount', hmatched'⟩ := ih (m - pos s₁) (by omega) hs₁ hle rfl
      refine ⟨a :: as, s', k + l, hs', hm, by omega, ?_⟩
      rw [List.replicate_add]
      exact hmatched.trans hmatched'

end Matched

end WebGpuDD.Runs
