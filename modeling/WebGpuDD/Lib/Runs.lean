import Mathlib.Data.List.Basic
import Mathlib.Data.List.Infix

/-!
# Runs of a partial step function

A system takes actions one after another; `step s a = none` says that action `a`
is not possible in state `s`. `run` takes a list of actions, `Along P` says that
`P` holds in every state that a run passes through, and `StepsMeet C` that every
action of the run is taken in a state where `C` allows it. `along_iff_stepsMeet`
is the exact form of an invariant: a step keeps `P` if and only if it meets `C`.
-/

namespace WebGpuDD.Runs

variable {σ α : Type*} (step : σ → α → Option σ)

/-- Take the actions one after another. -/
def run (s : σ) : List α → Option σ
  | [] => some s
  | a :: as => (step s a).bind fun s' => run s' as

/-- `P` holds in every state of the run, the first one included. -/
def Along (P : σ → Prop) (s : σ) (as : List α) : Prop :=
  ∀ pre, pre <+: as → ∀ s', run step s pre = some s' → P s'

/-- Every action of the run is taken in a state where `C` allows it. -/
def StepsMeet (C : σ → α → Prop) (s : σ) (as : List α) : Prop :=
  ∀ pre a post, as = pre ++ a :: post → ∀ s', run step s pre = some s' → C s' a

/-- A state that some run of actions leads to. -/
def Reachable (s t : σ) : Prop := ∃ as, run step s as = some t

variable {step}

@[simp] theorem run_nil (s : σ) : run step s [] = some s := rfl

theorem run_cons (s : σ) (a : α) (as : List α) :
    run step s (a :: as) = (step s a).bind fun s' => run step s' as := rfl

theorem run_append (s : σ) (as bs : List α) :
    run step s (as ++ bs) = (run step s as).bind fun s' => run step s' bs := by
  induction as generalizing s with
  | nil => rfl
  | cons a as ih =>
    simp only [List.cons_append, run_cons]
    cases step s a with
    | none => rfl
    | some s' => exact ih s'

/-- An invariant of the steps holds after every run. -/
theorem invariant_run {Inv : σ → Prop}
    (hstep : ∀ s a s', Inv s → step s a = some s' → Inv s') {s t : σ} {as : List α}
    (hs : Inv s) (h : run step s as = some t) : Inv t := by
  induction as generalizing s with
  | nil => exact Option.some.inj h ▸ hs
  | cons a as ih =>
    rw [run_cons] at h
    obtain ⟨s', hs', ht⟩ := Option.bind_eq_some_iff.mp h
    exact ih (hstep s a s' hs hs') ht

theorem invariant_reachable {Inv : σ → Prop}
    (hstep : ∀ s a s', Inv s → step s a = some s' → Inv s') {s t : σ}
    (hs : Inv s) (h : Reachable step s t) : Inv t := by
  obtain ⟨as, h⟩ := h
  exact invariant_run hstep hs h

theorem Reachable.refl (s : σ) : Reachable step s s := ⟨[], rfl⟩

theorem Reachable.trans {s t u : σ} (h : Reachable step s t) (h' : Reachable step t u) :
    Reachable step s u := by
  obtain ⟨as, h⟩ := h
  obtain ⟨bs, h'⟩ := h'
  exact ⟨as ++ bs, by rw [run_append, h, Option.bind_some, h']⟩

theorem Reachable.single {s t : σ} {a : α} (h : step s a = some t) : Reachable step s t :=
  ⟨[a], by rw [run_cons, h, Option.bind_some, run_nil]⟩

theorem along_nil {P : σ → Prop} {s : σ} : Along step P s [] ↔ P s := by
  constructor
  · intro h
    exact h [] (List.prefix_refl _) s rfl
  · intro h pre hpre s' hs'
    rw [List.prefix_nil.mp hpre] at hs'
    exact Option.some.inj hs' ▸ h

theorem along_cons {P : σ → Prop} {s : σ} {a : α} {as : List α} :
    Along step P s (a :: as) ↔ P s ∧ ∀ s', step s a = some s' → Along step P s' as := by
  constructor
  · intro h
    refine ⟨h [] List.nil_prefix s rfl, ?_⟩
    intro s' hs' pre hpre t ht
    apply h (a :: pre) (List.prefix_cons_inj a |>.mpr hpre) t
    rw [run_cons, hs', Option.bind_some, ht]
  · rintro ⟨h, hrest⟩ pre hpre t ht
    cases pre with
    | nil => exact Option.some.inj ht ▸ h
    | cons b pre =>
      obtain ⟨rfl, hpre'⟩ := List.cons_prefix_cons.mp hpre
      rw [run_cons] at ht
      obtain ⟨s', hs', ht'⟩ := Option.bind_eq_some_iff.mp ht
      exact hrest s' hs' pre hpre' t ht'

theorem stepsMeet_nil {C : σ → α → Prop} {s : σ} : StepsMeet step C s [] := by
  intro pre a post h
  simp at h

theorem stepsMeet_cons {C : σ → α → Prop} {s : σ} {a : α} {as : List α} :
    StepsMeet step C s (a :: as) ↔ C s a ∧ ∀ s', step s a = some s' → StepsMeet step C s' as := by
  constructor
  · intro h
    refine ⟨h [] a as rfl s rfl, ?_⟩
    intro s' hs' pre b post he t ht
    apply h (a :: pre) b post (by rw [he, List.cons_append]) t
    rw [run_cons, hs', Option.bind_some, ht]
  · rintro ⟨h, hrest⟩ pre b post he t ht
    cases pre with
    | nil =>
      obtain ⟨rfl, -⟩ := List.cons.inj he
      exact Option.some.inj ht ▸ h
    | cons c pre =>
      obtain ⟨rfl, he'⟩ := List.cons.inj he
      rw [run_cons] at ht
      obtain ⟨s', hs', ht'⟩ := Option.bind_eq_some_iff.mp ht
      exact hrest s' hs' pre b post he' t ht'

/-- Where every step that meets `C` keeps `P`, a run of such steps keeps it. -/
theorem along_of_stepsMeet {P : σ → Prop} {C : σ → α → Prop} {s : σ} {as : List α}
    (hstep : ∀ s a s', P s → C s a → step s a = some s' → P s') (hp : P s)
    (h : StepsMeet step C s as) : Along step P s as := by
  induction as generalizing s with
  | nil => exact along_nil.mpr hp
  | cons a as ih =>
    obtain ⟨hc, hrest⟩ := stepsMeet_cons.mp h
    exact along_cons.mpr ⟨hp, fun s' hs' => ih (hstep s a s' hp hc hs') (hrest s' hs')⟩

/-- Where a step of the run keeps `P` exactly when it meets `C`, the run keeps `P`
exactly when all its steps meet `C`. `Inv` is what the steps keep besides. -/
theorem along_iff_stepsMeet {Inv P : σ → Prop} {C : σ → α → Prop} {s : σ} {as : List α}
    (hstep : ∀ s a s', a ∈ as → Inv s → P s → step s a = some s' →
      (P s' ↔ C s a) ∧ (P s' → Inv s'))
    (hs : Inv s) (hp : P s) (hrun : (run step s as).isSome) :
    Along step P s as ↔ StepsMeet step C s as := by
  induction as generalizing s with
  | nil => exact iff_of_true (along_nil.mpr hp) stepsMeet_nil
  | cons a as ih =>
    rw [run_cons] at hrun
    cases hs' : step s a with
    | none => simp [hs'] at hrun
    | some s' =>
      obtain ⟨hiff, hinv⟩ := hstep s a s' (List.mem_cons_self) hs hp hs'
      have hrest (h : P s') : Along step P s' as ↔ StepsMeet step C s' as :=
        ih (fun t b t' hb => hstep t b t' (List.mem_cons_of_mem a hb)) (hinv h) h
          (by simpa [hs'] using hrun)
      rw [along_cons, stepsMeet_cons]
      simp only [hs', Option.some.injEq, forall_eq']
      constructor
      · rintro ⟨-, h⟩
        have hp' : P s' := h [] List.nil_prefix s' rfl
        exact ⟨hiff.mp hp', (hrest hp').mp h⟩
      · rintro ⟨hc, h⟩
        exact ⟨hp, (hrest (hiff.mpr hc)).mpr h⟩

theorem stepsMeet_of_forall {C : α → Prop} {s : σ} {as : List α} (h : ∀ a ∈ as, C a) :
    StepsMeet step (fun _ a => C a) s as := by
  intro pre a post he _ _
  apply h
  rw [he]
  exact List.mem_append_right pre List.mem_cons_self

/-- A condition on the actions alone is met by the steps of a run if the actions meet it. -/
theorem stepsMeet_iff_forall {C : α → Prop} {s : σ} {as : List α} (hrun : (run step s as).isSome) :
    StepsMeet step (fun _ a => C a) s as ↔ ∀ a ∈ as, C a := by
  constructor
  · intro h a ha
    obtain ⟨pre, post, he⟩ := List.append_of_mem ha
    cases hs' : run step s pre with
    | none => simp [he, run_append, hs'] at hrun
    | some s' => exact h pre a post he s' hs'
  · exact stepsMeet_of_forall

/-- Two conditions that say the same in every state of `Inv` are met by the same runs,
where the steps that meet the second one keep `Inv`. -/
theorem stepsMeet_congr {I : σ → Prop} {C D : σ → α → Prop} {s : σ} {as : List α}
    (hiff : ∀ s a, a ∈ as → I s → (C s a ↔ D s a))
    (hstep : ∀ s a s', I s → D s a → step s a = some s' → I s') (hs : I s) :
    StepsMeet step C s as ↔ StepsMeet step D s as := by
  induction as generalizing s with
  | nil => exact iff_of_true stepsMeet_nil stepsMeet_nil
  | cons a as ih =>
    rw [stepsMeet_cons, stepsMeet_cons, hiff s a List.mem_cons_self hs]
    apply and_congr_right
    intro hd
    apply forall_congr'
    intro s'
    apply imp_congr_right
    intro hs'
    exact ih (fun t b hb => hiff t b (List.mem_cons_of_mem a hb)) (hstep s a s' hs hd hs')

/-! ## Histories -/

/-- Some action of the list comes behind a history for which `P` holds. -/
def Occurs (P : List α → α → Prop) (as : List α) : Prop :=
  ∃ pre a post, as = pre ++ a :: post ∧ P pre a

theorem not_occurs_nil {P : List α → α → Prop} : ¬ Occurs P [] := by
  rintro ⟨pre, a, post, he, -⟩
  simp at he

theorem occurs_concat {P : List α → α → Prop} {as : List α} {a : α} :
    Occurs P (as ++ [a]) ↔ Occurs P as ∨ P as a := by
  constructor
  · rintro ⟨pre, b, post, he, hp⟩
    rcases List.eq_nil_or_concat' post with rfl | ⟨post', c, rfl⟩
    · obtain ⟨rfl, hb⟩ := List.append_inj' he rfl
      obtain rfl := List.singleton_inj.mp hb
      exact .inr hp
    · rw [← List.cons_append, ← List.append_assoc] at he
      exact .inl ⟨pre, b, post', (List.append_inj' he rfl).1, hp⟩
  · rintro (⟨pre, b, post, rfl, hp⟩ | hp)
    · exact ⟨pre, b, post ++ [a], by simp, hp⟩
    · exact ⟨as, a, [], rfl, hp⟩

/-- What each step keeps of the relation between a state and the actions that led to it
holds behind every run. -/
theorem history_run {Hist : List α → σ → Prop} {s t : σ} {as : List α} (hs : Hist [] s)
    (hstep : ∀ pre a t t', Hist pre t → step t a = some t' → Hist (pre ++ [a]) t')
    (h : run step s as = some t) : Hist as t := by
  induction as using List.reverseRecOn generalizing t with
  | nil => exact Option.some.inj h ▸ hs
  | append_singleton as a ih =>
    rw [run_append] at h
    obtain ⟨u, hu, ht⟩ := Option.bind_eq_some_iff.mp h
    rw [run_cons] at ht
    obtain ⟨v, hv, hvt⟩ := Option.bind_eq_some_iff.mp ht
    exact Option.some.inj hvt ▸ hstep as a u v (ih hu) hv

/-- Where the history of a state decides whether an action meets `C`, a run meets `C`
exactly when no action occurs behind a history that speaks against it. -/
theorem stepsMeet_iff_not_occurs {Hist : List α → σ → Prop} {C : σ → α → Prop}
    {P : List α → α → Prop} {s : σ} {as : List α} (hs : Hist [] s)
    (hstep : ∀ pre a t t', Hist pre t → step t a = some t' → Hist (pre ++ [a]) t')
    (hiff : ∀ pre a t t', Hist pre t → step t a = some t' → (C t a ↔ ¬ P pre a))
    (hrun : (run step s as).isSome) : StepsMeet step C s as ↔ ¬ Occurs P as := by
  constructor
  · rintro h ⟨pre, a, post, rfl, hp⟩
    rw [run_append] at hrun
    cases ht : run step s pre with
    | none => simp [ht] at hrun
    | some t =>
      cases ha : step t a with
      | none => simp [ht, run_cons, ha] at hrun
      | some t' =>
        exact (hiff pre a t t' (history_run hs hstep ht) ha).mp (h pre a post rfl t ht) hp
  · intro h pre a post he t ht
    rw [he, run_append, ht, Option.bind_some, run_cons] at hrun
    cases ha : step t a with
    | none => simp [ha] at hrun
    | some t' =>
      apply (hiff pre a t t' (history_run hs hstep ht) ha).mpr
      intro hp
      exact h ⟨pre, a, post, he, hp⟩

/-- Where the history of a state decides whether an action is possible, a run is possible
exactly when no action occurs behind a history that speaks against it. -/
theorem run_isSome_iff_not_occurs {Hist : List α → σ → Prop} {P : List α → α → Prop} {s : σ}
    (hs : Hist [] s) (hstep : ∀ pre a t t', Hist pre t → step t a = some t' → Hist (pre ++ [a]) t')
    (hiff : ∀ pre a t, Hist pre t → ((step t a).isSome ↔ ¬ P pre a)) (as : List α) :
    (run step s as).isSome ↔ ¬ Occurs P as := by
  induction as using List.reverseRecOn with
  | nil => exact iff_of_true rfl not_occurs_nil
  | append_singleton as a ih =>
    rw [occurs_concat, not_or, ← ih, run_append]
    cases ht : run step s as with
    | none => simp
    | some t =>
      have hlast := hiff as a t (history_run hs hstep ht)
      rw [Option.bind_some, run_cons]
      cases ha : step t a with
      | none => simpa [ha] using hlast
      | some t' => simpa [ha] using hlast

/-- Where the history of a state makes every action possible, every run is. -/
theorem run_isSome_of_history {Hist : List α → σ → Prop} {s : σ} (hs : Hist [] s)
    (hstep : ∀ pre a t t', Hist pre t → step t a = some t' → Hist (pre ++ [a]) t')
    (hsome : ∀ pre a t, Hist pre t → (step t a).isSome = true) (as : List α) :
    (run step s as).isSome = true := by
  apply (run_isSome_iff_not_occurs (P := fun _ _ => False) hs hstep _ as).mpr
  · rintro ⟨_, _, _, -, hno⟩
    exact hno
  · exact fun pre a t h => iff_of_true (hsome pre a t h) id

/-- Behind some action for which `P` holds there is none that ends it. -/
def Since (P : List α → α → Prop) (ends : α → Prop) (as : List α) : Prop :=
  ∃ pre a post, as = pre ++ a :: post ∧ P pre a ∧ ∀ b ∈ post, ¬ ends b

theorem not_since_nil {P : List α → α → Prop} {ends : α → Prop} : ¬ Since P ends [] := by
  rintro ⟨pre, a, post, he, -⟩
  simp at he

theorem since_concat {P : List α → α → Prop} {ends : α → Prop} {as : List α} {a : α} :
    Since P ends (as ++ [a]) ↔ P as a ∨ (Since P ends as ∧ ¬ ends a) := by
  constructor
  · rintro ⟨pre, b, post, he, hp, hpost⟩
    rcases List.eq_nil_or_concat' post with rfl | ⟨post', c, rfl⟩
    · obtain ⟨rfl, hb⟩ := List.append_inj' he rfl
      obtain rfl := List.singleton_inj.mp hb
      exact .inl hp
    · rw [← List.cons_append, ← List.append_assoc] at he
      obtain ⟨has, hlast⟩ := List.append_inj' he rfl
      obtain rfl := List.singleton_inj.mp hlast
      exact .inr ⟨⟨pre, b, post', has, hp, fun d hd => hpost d (List.mem_append_left _ hd)⟩,
        hpost _ (List.mem_append_right _ List.mem_cons_self)⟩
  · rintro (hp | ⟨⟨pre, b, post, rfl, hp, hpost⟩, ha⟩)
    · exact ⟨as, a, [], rfl, hp, by simp⟩
    · refine ⟨pre, b, post ++ [a], by simp, hp, ?_⟩
      intro d hd
      rcases List.mem_append.mp hd with hd | hd
      · exact hpost d hd
      · exact List.mem_singleton.mp hd ▸ ha

theorem Since.occurs {P : List α → α → Prop} {ends : α → Prop} {as : List α}
    (h : Since P ends as) : Occurs P as := by
  obtain ⟨pre, a, post, he, hp, -⟩ := h
  exact ⟨pre, a, post, he, hp⟩

/-! ## Outputs -/

/-- What each element of a list gives, which may depend on those before it. -/
def withHistory {α β : Type*} (f : List α → α → β) (history : List α) : List α → List β
  | [] => []
  | a :: as => f history a :: withHistory f (history ++ [a]) as

section History

variable {α β : Type*} (f : List α → α → β)

theorem withHistory_append (history as bs : List α) :
    withHistory f history (as ++ bs) =
      withHistory f history as ++ withHistory f (history ++ as) bs := by
  induction as generalizing history with
  | nil => simp [withHistory]
  | cons a as ih => simp [withHistory, ih]

theorem withHistory_concat (as : List α) (a : α) :
    withHistory f [] (as ++ [a]) = withHistory f [] as ++ [f as a] := by
  simp [withHistory_append, withHistory]

theorem withHistory_length (history as : List α) :
    (withHistory f history as).length = as.length := by
  induction as generalizing history with
  | nil => rfl
  | cons a as ih => simp [withHistory, ih]

end History

end WebGpuDD.Runs
