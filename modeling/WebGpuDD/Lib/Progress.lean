import WebGpuDD.Lib.Runs
import Mathlib.Order.WellFounded

/-!
# Runs that come to an end

Of the actions of a system some are its own, and the others come from outside. Where a
measure falls with every action of its own, the system left alone comes to rest: it cannot
go on for ever, and every run can be carried on to a state where nothing of its own is
possible. What holds there is up to the system.
-/

namespace WebGpuDD.Runs

variable {σ α β : Type*} (step : σ → α → Option σ) (Own : α → Prop)

/-- None of the system's own actions is possible. -/
def AtRest (s : σ) : Prop := ∀ a, Own a → step s a = none

/-- No sequence of own actions that begins here is infinite. -/
def Ends (s : σ) : Prop :=
  ∀ f : ℕ → σ, f 0 = s → ∃ n, ∀ a, Own a → step (f n) a ≠ some (f (n + 1))

variable {step Own}

section Measure

variable {I : σ → Prop} {μ : σ → β} {r : β → β → Prop}

theorem ends_of_measure (hr : WellFounded r)
    (hstep : ∀ s a s', I s → Own a → step s a = some s' → I s' ∧ r (μ s') (μ s)) {s : σ}
    (hs : I s) : Ends step Own s := by
  induction hm : μ s using hr.induction generalizing s with
  | _ m ih =>
    intro f hf
    by_contra hgoes
    push Not at hgoes
    obtain ⟨a, ha, hfirst⟩ := hgoes 0
    rw [hf] at hfirst
    obtain ⟨hs', hlt⟩ := hstep s a _ hs ha hfirst
    obtain ⟨n, hn⟩ := ih _ (hm ▸ hlt) hs' rfl (fun n => f (n + 1)) rfl
    obtain ⟨b, hb, hlater⟩ := hgoes (n + 1)
    exact hn b hb hlater

/-- Every state leads to rest. -/
theorem exists_atRest (hr : WellFounded r)
    (hstep : ∀ s a s', I s → Own a → step s a = some s' → I s' ∧ r (μ s') (μ s)) {s : σ}
    (hs : I s) : ∃ as t, (∀ a ∈ as, Own a) ∧ run step s as = some t ∧ AtRest step Own t := by
  induction hm : μ s using hr.induction generalizing s with
  | _ m ih =>
    by_cases hrest : AtRest step Own s
    · exact ⟨[], s, by simp, rfl, hrest⟩
    · unfold AtRest at hrest
      push Not at hrest
      obtain ⟨a, ha, hsome⟩ := hrest
      obtain ⟨s', hs'⟩ := Option.ne_none_iff_exists'.mp hsome
      obtain ⟨hI, hlt⟩ := hstep s a s' hs ha hs'
      obtain ⟨as, t, has, hrun, ht⟩ := ih _ (hm ▸ hlt) hI rfl
      refine ⟨a :: as, t, ?_, ?_, ht⟩
      · intro b hb
        rcases List.mem_cons.mp hb with rfl | hb
        · exact ha
        · exact has b hb
      · rw [run_cons, hs', Option.bind_some, hrun]

end Measure

/-- What the own actions keep holds behind every run of them. -/
theorem invariant_own {I : σ → Prop}
    (hstep : ∀ s a s', I s → Own a → step s a = some s' → I s') {s t : σ} {as : List α}
    (hs : I s) (has : ∀ a ∈ as, Own a) (h : run step s as = some t) : I t := by
  induction as generalizing s with
  | nil => exact Option.some.inj h ▸ hs
  | cons a as ih =>
    rw [run_cons] at h
    obtain ⟨s', hs', ht⟩ := Option.bind_eq_some_iff.mp h
    have hI := hstep s a s' hs (has a List.mem_cons_self) hs'
    exact ih hI (fun b hb => has b (List.mem_cons_of_mem a hb)) ht

end WebGpuDD.Runs
