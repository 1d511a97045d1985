import Mathlib.Data.Nat.Basic

/-!
# Loops with a bound on their iterations

`whileLoop guard body n s` runs `while (guard) body` for at most `n` iterations;
`none` says that the bound was too small. `whileLoop_rule` is the total
correctness rule: an invariant, and a measure that every iteration decreases.
`Head` collects the states in which the guard is tested.
-/

namespace WebGpuDD.Loop

variable {σ : Type*}

/-- How one pass over a loop body ends: with the next test of the guard, or by
leaving the loop. -/
inductive Flow (σ : Type*) where
  | next (s : σ)
  | exit (s : σ)

/-- What `P` and `Q` say about the two ends of a body. -/
def Flow.Ends (P Q : σ → Prop) : Flow σ → Prop
  | .next s => P s
  | .exit s => Q s

def whileLoop (guard : σ → Bool) (body : σ → Flow σ) : ℕ → σ → Option σ
  | 0, s => if guard s then none else some s
  | n + 1, s =>
    if guard s then
      match body s with
      | .next s' => whileLoop guard body n s'
      | .exit s' => some s'
    else some s

variable {guard : σ → Bool} {body : σ → Flow σ}

/-- The rule for total correctness. `Inv` holds at every test of the guard, `μ`
bounds the iterations that are left, and `Post` holds wherever the loop is left. -/
theorem whileLoop_rule (Inv Post : σ → Prop) (μ : σ → ℕ)
    (hpos : ∀ s, Inv s → guard s = true → 0 < μ s)
    (hbody : ∀ s, Inv s → guard s = true →
      (body s).Ends (fun s' => Inv s' ∧ μ s' < μ s) Post)
    (hdone : ∀ s, Inv s → guard s = false → Post s)
    (n : ℕ) (s : σ) (hs : Inv s) (hn : μ s ≤ n) :
    ∃ t, whileLoop guard body n s = some t ∧ Post t := by
  induction n generalizing s with
  | zero =>
    cases hg : guard s with
    | true =>
      have h := hpos s hs hg
      omega
    | false => exact ⟨s, by simp [whileLoop, hg], hdone s hs hg⟩
  | succ n ih =>
    cases hg : guard s with
    | true =>
      have h := hbody s hs hg
      cases hb : body s with
      | next s' =>
        rw [hb] at h
        obtain ⟨t, ht, hp⟩ := ih s' h.1 (by have := h.2; omega)
        exact ⟨t, by simp [whileLoop, hg, hb, ht], hp⟩
      | exit s' =>
        rw [hb] at h
        exact ⟨s', by simp [whileLoop, hg, hb], h⟩
    | false => exact ⟨s, by simp [whileLoop, hg], hdone s hs hg⟩

/-! ## Loop heads -/

/-- The states in which the guard is tested, in a loop that is entered in `s₀`. -/
inductive Head (guard : σ → Bool) (body : σ → Flow σ) (s₀ : σ) : σ → Prop where
  | enter : Head guard body s₀ s₀
  | pass {s s' : σ} (h : Head guard body s₀ s) (hg : guard s = true) (hb : body s = .next s') :
      Head guard body s₀ s'

/-- What holds on entry and is kept by every pass holds at every loop head. -/
theorem Head.rule {s₀ s : σ} (h : Head guard body s₀ s) (Inv : σ → Prop) (henter : Inv s₀)
    (hpass : ∀ s s', Inv s → guard s = true → body s = .next s' → Inv s') : Inv s := by
  induction h with
  | enter => exact henter
  | pass _ hg hb ih => exact hpass _ _ ih hg hb

/-- A loop is left at a head where the guard fails, or by a pass that starts at a head. -/
theorem whileLoop_left {s₀ s t : σ} {n : ℕ} (hs : Head guard body s₀ s)
    (h : whileLoop guard body n s = some t) :
    (Head guard body s₀ t ∧ guard t = false) ∨
      ∃ s', Head guard body s₀ s' ∧ guard s' = true ∧ body s' = .exit t := by
  induction n generalizing s with
  | zero =>
    cases hg : guard s with
    | true => simp [whileLoop, hg] at h
    | false =>
      simp only [whileLoop, hg, Bool.false_eq_true, if_false, Option.some.injEq] at h
      exact .inl ⟨h ▸ hs, h ▸ hg⟩
  | succ n ih =>
    cases hg : guard s with
    | true =>
      simp only [whileLoop, hg, if_true] at h
      cases hb : body s with
      | next s' =>
        rw [hb] at h
        exact ih (hs.pass hg hb) h
      | exit s' =>
        rw [hb] at h
        exact .inr ⟨s, hs, hg, Option.some.inj h ▸ hb⟩
    | false =>
      simp only [whileLoop, hg, Bool.false_eq_true, if_false, Option.some.injEq] at h
      exact .inl ⟨h ▸ hs, h ▸ hg⟩

end WebGpuDD.Loop
