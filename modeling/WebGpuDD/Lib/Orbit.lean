import Mathlib.Data.Finset.Card
import Mathlib.Data.Nat.Find
import Mathlib.Logic.Function.Iterate
import WebGpuDD.Lib.Loop

/-!
# Orbits up to their first hit

`FirstHit f stop a k` says that the orbit of `a` under `f` comes to a point where `stop`
holds after `k` steps, and not before. A loop is left at the first hit of its passes
(`whileLoop_eq_some_iff`), and the points in front of a first hit are all different, so
that a finite set in which they lie bounds the number of iterations.
-/

namespace WebGpuDD.Orbit

open Loop

variable {α β : Type*}

structure FirstHit (f : α → α) (stop : α → Prop) (a : α) (k : ℕ) : Prop where
  hit : stop (f^[k] a)
  before : ∀ j < k, ¬ stop (f^[j] a)

variable {f : α → α} {stop : α → Prop} {a : α} {k l : ℕ}

@[simp] theorem firstHit_zero : FirstHit f stop a 0 ↔ stop a := by
  constructor
  · intro h
    exact h.hit
  · intro h
    exact ⟨h, fun j hj => absurd hj (Nat.not_lt_zero j)⟩

theorem firstHit_succ : FirstHit f stop a (k + 1) ↔ ¬ stop a ∧ FirstHit f stop (f a) k := by
  constructor
  · intro h
    exact ⟨h.before 0 k.succ_pos, h.hit, fun j hj => h.before (j + 1) (Nat.succ_lt_succ hj)⟩
  · rintro ⟨ha, h⟩
    refine ⟨h.hit, fun j hj => ?_⟩
    cases j with
    | zero => exact ha
    | succ j => exact h.before j (Nat.lt_of_succ_lt_succ hj)

theorem FirstHit.unique (h : FirstHit f stop a k) (h' : FirstHit f stop a l) : k = l := by
  rcases Nat.lt_trichotomy k l with hlt | heq | hlt
  · exact absurd h.hit (h'.before k hlt)
  · exact heq
  · exact absurd h'.hit (h.before l hlt)

theorem exists_firstHit (h : stop (f^[k] a)) : ∃ l ≤ k, FirstHit f stop a l := by
  classical
  have hex : ∃ l, stop (f^[l] a) := ⟨k, h⟩
  exact ⟨Nat.find hex, Nat.find_min' hex h, Nat.find_spec hex, fun _ hj => Nat.find_min hex hj⟩

/-- A map that takes the steps in front of a hit to steps keeps the first hit. -/
theorem firstHit_map {g : β → β} {stop' : β → Prop} {p : α → β}
    (hstop : ∀ s, stop s ↔ stop' (p s)) (hf : ∀ s, ¬ stop s → p (f s) = g (p s)) :
    FirstHit f stop a k ↔ FirstHit g stop' (p a) k := by
  induction k generalizing a with
  | zero => rw [firstHit_zero, firstHit_zero, hstop]
  | succ k ih =>
    rw [firstHit_succ, firstHit_succ, ih, ← hstop]
    refine and_congr_right fun ha => ?_
    rw [hf a ha]

theorem FirstHit.map_iterate {g : β → β} {p : α → β} (hf : ∀ s, ¬ stop s → p (f s) = g (p s))
    (h : FirstHit f stop a k) (hl : l ≤ k) : p (f^[l] a) = g^[l] (p a) := by
  induction l with
  | zero => rfl
  | succ l ih =>
    rw [Function.iterate_succ_apply', Function.iterate_succ_apply', ← ih (by omega)]
    exact hf _ (h.before l hl)

/-! ## The points in front of the first hit -/

/-- A point that came back would come back for ever. -/
theorem FirstHit.injOn (h : FirstHit f stop a k) : Set.InjOn (f^[·] a) (Finset.range k) := by
  have hlt {i j : ℕ} (hij : i < j) (hj : j < k) : f^[i] a ≠ f^[j] a := by
    intro heq
    have hback : f^[k - j + i] a = f^[k] a := by
      rw [Function.iterate_add_apply, heq, ← Function.iterate_add_apply]
      congr 1
      omega
    have hearly := h.before (k - j + i) (by omega)
    rw [hback] at hearly
    exact hearly h.hit
  intro i hi j hj heq
  simp only [Finset.coe_range, Set.mem_Iio] at hi hj
  rcases Nat.lt_trichotomy i j with hij | hij | hij
  · exact absurd heq (hlt hij hj)
  · exact hij
  · exact absurd heq.symm (hlt hij hi)

theorem FirstHit.le_card (h : FirstHit f stop a k) {S : Finset α}
    (hS : ∀ j < k, f^[j] a ∈ S) : k ≤ S.card := by
  have hmaps : Set.MapsTo (f^[·] a) (Finset.range k) S := by
    intro j hj
    exact hS j (Finset.mem_range.mp hj)
  have hcard := Finset.card_le_card_of_injOn _ hmaps h.injOn
  rwa [Finset.card_range] at hcard

/-! ## Loops -/

section Loop

variable {guard : α → Bool} {body : α → Flow α} {s t : α} {n : ℕ}

/-- What a pass leaves, whether it stays in the loop or not. -/
def onePass (body : α → Flow α) (s : α) : α :=
  match body s with
  | .next s' => s'
  | .exit s' => s'

/-- The loop is left here. -/
def Leaves (guard : α → Bool) (body : α → Flow α) (s : α) : Prop :=
  guard s = false ∨ ∃ t, body s = .exit t

/-- What the loop leaves at a point where it is left, and whether it needs a pass for it. -/
def Left (guard : α → Bool) (body : α → Flow α) (s t : α) (passes : ℕ) : Prop :=
  (guard s = false ∧ t = s ∧ passes = 0) ∨ (guard s = true ∧ body s = .exit t ∧ passes = 1)

theorem left_of_guard (hg : guard s = false) {l : ℕ} :
    Left guard body s t l ↔ t = s ∧ l = 0 := by
  simp [Left, hg]

theorem left_of_exit (hg : guard s = true) {s' : α} (hb : body s = .exit s') {l : ℕ} :
    Left guard body s t l ↔ t = s' ∧ l = 1 := by
  simp [Left, hg, hb, eq_comm]

theorem left_at_once (h : Leaves guard body s) :
    (∃ k l, FirstHit (onePass body) (Leaves guard body) s k ∧
      Left guard body ((onePass body)^[k] s) t l ∧ k + l ≤ n) ↔
      ∃ l ≤ n, Left guard body s t l := by
  constructor
  · rintro ⟨k, l, hk, hleft, hle⟩
    obtain rfl := hk.unique (firstHit_zero.mpr h)
    exact ⟨l, by omega, hleft⟩
  · rintro ⟨l, hle, hleft⟩
    exact ⟨0, l, firstHit_zero.mpr h, hleft, by omega⟩

theorem left_later (h : ¬ Leaves guard body s) :
    (∃ k l, FirstHit (onePass body) (Leaves guard body) s k ∧
      Left guard body ((onePass body)^[k] s) t l ∧ k + l ≤ n + 1) ↔
      ∃ k l, FirstHit (onePass body) (Leaves guard body) (onePass body s) k ∧
        Left guard body ((onePass body)^[k] (onePass body s)) t l ∧ k + l ≤ n := by
  constructor
  · rintro ⟨k, l, hk, hleft, hle⟩
    cases k with
    | zero => exact absurd (firstHit_zero.mp hk) h
    | succ k => exact ⟨k, l, (firstHit_succ.mp hk).2, hleft, by omega⟩
  · rintro ⟨k, l, hk, hleft, hle⟩
    exact ⟨k + 1, l, firstHit_succ.mpr ⟨h, hk⟩, hleft, by omega⟩

theorem not_leaves {s' : α} (hg : guard s = true) (hb : body s = .next s') :
    ¬ Leaves guard body s := by
  simp [Leaves, hg, hb]

/-- The loop is left at the first point where it can be, if the bound is large enough. -/
theorem whileLoop_eq_some_iff : whileLoop guard body n s = some t ↔
    ∃ k l, FirstHit (onePass body) (Leaves guard body) s k ∧
      Left guard body ((onePass body)^[k] s) t l ∧ k + l ≤ n := by
  induction n generalizing s with
  | zero =>
    cases hg : guard s with
    | false =>
      rw [left_at_once (.inl hg)]
      simp [whileLoop, hg, left_of_guard hg, eq_comm]
    | true =>
      -- there is no pass left for the loop to end in
      apply iff_of_false
      · simp [whileLoop, hg]
      · rintro ⟨k, l, -, hleft, hle⟩
        obtain ⟨rfl, rfl⟩ : k = 0 ∧ l = 0 := by omega
        rcases hleft with ⟨hg', -, -⟩ | ⟨-, -, hpasses⟩
        · rw [Function.iterate_zero_apply, hg] at hg'
          cases hg'
        · cases hpasses
  | succ n ih =>
    cases hg : guard s with
    | false =>
      rw [left_at_once (.inl hg)]
      simp [whileLoop, hg, left_of_guard hg, eq_comm]
    | true =>
      cases hb : body s with
      | exit s' =>
        rw [left_at_once (.inr ⟨s', hb⟩)]
        simp [whileLoop, hg, hb, left_of_exit hg hb, eq_comm]
      | next s' =>
        have hpass : onePass body s = s' := by
          rw [onePass, hb]
        rw [left_later (not_leaves hg hb), hpass, ← ih]
        simp only [whileLoop, hg, hb, if_true]

end Loop

end WebGpuDD.Orbit
