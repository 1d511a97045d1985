import Mathlib.Data.UInt
import Mathlib.Order.Interval.Finset.Nat
import WebGpuDD.Lib.Orbit

/-!
# `collatz_iterations`

The shader of the example client counts on `u32` how often the Collatz recurrence has to be
applied to reach 1, and returns `4294967295` where the recurrence leaves the 32 bits. The
numbers that the loop goes through are those of the recurrence on natural numbers as far as
it gets, and the count never wraps: the numbers are all different.
-/

namespace WebGpuDD

open Loop Orbit

namespace CollatzIterations

/-- The recurrence. -/
def collatz (n : ℕ) : ℕ := if n % 2 = 0 then n / 2 else 3 * n + 1

/-- The variables of the loop, and the value of a `return` inside it. -/
structure Vars where
  n : UInt32
  i : UInt32
  returned : Option UInt32 := none

/-- `!(n <= 1u)`. -/
def guard (v : Vars) : Bool := !(v.n ≤ 1)

def body (v : Vars) : Flow Vars :=
  if v.n % 2 = 0 then .next { v with n := v.n / 2, i := v.i + 1 }
  else if 1431655765 ≤ v.n then .exit { v with returned := some 4294967295 }
  else .next { v with n := 3 * v.n + 1, i := v.i + 1 }

/-- `collatz_iterations`, for as many iterations as `fuel`. -/
def collatz_iterations (fuel : ℕ) (n_base : UInt32) : Option UInt32 :=
  (whileLoop guard body fuel ⟨n_base, 0, none⟩).map fun v => v.returned.getD v.i

/-- The recurrence is at its end, or about to leave the 32 bits. -/
def Done (n : ℕ) : Prop := n ≤ 1 ∨ 2 ^ 32 ≤ collatz n

/-! ## One pass -/

section Pass

variable {v : Vars}

theorem guard_eq_false : guard v = false ↔ v.n.toNat ≤ 1 := by
  simp [guard, UInt32.le_iff_toNat_le]

theorem even_iff : v.n % 2 = 0 ↔ v.n.toNat % 2 = 0 := by
  rw [← UInt32.toNat_inj, UInt32.toNat_mod]
  rfl

/-- `3 * n + 1` leaves the 32 bits exactly where the shader returns early. -/
theorem large_iff (hodd : ¬ v.n.toNat % 2 = 0) :
    1431655765 ≤ v.n ↔ 2 ^ 32 ≤ collatz v.n.toNat := by
  rw [UInt32.le_iff_toNat_le, collatz, if_neg hodd]
  simp only [UInt32.reduceToNat]
  omega

theorem collatz_lt_of_even (heven : v.n.toNat % 2 = 0) : collatz v.n.toNat < 2 ^ 32 := by
  have hlt := v.n.toNat_lt
  rw [collatz, if_pos heven]
  omega

theorem body_even (heven : v.n.toNat % 2 = 0) :
    body v = .next { v with n := v.n / 2, i := v.i + 1 } := by
  rw [body, if_pos (even_iff.mpr heven)]

theorem body_large (hodd : ¬ v.n.toNat % 2 = 0) (hlarge : 2 ^ 32 ≤ collatz v.n.toNat) :
    body v = .exit { v with returned := some 4294967295 } := by
  rw [body, if_neg (fun h => hodd (even_iff.mp h)), if_pos ((large_iff hodd).mpr hlarge)]

theorem body_odd (hodd : ¬ v.n.toNat % 2 = 0) (hsmall : ¬ 2 ^ 32 ≤ collatz v.n.toNat) :
    body v = .next { v with n := 3 * v.n + 1, i := v.i + 1 } := by
  rw [body, if_neg (fun h => hodd (even_iff.mp h)),
    if_neg (fun h => hsmall ((large_iff hodd).mp h))]

theorem body_exit_iff {w : Vars} : body v = .exit w ↔
    2 ^ 32 ≤ collatz v.n.toNat ∧ w = { v with returned := some 4294967295 } := by
  by_cases heven : v.n.toNat % 2 = 0
  · rw [body_even heven]
    refine iff_of_false (fun h => by cases h) fun h => ?_
    exact absurd h.1 (not_le.mpr (collatz_lt_of_even heven))
  · by_cases hlarge : 2 ^ 32 ≤ collatz v.n.toNat
    · rw [body_large heven hlarge, Flow.exit.injEq, eq_comm]
      exact (and_iff_right hlarge).symm
    · rw [body_odd heven hlarge]
      exact iff_of_false (fun h => by cases h) fun h => hlarge h.1

theorem leaves_iff : Leaves guard body v ↔ Done v.n.toNat := by
  simp only [Leaves, guard_eq_false, body_exit_iff, exists_and_left, exists_eq, and_true, Done]

/-- A pass that stays in the loop takes one step of the recurrence and counts it. -/
theorem pass_eq (hstays : ¬ Leaves guard body v) :
    (onePass body v).n.toNat = collatz v.n.toNat ∧ (onePass body v).i = v.i + 1 ∧
      (onePass body v).returned = v.returned := by
  rw [leaves_iff, Done, not_or] at hstays
  by_cases heven : v.n.toNat % 2 = 0
  · rw [onePass, body_even heven, collatz, if_pos heven]
    exact ⟨UInt32.toNat_div v.n 2, rfl, rfl⟩
  · rw [onePass, body_odd heven hstays.2]
    refine ⟨?_, rfl, rfl⟩
    have hsmall := hstays.2
    rw [collatz, if_neg heven] at hsmall ⊢
    rw [UInt32.toNat_add, UInt32.toNat_mul]
    simp only [UInt32.reduceToNat]
    omega

end Pass

/-! ## The loop -/

section Loop

variable {n r : UInt32} {v : Vars} {fuel k l : ℕ}

theorem iterate_succ_zero (k : ℕ) : (· + 1)^[k] (0 : UInt32) = UInt32.ofNat k := by
  induction k with
  | zero => rfl
  | succ k ih => rw [Function.iterate_succ_apply', ih, UInt32.ofNat_add, UInt32.ofNat_one]

/-- The variables after `k` passes, none of which has left the loop. -/
theorem iterate_pass (h : FirstHit (onePass body) (Leaves guard body) ⟨n, 0, none⟩ k) :
    ((onePass body)^[k] ⟨n, 0, none⟩).n.toNat = collatz^[k] n.toNat ∧
      ((onePass body)^[k] ⟨n, 0, none⟩).i = UInt32.ofNat k ∧
      ((onePass body)^[k] ⟨n, 0, none⟩).returned = none := by
  have hi := h.map_iterate (g := (· + 1)) (p := Vars.i) (fun v hv => (pass_eq hv).2.1) le_rfl
  have hreturned := h.map_iterate (g := id) (p := Vars.returned)
    (fun v hv => (pass_eq hv).2.2) le_rfl
  refine ⟨h.map_iterate (p := fun v : Vars => v.n.toNat) (fun v hv => (pass_eq hv).1) le_rfl, ?_, ?_⟩
  · rw [hi, iterate_succ_zero]
  · rw [hreturned, Function.iterate_id, id_eq]

theorem firstHit_iff :
    FirstHit (onePass body) (Leaves guard body) ⟨n, 0, none⟩ k ↔ FirstHit collatz Done n.toNat k :=
  firstHit_map (p := fun v : Vars => v.n.toNat) (fun _ => leaves_iff) fun _ hv => (pass_eq hv).1

/-- The numbers in front of the end are at least 2, below `2 ^ 32` and all different. -/
theorem firstHit_lt (h : FirstHit collatz Done n.toNat k) : k < 2 ^ 32 - 1 := by
  have hvalues : ∀ j < k, collatz^[j] n.toNat ∈ Finset.Ico 2 (2 ^ 32) := by
    intro j hj
    have hstays := h.before j hj
    rw [Done, not_or] at hstays
    refine Finset.mem_Ico.mpr ⟨by omega, ?_⟩
    cases j with
    | zero => exact n.toNat_lt
    | succ j =>
      have hbefore := h.before j (by omega)
      rw [Done, not_or] at hbefore
      rw [Function.iterate_succ_apply']
      omega
  have hcard := h.le_card hvalues
  rw [Nat.card_Ico] at hcard
  omega

/-- What is returned when the recurrence comes to its end after `k` steps. -/
def result (n : UInt32) (k : ℕ) : UInt32 :=
  if collatz^[k] n.toNat ≤ 1 then UInt32.ofNat k else 4294967295

/-- The iterations that the loop needs for it. -/
def iterations (n : UInt32) (k : ℕ) : ℕ := if collatz^[k] n.toNat ≤ 1 then k else k + 1

theorem exists_left_iff (h : FirstHit (onePass body) (Leaves guard body) ⟨n, 0, none⟩ k) :
    (∃ w, Left guard body ((onePass body)^[k] ⟨n, 0, none⟩) w l ∧ w.returned.getD w.i = r) ↔
      r = result n k ∧ k + l = iterations n k := by
  obtain ⟨hn, hi, hreturned⟩ := iterate_pass h
  have hdone := (firstHit_iff.mp h).hit
  generalize (onePass body)^[k] ⟨n, 0, none⟩ = v at hn hi hreturned
  by_cases hone : collatz^[k] n.toNat ≤ 1
  · have hguard : guard v = false := guard_eq_false.mpr (hn ▸ hone)
    simp only [Left, hguard, result, iterations, hone, if_true, Bool.false_eq_true, false_and,
      or_false, true_and]
    constructor
    · rintro ⟨_, ⟨rfl, rfl⟩, rfl⟩
      rw [hreturned, hi]
      exact ⟨rfl, rfl⟩
    · rintro ⟨rfl, hl⟩
      refine ⟨v, ⟨rfl, by omega⟩, ?_⟩
      rw [hreturned, hi]
      rfl
  · have hguard : guard v = true := by
      rw [← Bool.not_eq_false, guard_eq_false, hn]
      exact hone
    have hexit := body_exit_iff.mpr ⟨hn ▸ hdone.resolve_left hone, rfl⟩
    simp only [Left, hguard, hexit, result, iterations, hone, if_false, Bool.true_eq_false,
      false_and, false_or, true_and, Flow.exit.injEq]
    constructor
    · rintro ⟨_, ⟨rfl, rfl⟩, rfl⟩
      exact ⟨rfl, rfl⟩
    · rintro ⟨rfl, hl⟩
      exact ⟨_, ⟨rfl, by omega⟩, rfl⟩

theorem collatz_iterations_eq_some : collatz_iterations fuel n = some r ↔
    ∃ k, FirstHit collatz Done n.toNat k ∧ r = result n k ∧ iterations n k ≤ fuel := by
  simp only [collatz_iterations, Option.map_eq_some_iff, whileLoop_eq_some_iff]
  constructor
  · rintro ⟨w, ⟨k, l, hk, hleft, hle⟩, hw⟩
    obtain ⟨hr, hl⟩ := (exists_left_iff hk).mp ⟨w, hleft, hw⟩
    exact ⟨k, firstHit_iff.mp hk, hr, hl ▸ hle⟩
  · rintro ⟨k, hk, hr, hle⟩
    have hk' := firstHit_iff.mpr hk
    have hl : k + (iterations n k - k) = iterations n k := by
      rw [iterations]
      split <;> omega
    obtain ⟨w, hleft, hw⟩ := (exists_left_iff hk').mpr ⟨hr, hl⟩
    refine ⟨w, ⟨k, _, hk', hleft, ?_⟩, hw⟩
    rwa [hl]

end Loop

/-! ## What is returned -/

section Results

variable {n r : UInt32} {fuel k : ℕ}

/-- The recurrence leaves the 32 bits before it reaches 1. -/
def Overflows (n : UInt32) : Prop :=
  ∃ k, (∀ j ≤ k, 1 < collatz^[j] n.toNat) ∧ 2 ^ 32 ≤ collatz^[k + 1] n.toNat

/-- The recurrence reaches 1 after `k` steps, and stays inside the 32 bits. -/
structure Counts (n : UInt32) (k : ℕ) : Prop where
  first : FirstHit collatz (· ≤ 1) n.toNat k
  fits : ∀ j ≤ k, collatz^[j] n.toNat < 2 ^ 32

theorem counts_iff : Counts n k ↔
    FirstHit collatz Done n.toNat k ∧ collatz^[k] n.toNat ≤ 1 := by
  constructor
  · intro h
    refine ⟨⟨.inl h.first.hit, fun j hj => ?_⟩, h.first.hit⟩
    have hfits := h.fits (j + 1) hj
    rw [Function.iterate_succ_apply'] at hfits
    exact not_or.mpr ⟨h.first.before j hj, not_le.mpr hfits⟩
  · rintro ⟨h, hone⟩
    refine ⟨⟨hone, fun j hj => (not_or.mp (h.before j hj)).1⟩, fun j hj => ?_⟩
    cases j with
    | zero => exact n.toNat_lt
    | succ j =>
      rw [Function.iterate_succ_apply']
      exact not_le.mp (not_or.mp (h.before j hj)).2

theorem overflows_iff : Overflows n ↔
    ∃ k, FirstHit collatz Done n.toNat k ∧ ¬ collatz^[k] n.toNat ≤ 1 := by
  constructor
  · rintro ⟨k, hbefore, hlarge⟩
    rw [Function.iterate_succ_apply'] at hlarge
    have hdone : Done (collatz^[k] n.toNat) := .inr hlarge
    obtain ⟨l, hl, hfirst⟩ := exists_firstHit hdone
    exact ⟨l, hfirst, not_le.mpr (hbefore l hl)⟩
  · rintro ⟨k, h, hone⟩
    refine ⟨k, fun j hj => ?_, ?_⟩
    · rcases hj.eq_or_lt with rfl | hj
      · exact not_le.mp hone
      · exact not_le.mp (not_or.mp (h.before j hj)).1
    · rw [Function.iterate_succ_apply']
      exact h.hit.resolve_left hone

theorem result_eq_iff (h : FirstHit collatz Done n.toNat k) :
    r = result n k ↔ (collatz^[k] n.toNat ≤ 1 ∧ r.toNat = k) ∨
      (¬ collatz^[k] n.toNat ≤ 1 ∧ r = 4294967295) := by
  have hlt : k < UInt32.size := (firstHit_lt h).trans (by decide)
  by_cases hone : collatz^[k] n.toNat ≤ 1
  · simp only [result, hone, if_true, true_and, not_true_eq_false, false_and, or_false]
    rw [← UInt32.toNat_inj, UInt32.toNat_ofNat_of_lt' hlt]
  · simp only [result, hone, if_false, false_and, not_false_eq_true, true_and, false_or]

/-- The shader returns the number of steps where the recurrence reaches 1 inside the 32
bits, and `4294967295` where it leaves them before; otherwise it does not return. -/
theorem collatz_iterations_returns_iff : (∃ fuel, collatz_iterations fuel n = some r) ↔
    Counts n r.toNat ∨ (Overflows n ∧ r = 4294967295) := by
  simp only [collatz_iterations_eq_some, counts_iff, overflows_iff]
  constructor
  · rintro ⟨fuel, k, hk, hr, -⟩
    rcases (result_eq_iff hk).mp hr with ⟨hone, hr⟩ | ⟨hone, hr⟩
    · exact .inl (hr ▸ ⟨hk, hone⟩)
    · exact .inr ⟨⟨k, hk, hone⟩, hr⟩
  · rintro (⟨hk, hone⟩ | ⟨⟨k, hk, hone⟩, hr⟩)
    · exact ⟨_, r.toNat, hk, (result_eq_iff hk).mpr (.inl ⟨hone, rfl⟩), le_rfl⟩
    · exact ⟨_, k, hk, (result_eq_iff hk).mpr (.inr ⟨hone, hr⟩), le_rfl⟩

/-- A count is never mistaken for the value that stands for an overflow, and the loop that
is not left within `2 ^ 32 - 1` iterations is never left. -/
theorem collatz_iterations_sentinel (h : collatz_iterations fuel n = some r) :
    (r = 4294967295 ↔ Overflows n) ∧ collatz_iterations (2 ^ 32 - 1) n = some r := by
  obtain ⟨k, hk, hr, -⟩ := collatz_iterations_eq_some.mp h
  have hlt := firstHit_lt hk
  constructor
  · rw [overflows_iff]
    constructor
    · intro hmax
      refine ⟨k, hk, fun hone => ?_⟩
      rcases (result_eq_iff hk).mp hr with ⟨-, hcount⟩ | ⟨hnone, -⟩
      · rw [hmax] at hcount
        simp only [UInt32.reduceToNat] at hcount
        omega
      · exact hnone hone
    · rintro ⟨l, hl, hone⟩
      obtain rfl := hk.unique hl
      rcases (result_eq_iff hk).mp hr with ⟨hone', -⟩ | ⟨-, hmax⟩
      · exact absurd hone' hone
      · exact hmax
  · refine collatz_iterations_eq_some.mpr ⟨k, hk, hr, ?_⟩
    rw [iterations]
    split <;> omega

theorem collatz_iterations_sentinel_3 :
    ¬ Overflows 3 ∧ collatz_iterations (2 ^ 32 - 1) 3 = some 7 := by
  have hthree : collatz_iterations 7 3 = some 7 := by decide
  obtain ⟨hmax, hdecided⟩ := collatz_iterations_sentinel hthree
  exact ⟨fun h => absurd (hmax.mpr h) (by decide), hdecided⟩

end Results

end CollatzIterations

end WebGpuDD
