import Mathlib.Data.List.Basic
import Mathlib.Data.List.GetD
import Mathlib.Tactic.Ring

/-!
# A flat memory

A memory gives the value at every address. `store` is a block copy into it and
`load` reads a block back; bounds are kept by whoever calls them.
-/

namespace WebGpuDD.Memory

/-- What every address holds. -/
abbrev Mem (α : Type*) := ℕ → α

variable {α : Type*}

/-- Copy `xs` to the addresses from `p` on. -/
def store (m : Mem α) (p : ℕ) (xs : List α) : Mem α := fun i =>
  if p ≤ i then (xs[i - p]?).getD (m i) else m i

/-- The `n` values from address `p` on. -/
def load (m : Mem α) (p n : ℕ) : List α := (List.range n).map fun i => m (p + i)

@[simp] theorem load_length (m : Mem α) (p n : ℕ) : (load m p n).length = n := by
  simp [load]

@[simp] theorem load_zero (m : Mem α) (p : ℕ) : load m p 0 = [] := rfl

theorem load_add (m : Mem α) (p a b : ℕ) : load m p (a + b) = load m p a ++ load m (p + a) b := by
  simp only [load, List.range_add, List.map_append, List.map_map, Nat.add_assoc]
  rfl

theorem load_congr {m m' : Mem α} {p n : ℕ} (h : ∀ i < n, m (p + i) = m' (p + i)) :
    load m p n = load m' p n := by
  apply List.map_congr_left
  intro i hi
  exact h i (List.mem_range.mp hi)

theorem store_before {m : Mem α} {p i : ℕ} {xs : List α} (h : i < p) : store m p xs i = m i := by
  simp [store, Nat.not_le.mpr h]

theorem store_inside (m : Mem α) (p : ℕ) {xs : List α} {i : ℕ} (h : i < xs.length) :
    store m p xs (p + i) = xs[i] := by
  simp [store, h]

theorem load_store_same (m : Mem α) (p : ℕ) (xs : List α) :
    load (store m p xs) p xs.length = xs := by
  apply List.ext_getElem (by simp)
  intro i _ hi
  simp [load, store_inside m p hi]

/-- A block that ends where the copy starts is left alone. -/
theorem load_store_before {m : Mem α} {p q n : ℕ} {xs : List α} (h : q + n ≤ p) :
    load (store m p xs) q n = load m q n :=
  load_congr fun i _ => store_before (by omega)

theorem store_after {m : Mem α} {p i : ℕ} {xs : List α} (h : p + xs.length ≤ i) :
    store m p xs i = m i := by
  simp [store, List.getElem?_eq_none (show xs.length ≤ i - p by omega)]

/-- A block that starts where the copy ends, or later, is left alone. -/
theorem load_store_after {m : Mem α} {p q n : ℕ} {xs : List α} (h : p + xs.length ≤ q) :
    load (store m p xs) q n = load m q n :=
  load_congr fun i _ => store_after (by omega)

/-- A copy at the end of a block extends it. -/
theorem load_store_append (m : Mem α) (q n : ℕ) (xs : List α) :
    load (store m (q + n) xs) q (n + xs.length) = load m q n ++ xs := by
  rw [load_add, load_store_before (Nat.le_refl _), load_store_same]

/-- Two copies next to each other are one copy. -/
theorem store_append (m : Mem α) (p : ℕ) (xs ys : List α) :
    store (store m p xs) (p + xs.length) ys = store m p (xs ++ ys) := by
  funext i
  by_cases h : p + xs.length ≤ i
  · have hx : xs.length ≤ i - p := by omega
    have hs : i - (p + xs.length) = i - p - xs.length := by omega
    simp [store, h, show p ≤ i by omega, List.getElem?_append_right hx,
      List.getElem?_eq_none hx, hs]
  · rw [store_before (by omega)]
    by_cases hp : p ≤ i
    · simp [store, hp, List.getElem?_append_left (show i - p < xs.length by omega)]
    · rw [store_before (by omega), store_before (by omega)]

/-- A block copied back to where it was read from changes nothing. -/
theorem store_load (m : Mem α) (p n : ℕ) : store m p (load m p n) = m := by
  funext i
  by_cases hp : p ≤ i
  · by_cases hi : i - p < n
    · have hpi : p + (i - p) = i := by omega
      simp [store, load, hp, hi, hpi]
    · simp [store, load, hp, hi]
  · exact store_before (by omega)

/-! ## Copies into a block -/

/-- `xs` with `ys` put over the elements from place `i` on. -/
def overwrite (xs : List α) (i : ℕ) (ys : List α) : List α :=
  xs.take i ++ ys ++ xs.drop (i + ys.length)

theorem overwrite_length {xs : List α} {i : ℕ} {ys : List α} (h : i + ys.length ≤ xs.length) :
    (overwrite xs i ys).length = xs.length := by
  simp only [overwrite, List.length_append, List.length_take, List.length_drop]
  omega

theorem overwrite_append_left (as xs : List α) (i : ℕ) (ys : List α) :
    overwrite (as ++ xs) (as.length + i) ys = as ++ overwrite xs i ys := by
  simp only [overwrite, Nat.add_assoc, List.take_length_add_append, List.drop_length_add_append,
    List.append_assoc]

theorem overwrite_append_right {xs : List α} {i : ℕ} {ys : List α} (bs : List α)
    (h : i + ys.length ≤ xs.length) : overwrite (xs ++ bs) i ys = overwrite xs i ys ++ bs := by
  simp only [overwrite, List.take_append_of_le_length (show i ≤ xs.length by omega),
    List.drop_append_of_le_length h, List.append_assoc]

/-- A copy inside a block puts the new elements over the old ones. -/
theorem load_store_within (m : Mem α) (p : ℕ) {i n : ℕ} {ys : List α} (h : i + ys.length ≤ n) :
    load (store m (p + i) ys) p n = overwrite (load m p n) i ys := by
  obtain ⟨c, rfl⟩ := Nat.exists_eq_add_of_le h
  have hdrop : (load m p (i + ys.length + c)).drop (i + ys.length) =
      load m (p + (i + ys.length)) c := by
    rw [load_add, List.drop_left' (load_length m p _)]
  have htake : (load m p (i + ys.length + c)).take i = load m p i := by
    rw [Nat.add_assoc, load_add, List.take_left' (load_length m p i)]
  -- the block is what stands before the copy, the copy, and what stands behind it
  rw [overwrite, htake, hdrop, load_add, load_add, load_store_before (Nat.le_refl _),
    load_store_same, load_store_after (Nat.le_of_eq (Nat.add_assoc p i ys.length))]

end WebGpuDD.Memory
