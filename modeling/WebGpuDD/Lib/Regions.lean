import WebGpuDD.Lib.Memory
import Mathlib.Order.CompletePartialOrder
import Mathlib.Order.Interval.Set.Disjoint
import Mathlib.Algebra.BigOperators.Group.List.Basic

/-!
# Regions of a memory

A region is a block of a memory with what stands in it. An allocator that hands out
regions one behind the other, each behind a gap of its own, keeps them apart from each
other and from all the gaps.
-/

namespace WebGpuDD.Memory

/-- A block of a memory: where it starts, and what stands in it. -/
structure Region (α : Type*) where
  start : ℕ
  contents : List α
  deriving DecidableEq

namespace Region

variable {α : Type*}

def stop (r : Region α) : ℕ := r.start + r.contents.length

/-- The addresses of the region. -/
def addresses (r : Region α) : Set ℕ := Set.Ico r.start r.stop

/-- The addresses of a gap of `g` in front of the region. -/
def gapAddresses (g : ℕ) (r : Region α) : Set ℕ := Set.Ico (r.start - g) r.start

/-- The region behind a copy of `xs` to its place `i`. -/
def write (r : Region α) (i : ℕ) (xs : List α) : Region α :=
  { r with contents := overwrite r.contents i xs }

theorem write_length (r : Region α) {i : ℕ} {xs : List α}
    (h : i + xs.length ≤ r.contents.length) :
    (r.write i xs).contents.length = r.contents.length := overwrite_length h

/-- The room that regions take up with a gap of `g` in front of each. -/
def extent (g : ℕ) (rs : List (Region α)) : ℕ := (rs.map fun r => g + r.contents.length).sum

/-- The regions stand one behind the other from address `o` on, each behind a gap of `g`. -/
def Laid (g : ℕ) : ℕ → List (Region α) → Prop
  | _, [] => True
  | o, r :: rs => r.start = o + g ∧ Laid g r.stop rs

section

variable {g o : ℕ} {rs rs' : List (Region α)}

@[simp] theorem extent_nil : extent g ([] : List (Region α)) = 0 := rfl

@[simp] theorem extent_cons (r : Region α) :
    extent g (r :: rs) = g + r.contents.length + extent g rs := List.sum_cons

theorem extent_append : extent g (rs ++ rs') = extent g rs + extent g rs' := by
  simp [extent]

theorem laid_append :
    Laid g o (rs ++ rs') ↔ Laid g o rs ∧ Laid g (o + extent g rs) rs' := by
  induction rs generalizing o with
  | nil => simp [Laid]
  | cons r rs ih =>
    rw [List.cons_append, Laid, Laid, ih, and_assoc, extent_cons]
    apply and_congr_right
    intro h
    rw [show r.stop + extent g rs = o + (g + r.contents.length + extent g rs) by
      rw [stop, h]
      omega]

theorem laid_concat {r : Region α} :
    Laid g o (rs ++ [r]) ↔ Laid g o rs ∧ r.start = o + extent g rs + g := by
  rw [laid_append]
  simp [Laid]

/-- Regions that are laid out end where their extent ends. -/
theorem Laid.inside (h : Laid g o rs) :
    ∀ r ∈ rs, o + g ≤ r.start ∧ r.stop ≤ o + extent g rs := by
  induction rs generalizing o with
  | nil => simp
  | cons r rs ih =>
    obtain ⟨hstart, hrest⟩ := h
    rw [extent_cons]
    intro r' hr'
    rcases List.mem_cons.mp hr' with rfl | hmem
    · rw [stop]
      omega
    · have hr := ih hrest r' hmem
      rw [stop] at hr
      omega

/-- There is room for a gap between any two of them. -/
theorem Laid.apart (h : Laid g o rs) : rs.Pairwise fun r r' => r.stop + g ≤ r'.start := by
  induction rs generalizing o with
  | nil => exact List.Pairwise.nil
  | cons r rs ih =>
    obtain ⟨hstart, hrest⟩ := h
    apply List.Pairwise.cons _ (ih hrest)
    intro r' hr'
    exact (hrest.inside r' hr').1

theorem Laid.disjoint (h : Laid g o rs) :
    rs.Pairwise fun r r' => Disjoint r.addresses r'.addresses := by
  apply h.apart.imp
  intro r r' hrr'
  rw [addresses, addresses, Set.disjoint_left]
  intro i hi hi'
  rw [Set.mem_Ico] at hi hi'
  omega

/-- No region overlaps a gap, its own or another's. -/
theorem Laid.gaps (h : Laid g o rs) :
    ∀ r ∈ rs, ∀ r' ∈ rs, Disjoint r.addresses (r'.gapAddresses g) := by
  intro r hr r' hr'
  apply List.Pairwise.forall_of_forall_of_flip
    (R := fun r r' => Disjoint r.addresses (r'.gapAddresses g)) _ _ _ hr hr'
  · intro r _
    simp only [addresses, gapAddresses, Set.disjoint_left, Set.mem_Ico]
    omega
  · apply h.apart.imp
    intro r r' hrr'
    simp only [addresses, gapAddresses, Set.disjoint_left, Set.mem_Ico]
    omega
  · apply h.apart.imp
    intro r r' hrr'
    simp only [flip, stop, addresses, gapAddresses, Set.disjoint_left, Set.mem_Ico] at hrr' ⊢
    omega

/-- A write does not move a region. -/
theorem Laid.write {r : Region α} {i : ℕ} {xs : List α} (h : Laid g o (rs ++ r :: rs'))
    (hi : i + xs.length ≤ r.contents.length) : Laid g o (rs ++ r.write i xs :: rs') := by
  obtain ⟨hpre, hstart, hpost⟩ := laid_append.mp h
  apply laid_append.mpr
  refine ⟨hpre, hstart, ?_⟩
  rwa [show (r.write i xs).stop = r.stop by rw [stop, stop, write_length r hi]; rfl]

end

end Region

end WebGpuDD.Memory
