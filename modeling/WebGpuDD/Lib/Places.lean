import Mathlib.Algebra.BigOperators.Group.List.Basic
import Mathlib.Algebra.GroupWithZero.Nat
import Mathlib.Data.List.Nodup

/-!
# Lists by place

What stands in a place of a list when one place has been written, and what becomes of a sum
over the list.
-/

namespace WebGpuDD.Places

variable {α : Type*} {l : List α} {i j : ℕ} {a b : α}

/-- What stands in a place was written there, or it stood there before. -/
theorem getElem?_set_cases (h : (l.set i a)[j]? = some b) :
    (j = i ∧ b = a) ∨ (j ≠ i ∧ l[j]? = some b) := by
  by_cases hj : j = i
  · subst hj
    have hlt := (List.getElem?_eq_some_iff.mp h).1
    rw [List.length_set] at hlt
    rw [List.getElem?_set_self hlt] at h
    exact .inl ⟨rfl, (Option.some.inj h).symm⟩
  · rw [List.getElem?_set_ne (Ne.symm hj)] at h
    exact .inr ⟨hj, h⟩

theorem getElem?_set_of_some (h : l[i]? = some b) : (l.set i a)[i]? = some a :=
  List.getElem?_set_self (List.getElem?_eq_some_iff.mp h).1

theorem getElem?_concat_cases (h : (l ++ [a])[j]? = some b) :
    (j = l.length ∧ b = a) ∨ l[j]? = some b := by
  rcases Nat.lt_trichotomy j l.length with hlt | rfl | hlt
  · rw [List.getElem?_append_left hlt] at h
    exact .inr h
  · rw [List.getElem?_concat_length] at h
    exact .inl ⟨rfl, (Option.some.inj h).symm⟩
  · have hout := (List.getElem?_eq_some_iff.mp h).1
    rw [List.length_append, List.length_singleton] at hout
    omega

/-! ## Lists of pairs with different first components -/

section Keyed

variable {κ β : Type*} {ts : List (κ × β)} {k k' : κ} {x y : β}

theorem index_unique (hkeys : (ts.map Prod.fst).Nodup) (hi : ts[i]? = some (k, x))
    (hj : ts[j]? = some (k, y)) : i = j := by
  have hki : (ts.map Prod.fst)[i]? = some k := by
    rw [List.getElem?_map, hi]
    rfl
  have hkj : (ts.map Prod.fst)[j]? = some k := by
    rw [List.getElem?_map, hj]
    rfl
  exact (List.getElem?_inj (List.getElem?_eq_some_iff.mp hki).1 hkeys).mp (hki.trans hkj.symm)

theorem map_fst_set (hi : ts[i]? = some (k, x)) (y : β) :
    (ts.set i (k, y)).map Prod.fst = ts.map Prod.fst := by
  have hki : (ts.map Prod.fst)[i]? = some k := by
    rw [List.getElem?_map, hi]
    rfl
  obtain ⟨hlt, hget⟩ := List.getElem?_eq_some_iff.mp hki
  rw [List.map_set, ← hget]
  exact List.set_getElem_self hlt

theorem nodup_keys_concat (hkeys : (ts.map Prod.fst).Nodup)
    (hnew : ∀ (j : ℕ) (z : β), ts[j]? ≠ some (k, z)) (y : β) :
    ((ts ++ [(k, y)]).map Prod.fst).Nodup := by
  rw [List.map_append, List.map_singleton, List.nodup_append]
  refine ⟨hkeys, List.nodup_singleton _, ?_⟩
  intro l hl l' hl' heq
  rw [List.mem_singleton.mp hl'] at heq
  obtain ⟨⟨_, z⟩, hmem, rfl⟩ := List.mem_map.mp (heq ▸ hl)
  obtain ⟨j, hj⟩ := List.getElem?_of_mem hmem
  exact hnew j z hj

theorem exists_key_set (hi : ts[i]? = some (k, x)) (y : β)
    (h : ∃ (j : ℕ) (z : β), ts[j]? = some (k', z)) :
    ∃ (j : ℕ) (z : β), (ts.set i (k, y))[j]? = some (k', z) := by
  obtain ⟨j, z, hj⟩ := h
  by_cases hji : j = i
  · subst hji
    obtain ⟨rfl, -⟩ := Prod.mk.inj (Option.some.inj (hi.symm.trans hj))
    exact ⟨j, y, getElem?_set_of_some hi⟩
  · exact ⟨j, z, (List.getElem?_set_ne (Ne.symm hji)).trans hj⟩

theorem exists_key_concat (a : κ × β) (h : ∃ (j : ℕ) (z : β), ts[j]? = some (k', z)) :
    ∃ (j : ℕ) (z : β), (ts ++ [a])[j]? = some (k', z) := by
  obtain ⟨j, z, hj⟩ := h
  exact ⟨j, z, (List.getElem?_append_left (List.getElem?_eq_some_iff.mp hj).1).trans hj⟩

end Keyed

/-- One summand is exchanged for another. -/
theorem sum_map_set {f : α → ℕ} (hi : l[i]? = some a) (b : α) :
    ((l.set i b).map f).sum + f a = (l.map f).sum + f b := by
  induction l generalizing i with
  | nil => cases hi
  | cons c l ih =>
    cases i with
    | zero =>
      rw [List.getElem?_cons_zero] at hi
      rw [← Option.some.inj hi, List.set_cons_zero, List.map_cons, List.map_cons, List.sum_cons,
        List.sum_cons]
      omega
    | succ i =>
      rw [List.getElem?_cons_succ] at hi
      have htail := ih hi
      rw [List.set_cons_succ, List.map_cons, List.map_cons, List.sum_cons, List.sum_cons]
      omega

end WebGpuDD.Places
