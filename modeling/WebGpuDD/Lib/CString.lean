import Mathlib.Data.List.TakeWhile
import Mathlib.Logic.Nontrivial.Defs
import WebGpuDD.Lib.Memory

/-!
# Strings that end with a null

`text` is what a string function sees of some characters, and `strncpy` copies it into a
memory. The copy has all of the places it was given room for, whether the text fills them or
not, and a null stands behind the text only where one of these places, or what was in the
memory before, has it.
-/

namespace WebGpuDD.CString

open Memory

variable {α : Type*} [Zero α] [DecidableEq α]

/-- The characters in front of the first null. -/
def text (s : List α) : List α := s.takeWhile (· ≠ 0)

/-- `strncpy(dst, src, n)`. -/
def strncpy (m : Mem α) (dst : ℕ) (src : List α) (n : ℕ) : Mem α :=
  let s := (text src).take n
  store m dst (s ++ List.replicate (n - s.length) 0)

section Text

variable {s : List α} {m : Mem α} {dst i n cap : ℕ} {src : List α}

theorem ne_zero_of_mem_text {c : α} (h : c ∈ text s) : c ≠ 0 := by
  simpa using List.mem_takeWhile_imp h

theorem text_append_zeros (hs : ∀ c ∈ s, c ≠ 0) (k : ℕ) : text (s ++ List.replicate k 0) = s := by
  have hall : ∀ c ∈ s, (decide (c ≠ 0)) = true := fun c hc => decide_eq_true (hs c hc)
  rw [text, List.takeWhile_append_of_pos hall]
  cases k <;> simp [List.replicate_succ]

/-- As many places are written as there is room for. -/
theorem strncpy_length (src : List α) (n : ℕ) :
    ((text src).take n ++ List.replicate (n - ((text src).take n).length) 0).length = n := by
  simp only [List.length_append, List.length_take, List.length_replicate]
  omega

theorem strncpy_outside (h : i < dst ∨ dst + n ≤ i) : strncpy m dst src n i = m i := by
  rcases h with h | h
  · exact store_before h
  · apply store_after
    rwa [strncpy_length]

/-- Each of these places is written, whatever the memory held there. -/
theorem strncpy_inside (dst : ℕ) (src : List α) (hi : i < n) (m m' : Mem α) :
    strncpy m dst src n (dst + i) = strncpy m' dst src n (dst + i) := by
  have hlt : i < ((text src).take n ++
      List.replicate (n - ((text src).take n).length) 0).length := by
    rwa [strncpy_length]
  rw [strncpy, strncpy, store_inside m dst hlt, store_inside m' dst hlt]

/-- Where the rest of a block is null, the block holds as much of the text as was copied. -/
theorem text_load_strncpy (hn : n ≤ cap)
    (hrest : ∀ i, dst + n ≤ i → i < dst + cap → m i = 0) :
    text (load (strncpy m dst src n) dst cap) = (text src).take n := by
  obtain ⟨k, rfl⟩ := Nat.exists_eq_add_of_le hn
  have hcopied : load (strncpy m dst src n) dst n =
      (text src).take n ++ List.replicate (n - ((text src).take n).length) 0 := by
    have hsame := load_store_same m dst
      ((text src).take n ++ List.replicate (n - ((text src).take n).length) 0)
    rwa [strncpy_length] at hsame
  have hzeros : load (strncpy m dst src n) (dst + n) k = List.replicate k 0 := by
    apply List.eq_replicate_iff.mpr
    refine ⟨load_length _ _ _, fun c hc => ?_⟩
    obtain ⟨j, hj, rfl⟩ := List.mem_map.mp hc
    have hlt := List.mem_range.mp hj
    rw [strncpy_outside (.inr (by omega)), hrest _ (by omega) (by omega)]
  rw [load_add, hcopied, hzeros, List.append_assoc, ← List.replicate_add]
  apply text_append_zeros
  exact fun c hc => ne_zero_of_mem_text (List.mem_of_mem_take hc)

/-- A copy into a block that `prepare` has set up leaves what is outside of it alone, whatever
stands there, exactly where the block has room for it. -/
theorem strncpy_within_iff [Nontrivial α] {block : ℕ} (hblock : block ≤ dst)
    (hdst : dst ≤ block + cap) {prepare : Mem α → Mem α}
    (hprepare : ∀ m i, (i < block ∨ block + cap ≤ i) → prepare m i = m i) :
    (∀ m i, (i < block ∨ block + cap ≤ i) → strncpy (prepare m) dst src n i = m i) ↔
      dst + n ≤ block + cap := by
  constructor
  · intro h
    by_contra hover
    obtain ⟨x, y, hxy⟩ := exists_pair_ne α
    -- the first place behind the block is written
    obtain ⟨k, hk⟩ := Nat.exists_eq_add_of_le hdst
    have hlt : k < n := by omega
    have hwritten := strncpy_inside dst src hlt (prepare fun _ => x) (prepare fun _ => y)
    rw [← hk, h _ _ (.inr le_rfl), h _ _ (.inr le_rfl)] at hwritten
    exact hxy hwritten
  · intro hroom m i hi
    rw [strncpy_outside (by omega), hprepare m i hi]

end Text

end WebGpuDD.CString
