import Mathlib.Data.UInt
import Mathlib.Algebra.BigOperators.Fin
import Mathlib.Data.List.Nodup
import Mathlib.Data.Matrix.Mul
import WebGpuDD.Lib.Threads

/-!
# Matrix multiplication on the CPU

`multiplyMatrices` starts a thread for every block of 64 rows and 64 columns of the result
and joins them all. Nothing but the split into blocks keeps the threads apart. The matrices
are three different arrays of `uint32_t`, in rows; the loop counters are numbers, which is
what they are where the dimension is at most `2 ^ 16`.
-/

namespace WebGpuDD

open Memory Threads Runs

/-- The subscript `col + dim * row`, computed on `uint32_t`. -/
def subscript (dim row col : ℕ) : ℕ := (col + dim * row) % 2 ^ 32

namespace MatmulCpu

/-- `uint32_t batchsz`. -/
def batchsz : ℕ := 64

/-- `res[x] = 0`. -/
def clear (x : ℕ) : Op UInt32 UInt32 := fun r m => (r, Function.update m x 0)

/-- The read of `res[x] += v`. -/
def load (x : ℕ) : Op UInt32 UInt32 := fun _ m => (m x, m)

/-- Its write. -/
def add (x : ℕ) (v : UInt32) : Op UInt32 UInt32 := fun r m => (r, Function.update m x (r + v))

section Code

variable (a b : Mem UInt32) (dim : ℕ)

/-- The loop over `k`, as far as `n`. -/
def products (i j n : ℕ) : List (Op UInt32 UInt32) :=
  (List.range n).flatMap fun k =>
    [load (subscript dim i j),
      add (subscript dim i j) (a (subscript dim i k) * b (subscript dim k j))]

/-- What a thread does for one element of the result. -/
def element (c : ℕ × ℕ) : List (Op UInt32 UInt32) :=
  clear (subscript dim c.1 c.2) :: products a b dim c.1 c.2 dim

/-- The elements of a block, in the order of the loops over `i` and `j`. -/
def block (start : ℕ × ℕ) : List (ℕ × ℕ) :=
  List.range' start.1 batchsz ×ˢ List.range' start.2 batchsz

/-- The blocks, in the order of the loops over `by` and `bx`. -/
def blocks : List (ℕ × ℕ) :=
  let starts := List.range' 0 ((dim + (batchsz - 1)) / batchsz) batchsz
  starts ×ˢ starts

/-- The thread of a block. -/
def thread (start : ℕ × ℕ) : Thread UInt32 UInt32 := ⟨0, (block start).flatMap (element a b dim)⟩

/-- `multiplyMatrices`: all threads, before any of them has begun. -/
def multiplyMatrices (res : Mem UInt32) : Pool UInt32 UInt32 :=
  Pool.launch (blocks dim) (thread a b dim) res

end Code

/-- The matrix that an array holds. -/
def matrix (m : Mem UInt32) (dim : ℕ) : Matrix (Fin dim) (Fin dim) UInt32 := fun i j =>
  m (j + dim * i)

/-! ## One thread -/

section Thread

variable {a b : Mem UInt32} {dim : ℕ} {F : Set ℕ} {x : ℕ}

theorem clear_within (hx : x ∈ F) : (clear x).Within F where
  reads := by
    intro r m m' h
    refine ⟨rfl, fun y hy => ?_⟩
    by_cases hyx : y = x
    · simp [clear, hyx]
    · simp [clear, Function.update_of_ne hyx, h y hy]
  writes := by
    intro r m y hy
    have hyx : y ≠ x := by
      rintro rfl
      exact hy hx
    exact Function.update_of_ne hyx _ _

theorem load_within (hx : x ∈ F) : (load x).Within F where
  reads := fun _ _ _ h => ⟨h x hx, h⟩
  writes := fun _ _ _ _ => rfl

theorem add_within (hx : x ∈ F) (v : UInt32) : (add x v).Within F where
  reads := by
    intro r m m' h
    refine ⟨rfl, fun y hy => ?_⟩
    by_cases hyx : y = x
    · simp [add, hyx]
    · simp [add, Function.update_of_ne hyx, h y hy]
  writes := by
    intro r m y hy
    have hyx : y ≠ x := by
      rintro rfl
      exact hy hx
    exact Function.update_of_ne hyx _ _

theorem element_within {c : ℕ × ℕ} (hx : subscript dim c.1 c.2 ∈ F) :
    ∀ op ∈ element a b dim c, Op.Within F op := by
  intro op hop
  rcases List.mem_cons.mp hop with rfl | hop
  · exact clear_within hx
  · obtain ⟨k, -, hk⟩ := List.mem_flatMap.mp hop
    rcases List.mem_cons.mp hk with rfl | hk
    · exact load_within hx
    · rw [List.mem_singleton.mp hk]
      exact add_within hx _

/-- The products so far are added to the element. -/
theorem exec_products (i j n : ℕ) (r : UInt32) (m : Mem UInt32) :
    (exec (products a b dim i j n) r m).2 = Function.update m (subscript dim i j)
      (m (subscript dim i j) +
        ∑ k ∈ Finset.range n, a (subscript dim i k) * b (subscript dim k j)) := by
  induction n with
  | zero => simp [products]
  | succ n ih =>
    rw [products] at ih
    rw [products, List.range_succ, List.flatMap_append, exec_append, ih, Finset.sum_range_succ,
      ← add_assoc]
    simp [exec_cons, load, add]

theorem exec_element (c : ℕ × ℕ) (r : UInt32) (m : Mem UInt32) :
    (exec (element a b dim c) r m).2 = Function.update m (subscript dim c.1 c.2)
      (∑ k ∈ Finset.range dim, a (subscript dim c.1 k) * b (subscript dim k c.2)) := by
  rw [element, exec_cons, exec_products]
  simp [clear]

end Thread

/-! ## The blocks -/

section Blocks

variable {dim : ℕ} {i j i' j' : ℕ}

theorem subscript_eq (hdim : dim ≤ 2 ^ 16) (hi : i < dim) (hj : j < dim) :
    subscript dim i j = j + dim * i := by
  have hrow : dim * (i + 1) ≤ dim * dim := Nat.mul_le_mul_left dim hi
  have hsquare : dim * dim ≤ 2 ^ 16 * 2 ^ 16 := Nat.mul_le_mul hdim hdim
  rw [Nat.mul_succ] at hrow
  rw [subscript, Nat.mod_eq_of_lt]
  omega

theorem subscript_lt (hdim : dim ≤ 2 ^ 16) (hi : i < dim) (hj : j < dim) :
    subscript dim i j < dim * dim := by
  have hrow : dim * (i + 1) ≤ dim * dim := Nat.mul_le_mul_left dim hi
  rw [Nat.mul_succ] at hrow
  rw [subscript_eq hdim hi hj]
  omega

theorem subscript_injective (hdim : dim ≤ 2 ^ 16) (hi : i < dim) (hj : j < dim) (hi' : i' < dim)
    (hj' : j' < dim) (h : subscript dim i j = subscript dim i' j') : i = i' ∧ j = j' := by
  have hpos : 0 < dim := by omega
  rw [subscript_eq hdim hi hj, subscript_eq hdim hi' hj'] at h
  have hrows := congrArg (· / dim) h
  have hcols := congrArg (· % dim) h
  simp only [Nat.add_mul_div_left _ _ hpos, Nat.div_eq_of_lt hj, Nat.div_eq_of_lt hj',
    Nat.add_mul_mod_self_left, Nat.mod_eq_of_lt hj, Nat.mod_eq_of_lt hj', Nat.zero_add]
    at hrows hcols
  exact ⟨hrows, hcols⟩

theorem mem_block {start c : ℕ × ℕ} : c ∈ block start ↔
    (start.1 ≤ c.1 ∧ c.1 < start.1 + batchsz) ∧ start.2 ≤ c.2 ∧ c.2 < start.2 + batchsz := by
  rw [block, List.mem_product, List.mem_range'_1, List.mem_range'_1]

theorem mem_blocks {start : ℕ × ℕ} : start ∈ blocks dim ↔
    (batchsz ∣ start.1 ∧ start.1 < dim) ∧ batchsz ∣ start.2 ∧ start.2 < dim := by
  have hstart (y : ℕ) : y ∈ List.range' 0 ((dim + (batchsz - 1)) / batchsz) batchsz ↔
      batchsz ∣ y ∧ y < dim := by
    simp only [List.mem_range', batchsz, Nat.zero_add]
    constructor
    · rintro ⟨n, hn, rfl⟩
      exact ⟨⟨n, rfl⟩, by omega⟩
    · rintro ⟨⟨n, rfl⟩, hlt⟩
      exact ⟨n, by omega, rfl⟩
  rw [blocks, List.mem_product, hstart, hstart]

theorem nodup_blocks (dim : ℕ) : (blocks dim).Nodup := by
  have hstarts : (List.range' 0 ((dim + (batchsz - 1)) / batchsz) batchsz).Nodup :=
    List.nodup_range' batchsz (by decide)
  exact hstarts.product hstarts

/-- A block whose sides the dimension is a multiple of does not stick out. -/
theorem lt_of_mem_block {start c : ℕ × ℕ} (hdvd : batchsz ∣ dim) (hstart : start ∈ blocks dim)
    (hc : c ∈ block start) : c.1 < dim ∧ c.2 < dim := by
  obtain ⟨⟨⟨y, hy⟩, hylt⟩, ⟨x, hx⟩, hxlt⟩ := mem_blocks.mp hstart
  obtain ⟨⟨-, hi⟩, -, hj⟩ := mem_block.mp hc
  obtain ⟨n, rfl⟩ := hdvd
  simp only [batchsz] at *
  omega

theorem block_unique {start start' c : ℕ × ℕ} (hstart : start ∈ blocks dim)
    (hstart' : start' ∈ blocks dim) (hc : c ∈ block start) (hc' : c ∈ block start') :
    start = start' := by
  obtain ⟨⟨⟨y, hy⟩, -⟩, ⟨x, hx⟩, -⟩ := mem_blocks.mp hstart
  obtain ⟨⟨⟨y', hy'⟩, -⟩, ⟨x', hx'⟩, -⟩ := mem_blocks.mp hstart'
  have hm := mem_block.mp hc
  have hm' := mem_block.mp hc'
  simp only [batchsz] at *
  exact Prod.ext (by omega) (by omega)

theorem exists_block (hi : i < dim) (hj : j < dim) :
    ∃ start ∈ blocks dim, (i, j) ∈ block start := by
  refine ⟨(batchsz * (i / batchsz), batchsz * (j / batchsz)), mem_blocks.mpr ?_,
    mem_block.mpr ?_⟩
  · refine ⟨⟨Nat.dvd_mul_right _ _, ?_⟩, Nat.dvd_mul_right _ _, ?_⟩
    · exact (Nat.mul_div_le i batchsz).trans_lt hi
    · exact (Nat.mul_div_le j batchsz).trans_lt hj
  · simp only [batchsz]
    omega

end Blocks

/-! ## All threads -/

/-- The addresses of a block's elements. -/
def region (dim : ℕ) (start : ℕ × ℕ) : Set ℕ :=
  {x | ∃ c ∈ block start, subscript dim c.1 c.2 = x}

section Pool

variable {a b res : Mem UInt32} {dim : ℕ}

theorem region_disjoint (hdim : dim ≤ 2 ^ 16) (hdvd : batchsz ∣ dim) {start start' : ℕ × ℕ}
    (hstart : start ∈ blocks dim) (hstart' : start' ∈ blocks dim) (hne : start ≠ start') :
    Disjoint (region dim start) (region dim start') := by
  rw [Set.disjoint_left]
  rintro _ ⟨c, hc, rfl⟩ ⟨c', hc', h⟩
  obtain ⟨hi, hj⟩ := lt_of_mem_block hdvd hstart hc
  obtain ⟨hi', hj'⟩ := lt_of_mem_block hdvd hstart' hc'
  obtain ⟨hrow, hcol⟩ := subscript_injective hdim hi' hj' hi hj h
  have hsame : c' = c := Prod.ext hrow hcol
  exact hne (block_unique hstart hstart' hc (hsame ▸ hc'))

theorem thread_within (start : ℕ × ℕ) :
    ∀ op ∈ (thread a b dim start).code, Op.Within (region dim start) op := by
  intro op hop
  obtain ⟨c, hc, hop⟩ := List.mem_flatMap.mp hop
  have hx : subscript dim c.1 c.2 ∈ region dim start := ⟨c, hc, rfl⟩
  exact element_within hx op hop

/-- What a thread that runs alone leaves at an element of its block. -/
theorem exec_thread (hdim : dim ≤ 2 ^ 16) (hdvd : batchsz ∣ dim) {start c : ℕ × ℕ}
    (hstart : start ∈ blocks dim) (hc : c ∈ block start) :
    ((thread a b dim start).exec res).2 (subscript dim c.1 c.2) =
      ∑ k ∈ Finset.range dim, a (subscript dim c.1 k) * b (subscript dim k c.2) := by
  obtain ⟨hi, hj⟩ := lt_of_mem_block hdvd hstart hc
  rcases exec_flatMap_set (@exec_element a b dim) (block start) 0 res
    (subscript dim c.1 c.2) with ⟨c', hc', hsub, hval⟩ | ⟨hnone, -⟩
  · obtain ⟨hi', hj'⟩ := lt_of_mem_block hdvd hstart hc'
    obtain ⟨hrow, hcol⟩ := subscript_injective hdim hi' hj' hi hj hsub
    rw [← hrow, ← hcol] at hval ⊢
    exact hval
  · exact absurd rfl (hnone c hc)

/-- The products of a row and a column, as the matrices have them. -/
theorem sum_subscript (hdim : dim ≤ 2 ^ 16) (i j : Fin dim) :
    ∑ k ∈ Finset.range dim, a (subscript dim i k) * b (subscript dim k j) =
      (matrix a dim * matrix b dim) i j := by
  rw [Matrix.mul_apply, Finset.sum_range]
  refine Finset.sum_congr rfl fun k _ => ?_
  rw [subscript_eq hdim i.isLt k.isLt, subscript_eq hdim k.isLt j.isLt]
  rfl

/-- What is in `res` when the threads have finished. -/
theorem finished_matrix (hdim : dim ≤ 2 ^ 16) (hdvd : batchsz ∣ dim) {p : Pool UInt32 UInt32}
    (hreach : Reachable Pool.step (multiplyMatrices a b dim res) p) (hfinished : p.Finished) :
    matrix p.mem dim = matrix a dim * matrix b dim ∧ ∀ x, dim * dim ≤ x → p.mem x = res x := by
  obtain ⟨hregions, hframe⟩ := Pool.launch_finished (nodup_blocks dim)
    (fun start _ => thread_within start)
    (fun _ hs _ hs' hne => region_disjoint hdim hdvd hs hs' hne) hreach hfinished
  constructor
  · refine Matrix.ext fun i j => ?_
    obtain ⟨start, hstart, hc⟩ := exists_block i.isLt j.isLt
    have hval := hregions start hstart (subscript dim i j) ⟨(i, j), hc, rfl⟩
    rw [exec_thread hdim hdvd hstart hc, sum_subscript hdim,
      subscript_eq hdim i.isLt j.isLt] at hval
    exact hval
  · intro x hx
    refine hframe x fun start hstart hmem => ?_
    obtain ⟨c, hc, rfl⟩ := hmem
    obtain ⟨hi, hj⟩ := lt_of_mem_block hdvd hstart hc
    exact absurd (subscript_lt hdim hi hj) (not_lt.mpr hx)

/-- In whatever order the threads take their steps, they finish, and what is then in `res`
is the product. Beyond `res` nothing is written. -/
theorem multiplyMatrices_eq_mul (hdim : dim ≤ 2 ^ 16) (hdvd : batchsz ∣ dim) :
    Ends Pool.step (fun _ => True) (multiplyMatrices a b dim res) ∧
      ∀ p, Reachable Pool.step (multiplyMatrices a b dim res) p → p.Finished →
        matrix p.mem dim = matrix a dim * matrix b dim ∧ ∀ x, dim * dim ≤ x → p.mem x = res x :=
  ⟨Pool.ends _, fun _ hreach hfinished => finished_matrix hdim hdvd hreach hfinished⟩

/-- The dimension and the contents that `main` of the example has. -/
theorem multiplyMatrices_eq_mul_main :
    ∃ p, Reachable Pool.step (multiplyMatrices (fun _ => 2) (fun _ => 3) 1024 fun _ => 0) p ∧
      p.Finished ∧ ∀ i j, matrix p.mem 1024 i j = 6144 := by
  obtain ⟨p, hreach, hfinished⟩ :=
    Pool.exists_finished (multiplyMatrices (fun _ => 2) (fun _ => 3) 1024 fun _ => 0)
  have hdim : 1024 ≤ 2 ^ 16 := by decide
  have hproduct := ((multiplyMatrices_eq_mul hdim (by decide)).2 p hreach hfinished).1
  refine ⟨p, hreach, hfinished, fun i j => ?_⟩
  rw [hproduct, Matrix.mul_apply]
  simp only [matrix, Finset.sum_const, Finset.card_univ, Fintype.card_fin]
  decide

end Pool

/-! ## Dimensions that the blocks do not fit -/

section Misfit

variable {dim : ℕ}

/-- The subscripts of the three arrays that a thread uses are those of elements. -/
def InBounds (dim : ℕ) (start : ℕ × ℕ) : Prop := ∀ c ∈ block start,
  subscript dim c.1 c.2 < dim * dim ∧
    ∀ k < dim, subscript dim c.1 k < dim * dim ∧ subscript dim k c.2 < dim * dim

/-- The last row of the last block sticks out at the end of `res`. -/
theorem not_inBounds (hdim : dim ≤ 2 ^ 16) (hdvd : ¬ batchsz ∣ dim) :
    ∃ start ∈ blocks dim, ¬ InBounds dim start := by
  have hlt : batchsz * (dim / batchsz) < dim := by
    simp only [batchsz] at *
    omega
  refine ⟨(batchsz * (dim / batchsz), 0), mem_blocks.mpr ?_, fun h => ?_⟩
  · exact ⟨⟨Nat.dvd_mul_right _ _, hlt⟩, Nat.dvd_zero _, by omega⟩
  · have hc : (dim, 0) ∈ block (batchsz * (dim / batchsz), 0) := by
      refine mem_block.mpr ?_
      simp only [batchsz] at *
      omega
    have hlow := (h (dim, 0) hc).1
    have hsquare : dim * dim < 2 ^ 32 := by
      have hne : dim ≠ 2 ^ 16 := by
        rintro rfl
        exact hdvd (by decide)
      have := Nat.mul_self_lt_mul_self (show dim < 2 ^ 16 by omega)
      omega
    rw [subscript, Nat.zero_add, Nat.mod_eq_of_lt hsquare] at hlow
    exact absurd hlow (lt_irrefl _)

/-- The element behind the end of the first row is the first element of the second row. -/
theorem not_disjoint (hdim : dim ≤ 2 ^ 16) (hdvd : ¬ batchsz ∣ dim) (hlarge : batchsz ≤ dim) :
    ∃ start ∈ blocks dim, ∃ start' ∈ blocks dim, start ≠ start' ∧
      ¬ Disjoint (region dim start) (region dim start') := by
  have hlt : batchsz * (dim / batchsz) < dim := by
    simp only [batchsz] at *
    omega
  refine ⟨(0, 0), mem_blocks.mpr ?_, (0, batchsz * (dim / batchsz)), mem_blocks.mpr ?_, ?_, ?_⟩
  · exact ⟨⟨Nat.dvd_zero _, by omega⟩, Nat.dvd_zero _, by omega⟩
  · exact ⟨⟨Nat.dvd_zero _, by omega⟩, Nat.dvd_mul_right _ _, hlt⟩
  · intro h
    have hzero := congrArg Prod.snd h
    simp only [batchsz] at *
    omega
  · rw [Set.not_disjoint_iff]
    refine ⟨subscript dim 1 0, ⟨(1, 0), mem_block.mpr ?_, rfl⟩, (0, dim), mem_block.mpr ?_, ?_⟩
    · simp [batchsz]
    · simp only [batchsz] at *
      omega
    · simp [subscript]

/-- The threads stay inside the arrays exactly where 64 divides the dimension, and no two of
them write the same element exactly where there is but one thread or 64 divides it. -/
theorem multiplyMatrices_fits_iff (hdim : dim ≤ 2 ^ 16) :
    ((∀ start ∈ blocks dim, InBounds dim start) ↔ batchsz ∣ dim) ∧
      ((∀ start ∈ blocks dim, ∀ start' ∈ blocks dim, start ≠ start' →
        Disjoint (region dim start) (region dim start')) ↔ batchsz ∣ dim ∨ dim < batchsz) := by
  refine ⟨⟨?_, ?_⟩, ?_, ?_⟩
  · intro h
    by_contra hdvd
    obtain ⟨start, hstart, hout⟩ := not_inBounds hdim hdvd
    exact hout (h start hstart)
  · intro hdvd start hstart c hc
    obtain ⟨hi, hj⟩ := lt_of_mem_block hdvd hstart hc
    exact ⟨subscript_lt hdim hi hj, fun k hk => ⟨subscript_lt hdim hi hk, subscript_lt hdim hk hj⟩⟩
  · intro h
    by_contra hboth
    obtain ⟨hdvd, hlarge⟩ := not_or.mp hboth
    obtain ⟨start, hstart, start', hstart', hne, hmeet⟩ :=
      not_disjoint hdim hdvd (not_lt.mp hlarge)
    exact hmeet (h start hstart start' hstart' hne)
  · rintro (hdvd | hsmall) start hstart start' hstart' hne
    · exact region_disjoint hdim hdvd hstart hstart' hne
    · obtain ⟨⟨⟨y, hy⟩, hylt⟩, ⟨x, hx⟩, hxlt⟩ := mem_blocks.mp hstart
      obtain ⟨⟨⟨y', hy'⟩, hylt'⟩, ⟨x', hx'⟩, hxlt'⟩ := mem_blocks.mp hstart'
      refine absurd (Prod.ext ?_ ?_) hne
      all_goals
        simp only [batchsz] at *
        omega

theorem multiplyMatrices_fits_65 :
    ¬ (∀ start ∈ blocks 65, InBounds 65 start) ∧
      ¬ ∀ start ∈ blocks 65, ∀ start' ∈ blocks 65, start ≠ start' →
        Disjoint (region 65 start) (region 65 start') := by
  have hdim : 65 ≤ 2 ^ 16 := by decide
  obtain ⟨hbounds, hdisjoint⟩ := multiplyMatrices_fits_iff hdim
  rw [hbounds, hdisjoint]
  decide

end Misfit

end MatmulCpu

end WebGpuDD
