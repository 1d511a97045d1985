import WebGpuDD.MatmulCpu

/-!
# Matrix multiplication on the GPU

The compute pass that `multiplyMatricesGPU` submits runs the shader's `main` once for every
invocation of the dispatch, each with a private `sum`. The invocations share the buffer
`results`, which holds the contents of `res` before the pass; what it holds afterwards is
copied to the staging buffer. The workgroups are 16 by 16, and a number of rows and columns
that they do not fit is rounded down.
-/

namespace WebGpuDD

open Memory Threads Runs

namespace MatmulGpu

/-- `mlen`, on `uint32_t`. -/
def mlen (dim : ℕ) : ℕ := dim * dim % 2 ^ 32

/-- `msize`, the size in bytes of the three buffers with matrices. -/
def msize (dim : ℕ) : ℕ := mlen dim * 4 % 2 ^ 32

/-- `@workgroup_size(16, 16, 1)`. -/
def workgroup : ℕ := 16

/-- The global ids of `wgpuComputePassEncoderDispatchWorkgroups(..., dim/16, dim/16, 1)`. -/
def globalIds (dim : ℕ) : List (ℕ × ℕ × ℕ) :=
  List.range (dim / 16 * workgroup) ×ˢ List.range (dim / 16 * workgroup) ×ˢ List.range (1 * 1)

/-- `global_id.x + batch * 16`. -/
def row (id : ℕ × ℕ × ℕ) : ℕ := (id.1 + id.2.2 * 16) % 2 ^ 32

/-- `global_id.y + batch * 16`. -/
def col (id : ℕ × ℕ × ℕ) : ℕ := (id.2.1 + id.2.2 * 16) % 2 ^ 32

/-- `row * dimension + col`. -/
def result (dim : ℕ) (id : ℕ × ℕ × ℕ) : ℕ := (row id * dim + col id) % 2 ^ 32

/-- `sum = sum + v`. -/
def addToSum (v : UInt32) : Op UInt32 UInt32 := fun sum m => (sum + v, m)

/-- `results[x] = sum`. -/
def store (x : ℕ) : Op UInt32 UInt32 := fun sum m => (sum, Function.update m x sum)

section Code

variable (input_a input_b : Mem UInt32) (dim : ℕ)

/-- The loop of `main`, as far as `n`. -/
def products (id : ℕ × ℕ × ℕ) (n : ℕ) : List (Op UInt32 UInt32) :=
  (List.range n).map fun i =>
    addToSum (input_a (subscript dim (row id) i) * input_b (subscript dim i (col id)))

/-- `main`, for one invocation. -/
def main (id : ℕ × ℕ × ℕ) : Thread UInt32 UInt32 :=
  ⟨0, products input_a input_b dim id dim ++ [store (result dim id)]⟩

/-- The compute pass of `multiplyMatricesGPU`, before any invocation has begun. -/
def multiplyMatricesGPU (res : Mem UInt32) : Pool UInt32 UInt32 :=
  Pool.launch (globalIds dim) (main input_a input_b dim) res

end Code

/-- The rows and columns that the workgroups cover. -/
def covered (dim : ℕ) : ℕ := dim / 16 * workgroup

/-! ## One invocation -/

section Invocation

variable {a b : Mem UInt32} {dim : ℕ} {id id' : ℕ × ℕ × ℕ}

theorem exec_products (n : ℕ) (sum : UInt32) (m : Mem UInt32) :
    exec (products a b dim id n) sum m = (sum +
      ∑ k ∈ Finset.range n, a (subscript dim (row id) k) * b (subscript dim k (col id)), m) := by
  induction n with
  | zero => simp [products]
  | succ n ih =>
    rw [products] at ih
    rw [products, List.range_succ, List.map_append, exec_append, ih, Finset.sum_range_succ,
      ← add_assoc]
    rfl

/-- The invocation stores its sum, and nothing else. -/
theorem exec_main (m : Mem UInt32) :
    ((main a b dim id).exec m).2 = Function.update m (result dim id)
      (∑ k ∈ Finset.range dim, a (subscript dim (row id) k) * b (subscript dim k (col id))) := by
  rw [Thread.exec, main, exec_append, exec_products, zero_add]
  rfl

theorem main_within : ∀ op ∈ (main a b dim id).code, Op.Within {result dim id} op := by
  intro op hop
  rcases List.mem_append.mp hop with hop | hop
  · obtain ⟨k, -, rfl⟩ := List.mem_map.mp hop
    exact ⟨fun _ _ _ h => ⟨rfl, h⟩, fun _ _ _ _ => rfl⟩
  · rw [List.mem_singleton.mp hop]
    refine ⟨fun sum m m' _ => ⟨rfl, ?_⟩, fun sum m x hx => Function.update_of_ne hx _ _⟩
    rintro x rfl
    simp [store]

theorem mem_globalIds : id ∈ globalIds dim ↔
    id.1 < covered dim ∧ id.2.1 < covered dim ∧ id.2.2 = 0 := by
  rw [globalIds, List.mem_product, List.mem_product, List.mem_range, List.mem_range,
    List.mem_range, Nat.mul_one, Nat.lt_one_iff]
  rfl

theorem nodup_globalIds (dim : ℕ) : (globalIds dim).Nodup :=
  List.nodup_range.product (List.nodup_range.product List.nodup_range)

theorem covered_le (dim : ℕ) : covered dim ≤ dim := Nat.div_mul_le_self dim 16

theorem row_eq (hdim : dim < 2 ^ 32) (hid : id ∈ globalIds dim) : row id = id.1 := by
  obtain ⟨hx, -, hz⟩ := mem_globalIds.mp hid
  have hcovered := covered_le dim
  rw [row, hz, Nat.zero_mul, Nat.add_zero, Nat.mod_eq_of_lt (by omega)]

theorem col_eq (hdim : dim < 2 ^ 32) (hid : id ∈ globalIds dim) : col id = id.2.1 := by
  obtain ⟨-, hy, hz⟩ := mem_globalIds.mp hid
  have hcovered := covered_le dim
  rw [col, hz, Nat.zero_mul, Nat.add_zero, Nat.mod_eq_of_lt (by omega)]

theorem result_eq (hdim : dim < 2 ^ 32) (hid : id ∈ globalIds dim) :
    result dim id = subscript dim id.1 id.2.1 := by
  rw [result, subscript, row_eq hdim hid, col_eq hdim hid, Nat.add_comm, Nat.mul_comm]

theorem result_injective (hdim : dim < 2 ^ 15) (hid : id ∈ globalIds dim)
    (hid' : id' ∈ globalIds dim) (h : result dim id = result dim id') : id = id' := by
  rw [result_eq (by omega) hid, result_eq (by omega) hid'] at h
  obtain ⟨hx, hy, hz⟩ := mem_globalIds.mp hid
  obtain ⟨hx', hy', hz'⟩ := mem_globalIds.mp hid'
  have hcovered := covered_le dim
  obtain ⟨hrow, hcol⟩ := MatmulCpu.subscript_injective (by omega) (hx.trans_le hcovered)
    (hy.trans_le hcovered) (hx'.trans_le hcovered) (hy'.trans_le hcovered) h
  exact Prod.ext hrow (Prod.ext hcol (hz.trans hz'.symm))

end Invocation

/-! ## The compute pass -/

section Pass

open MatmulCpu

variable {a b res : Mem UInt32} {dim : ℕ} {p : Pool UInt32 UInt32}

theorem launch_disjoint (hdim : dim < 2 ^ 15) : ∀ id ∈ globalIds dim, ∀ id' ∈ globalIds dim,
    id ≠ id' → Disjoint ({result dim id} : Set ℕ) {result dim id'} := by
  intro id hid id' hid' hne
  rw [Set.disjoint_singleton]
  exact fun h => hne (result_injective hdim hid hid' h)

/-- What is in `results` when the invocations have finished. -/
theorem finished_results (hdim : dim < 2 ^ 15)
    (hreach : Reachable Pool.step (multiplyMatricesGPU a b dim res) p) (hfinished : p.Finished)
    (i j : Fin dim) : matrix p.mem dim i j =
      if i < covered dim ∧ j < covered dim then (matrix a dim * matrix b dim) i j
      else matrix res dim i j := by
  obtain ⟨hregions, hframe⟩ := Pool.launch_finished (nodup_globalIds dim)
    (fun _ _ => main_within) (launch_disjoint hdim) hreach hfinished
  have hat : matrix p.mem dim i j = p.mem (subscript dim i j) := by
    rw [subscript_eq (by omega) i.isLt j.isLt]
    rfl
  rw [hat]
  split
  · rename_i hcovered
    have hid : ((i : ℕ), (j : ℕ), 0) ∈ globalIds dim :=
      mem_globalIds.mpr ⟨hcovered.1, hcovered.2, rfl⟩
    have hval := hregions _ hid _ rfl
    rw [exec_main, Function.update_self, row_eq (by omega) hid, col_eq (by omega) hid,
      result_eq (by omega) hid, sum_subscript (by omega)] at hval
    exact hval
  · rename_i huncovered
    rw [hframe (subscript dim i j) ?_, subscript_eq (by omega) i.isLt j.isLt]
    · rfl
    · intro id hid hmem
      obtain ⟨hx, hy, -⟩ := mem_globalIds.mp hid
      have hcovered := covered_le dim
      rw [Set.mem_singleton_iff, result_eq (by omega) hid] at hmem
      obtain ⟨hrow, hcol⟩ := subscript_injective (by omega) i.isLt j.isLt (hx.trans_le hcovered)
        (hy.trans_le hcovered) hmem
      exact huncovered ⟨hrow ▸ hx, hcol ▸ hy⟩

theorem covered_eq (hdvd : 16 ∣ dim) : covered dim = dim := Nat.div_mul_cancel hdvd

theorem finished_product (hdim : dim < 2 ^ 15) (hdvd : 16 ∣ dim)
    (hreach : Reachable Pool.step (multiplyMatricesGPU a b dim res) p) (hfinished : p.Finished) :
    matrix p.mem dim = matrix a dim * matrix b dim := by
  refine Matrix.ext fun i j => ?_
  rw [finished_results hdim hreach hfinished, covered_eq hdvd, if_pos ⟨i.isLt, j.isLt⟩]

/-- In whatever order the invocations take their steps, the pass ends; the elements that the
workgroups cover are then those of the product, and the others are those of `res`. -/
theorem multiplyMatricesGPU_results (hdim : dim < 2 ^ 15) :
    Ends Pool.step (fun _ => True) (multiplyMatricesGPU a b dim res) ∧
      ∀ p, Reachable Pool.step (multiplyMatricesGPU a b dim res) p → p.Finished →
        ∀ i j, matrix p.mem dim i j =
          if i < covered dim ∧ j < covered dim then (matrix a dim * matrix b dim) i j
          else matrix res dim i j :=
  ⟨Pool.ends _, fun _ hreach hfinished => finished_results hdim hreach hfinished⟩

/-- A last column that no workgroup covers. -/
theorem multiplyMatricesGPU_results_uncovered :
    ∃ p, Reachable Pool.step (multiplyMatricesGPU (fun _ => 2) (fun _ => 3) 33 fun _ => 7) p ∧
      p.Finished ∧ matrix p.mem 33 31 31 = 198 ∧ matrix p.mem 33 31 32 = 7 := by
  obtain ⟨p, hreach, hfinished⟩ :=
    Pool.exists_finished (multiplyMatricesGPU (fun _ => 2) (fun _ => 3) 33 fun _ => 7)
  have hdim : 33 < 2 ^ 15 := by decide
  have hresults := (multiplyMatricesGPU_results hdim).2 p hreach hfinished
  refine ⟨p, hreach, hfinished, ?_, ?_⟩
  · rw [hresults, if_pos (by decide), Matrix.mul_apply]
    simp only [matrix, Finset.sum_const, Finset.card_univ, Fintype.card_fin]
    decide
  · rw [hresults, if_neg (by decide)]
    rfl

/-- The pass computes the product, for all contents and orders, where 16 divides the
dimension, and only there. -/
theorem multiplyMatricesGPU_eq_mul_iff (hdim : dim < 2 ^ 15) :
    (∀ a b res p, Reachable Pool.step (multiplyMatricesGPU a b dim res) p → p.Finished →
      matrix p.mem dim = matrix a dim * matrix b dim) ↔ 16 ∣ dim := by
  refine ⟨fun h => ?_, fun hdvd a b res p => finished_product hdim hdvd⟩
  by_contra hdvd
  obtain ⟨p, hreach, hfinished⟩ :=
    Pool.exists_finished (multiplyMatricesGPU (fun _ => 0) (fun _ => 0) dim fun _ => 1)
  have hproduct := h (fun _ => 0) (fun _ => 0) (fun _ => 1) p hreach hfinished
  -- the last element is not covered
  have hlast : dim - 1 < dim := by omega
  have huncovered : ¬ dim - 1 < covered dim := by
    rw [covered, workgroup]
    omega
  have hentry := congrFun (congrFun hproduct ⟨dim - 1, hlast⟩) ⟨dim - 1, hlast⟩
  rw [finished_results hdim hreach hfinished, if_neg (fun hc => huncovered hc.1),
    Matrix.mul_apply] at hentry
  simp [matrix] at hentry

theorem multiplyMatricesGPU_eq_mul_1024_1000 :
    (∀ a b res p, Reachable Pool.step (multiplyMatricesGPU a b 1024 res) p → p.Finished →
      matrix p.mem 1024 = matrix a 1024 * matrix b 1024) ∧
    ¬ ∀ a b res p, Reachable Pool.step (multiplyMatricesGPU a b 1000 res) p → p.Finished →
      matrix p.mem 1000 = matrix a 1000 * matrix b 1000 :=
  ⟨(multiplyMatricesGPU_eq_mul_iff (by decide)).mpr (by decide),
    fun h => absurd ((multiplyMatricesGPU_eq_mul_iff (by decide)).mp h) (by decide)⟩

/-- The threads and the shader leave the same matrix, in whatever orders they run. -/
theorem multiplyMatricesGPU_eq_multiplyMatrices (hdim : dim < 2 ^ 15) (hdvd : batchsz ∣ dim)
    {res' : Mem UInt32} {q : Pool UInt32 UInt32}
    (hreach : Reachable Pool.step (multiplyMatricesGPU a b dim res) p) (hfinished : p.Finished)
    (hreach' : Reachable Pool.step (multiplyMatrices a b dim res') q) (hfinished' : q.Finished) :
    matrix p.mem dim = matrix q.mem dim := by
  have hgpu := finished_product hdim ((by decide : 16 ∣ batchsz).trans hdvd) hreach hfinished
  have hcpu := (finished_matrix (by omega) hdvd hreach' hfinished').1
  exact hgpu.trans hcpu.symm

theorem multiplyMatricesGPU_eq_multiplyMatrices_128 :
    ∃ p q, Reachable Pool.step (multiplyMatricesGPU UInt32.ofNat (fun _ => 5) 128 fun _ => 1) p ∧
      Reachable Pool.step (multiplyMatrices UInt32.ofNat (fun _ => 5) 128 fun _ => 8) q ∧
      p.Finished ∧ q.Finished ∧ matrix p.mem 128 = matrix q.mem 128 := by
  obtain ⟨p, hp, hfinished⟩ :=
    Pool.exists_finished (multiplyMatricesGPU UInt32.ofNat (fun _ => 5) 128 fun _ => 1)
  obtain ⟨q, hq, hfinished'⟩ :=
    Pool.exists_finished (multiplyMatrices UInt32.ofNat (fun _ => 5) 128 fun _ => 8)
  exact ⟨p, q, hp, hq, hfinished, hfinished', multiplyMatricesGPU_eq_multiplyMatrices (by decide)
    (by decide) hp hfinished hq hfinished'⟩

end Pass

/-! ## The sizes of the buffers -/

section Buffers

variable {dim : ℕ}

/-- The subscripts that an invocation uses are those of elements of the buffers. -/
def InBuffers (dim : ℕ) (id : ℕ × ℕ × ℕ) : Prop :=
  result dim id < msize dim / 4 ∧ ∀ i < dim,
    subscript dim (row id) i < msize dim / 4 ∧ subscript dim i (col id) < msize dim / 4

theorem msize_eq (hdim : dim < 2 ^ 15) : msize dim / 4 = dim * dim := by
  have hsquare : dim * dim < 2 ^ 15 * 2 ^ 15 := Nat.mul_self_lt_mul_self hdim
  rw [msize, mlen]
  omega

theorem inBuffers (hdim : dim < 2 ^ 15) {id : ℕ × ℕ × ℕ} (hid : id ∈ globalIds dim) :
    InBuffers dim id := by
  obtain ⟨hx, hy, -⟩ := mem_globalIds.mp hid
  have hcovered := covered_le dim
  rw [InBuffers, msize_eq hdim, result_eq (by omega) hid, row_eq (by omega) hid,
    col_eq (by omega) hid]
  have hlt {i j : ℕ} (hi : i < dim) (hj : j < dim) : subscript dim i j < dim * dim :=
    MatmulCpu.subscript_lt (by omega) hi hj
  refine ⟨hlt (by omega) (by omega), fun i hi => ⟨hlt (by omega) hi, hlt hi (by omega)⟩⟩

/-- From `2 ^ 15` on `msize` has wrapped, and the first invocation already reads a row of the
second matrix that is not in its buffer. -/
theorem not_inBuffers (hdim : dim < 2 ^ 32) (hlarge : 2 ^ 15 ≤ dim) :
    (0, 0, 0) ∈ globalIds dim ∧ ¬ InBuffers dim (0, 0, 0) := by
  have hcovered : 0 < covered dim := by
    rw [covered, workgroup]
    omega
  have hid : (0, 0, 0) ∈ globalIds dim := mem_globalIds.mpr ⟨hcovered, hcovered, rfl⟩
  refine ⟨hid, fun ⟨hresult, hreads⟩ => ?_⟩
  have hsize : msize dim / 4 < 2 ^ 30 := by
    rw [msize]
    omega
  rcases hlarge.eq_or_lt with rfl | hlarge
  · exact absurd hresult (by decide)
  · -- the row at which the elements in front have become `2 ^ 30` or more
    have hpos : 0 < dim := by omega
    have hrow : 2 ^ 30 / dim + 1 < dim := by
      have hquot : 2 ^ 30 / dim < 2 ^ 15 := by
        rw [Nat.div_lt_iff_lt_mul hpos]
        omega
      omega
    have hreads := (hreads _ hrow).2
    have hlow : 2 ^ 30 < dim * (2 ^ 30 / dim + 1) := Nat.lt_mul_div_succ _ hpos
    have hhigh : dim * (2 ^ 30 / dim + 1) < 2 ^ 32 := by
      rcases Nat.lt_or_ge (2 ^ 30) dim with hhuge | hsmall
      · rw [Nat.div_eq_of_lt hhuge]
        omega
      · have hle := Nat.mul_div_le (2 ^ 30) dim
        rw [Nat.mul_succ]
        omega
    rw [subscript, col_eq hdim hid, Nat.zero_add, Nat.mod_eq_of_lt hhigh] at hreads
    omega

/-- The invocations stay inside the buffers exactly where the dimension is below `2 ^ 15`. -/
theorem multiplyMatricesGPU_inBuffers_iff (hdim : dim < 2 ^ 32) :
    (∀ id ∈ globalIds dim, InBuffers dim id) ↔ dim < 2 ^ 15 := by
  refine ⟨fun h => ?_, fun hsmall id hid => inBuffers hsmall hid⟩
  by_contra hlarge
  obtain ⟨hid, hout⟩ := not_inBuffers hdim (not_lt.mp hlarge)
  exact hout (h _ hid)

theorem multiplyMatricesGPU_inBuffers_wrapped :
    ¬ ∀ id ∈ globalIds 40000, InBuffers 40000 id := by
  rw [multiplyMatricesGPU_inBuffers_iff (by decide)]
  decide

end Buffers

end MatmulGpu

end WebGpuDD
