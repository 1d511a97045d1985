import WebGpuDD.SendRegions

/-!
# The advertised limit of a `SendBuffer`

`GetMaximumAllocationSize` promises that every size up to it can be reserved and none
above it. The admission test adds two headers to the size on `size_t`, and for the
largest 24 sizes this sum wraps: they are admitted.
-/

namespace WebGpuDD

open LittleEndian Memory CommandTransport

namespace SendBuffer

/-- In this state the advertised maximum is the real one for `size`, whatever the socket
does: where the flushes inside `GetCmdSpace` succeed the size is granted if and only if
it is within the maximum, there is at most one such flush, the region and one more header
fit into the buffer, and a refusal for the size changes nothing. -/
structure LimitIsReal (b : SendBuffer) (size : ℕ) : Prop where
  granted : ∀ k t, (∀ r ∈ b.internalFlushes k size t, r = true) →
    ((b.getCmdSpace k size t).1.isSome ↔ size ≤ getMaximumAllocationSize)
  oneFlush : ∀ k t, (b.internalFlushes k size t).length ≤ 1
  region : ∀ k t p, (b.getCmdSpace k size t).1 = some p →
    p + size + 12 ≤ 2000000 ∧
      (b.getCmdSpace k size t).2.1.mOffset =
        (if b.internalFlushes k size t = [] then b.mOffset else 0) + (size + 12)
  refused : getMaximumAllocationSize < size → ∀ k t, b.getCmdSpace k size t = (none, b, t)

section

variable {b : SendBuffer} {size : ℕ}

theorem limitIsReal_of_tooLarge (hs : getMaximumAllocationSize < size)
    (hw : size + 2 * 12 < 2 ^ 64) : b.LimitIsReal size := by
  have hlarge := tooLarge_eq_true hs hw
  have hnone (k : Kernel) (t : CommandTransport) : b.getCmdSpace k size t = (none, b, t) :=
    getCmdSpace_of_tooLarge k b t hlarge
  constructor
  · intro k t _
    rw [hnone]
    simpa using hs
  · intro k t
    rw [internalFlushes_of_tooLarge k t hlarge]
    exact Nat.zero_le _
  · intro k t p hp
    rw [hnone] at hp
    cases hp
  · exact fun _ => hnone

theorem limitIsReal_of_not_full (hb : b.mOffset ≤ 2000000 - 12)
    (hs : size ≤ getMaximumAllocationSize) (hf : b.full size = false) : b.LimitIsReal size := by
  have hfit := (full_iff (b := b) hs).not.mp (by simp [hf])
  constructor
  · intro k t _
    rw [getCmdSpace_of_not_full k t hs hf hb]
    simpa using hs
  · intro k t
    rw [internalFlushes_of_not_full k t hf]
    exact Nat.zero_le _
  · intro k t p hp
    rw [getCmdSpace_of_not_full k t hs hf hb] at hp ⊢
    rw [internalFlushes_of_not_full k t hf, if_pos rfl, ← Option.some.inj hp]
    exact ⟨by omega, by rw [Nat.add_comm size 12]⟩
  · intro hgt
    omega

theorem limitIsReal_of_full (hs : size ≤ getMaximumAllocationSize) (hf : b.full size = true) :
    b.LimitIsReal size := by
  have hs' := hs
  rw [getMaximumAllocationSize] at hs'
  constructor
  · intro k t hflush
    rw [internalFlushes_of_full k t hs hf, List.forall_mem_singleton] at hflush
    rw [getCmdSpace_behind_flush k t hs hf, if_pos hflush]
    simpa using hs
  · intro k t
    rw [internalFlushes_of_full k t hs hf]
    exact Nat.le_refl 1
  · intro k t p hp
    rw [internalFlushes_of_full k t hs hf, if_neg (by simp)]
    rw [getCmdSpace_behind_flush k t hs hf] at hp ⊢
    by_cases hr : (b.flush k t).1 = true
    · rw [if_pos hr] at hp ⊢
      rw [← Option.some.inj hp]
      exact ⟨by omega, by rw [Nat.zero_add, Nat.add_comm size 12]⟩
    · rw [if_neg hr] at hp
      cases hp
  · intro hgt
    omega

/-- Where the sum does not wrap the limit is real. -/
theorem limitIsReal_of_noWrap (hb : b.mOffset ≤ 2000000 - 12) (hw : size + 2 * 12 < 2 ^ 64) :
    b.LimitIsReal size := by
  rcases le_or_gt size getMaximumAllocationSize with hs | hs
  · cases hf : b.full size with
    | false => exact limitIsReal_of_not_full hb hs hf
    | true => exact limitIsReal_of_full hs hf
  · exact limitIsReal_of_tooLarge hs hw

/-- `Send` on a closed transport reports success, and so does the flush. -/
theorem flush_of_closed (k : Kernel) (b : SendBuffer) {t : CommandTransport} (h : ¬ t.Open) :
    (b.flush k t).1 = true := by
  have hsend (buf : List Byte) : t.send k buf = (0, t) := if_pos (Int.not_le.mp h)
  unfold flush
  split
  · rfl
  · simp [hsend]

/-- A size whose sum wraps is admitted. -/
theorem tooLarge_of_wrap (h64 : size < 2 ^ 64) (hw : 2 ^ 64 ≤ size + 2 * 12) :
    tooLarge size = false := by
  rw [tooLarge, decide_eq_false_iff_not, sizeAdd]
  omega

/-- It is reserved as soon as the buffer is empty, since nothing is full at offset 0. -/
theorem getCmdSpace_of_wrap (k : Kernel) (b : SendBuffer) {t : CommandTransport}
    (h : ¬ t.Open) (h64 : size < 2 ^ 64) (hw : 2 ^ 64 ≤ size + 2 * 12) :
    (b.getCmdSpace k size t).1.isSome := by
  rw [getCmdSpace, tooLarge_of_wrap h64 hw, if_neg (by simp)]
  split
  · have hflush := flush_of_closed k b h
    have h0 := flush_mOffset k b t
    split
    · rename_i heq
      rw [heq] at hflush
      cases hflush
    · rename_i b' t' heq
      rw [heq] at h0
      have hf : b'.full size = false := by
        rw [full, decide_eq_false_iff_not, show b'.mOffset = 0 from h0]
        exact Nat.not_lt_zero _
      rw [getCmdSpace, tooLarge_of_wrap h64 hw, if_neg (by simp), hf, if_neg (by simp)]
      rfl
  · rfl

theorem not_limitIsReal_of_wrap (h64 : size < 2 ^ 64) (hw : 2 ^ 64 ≤ size + 2 * 12) :
    ¬ b.LimitIsReal size := by
  intro h
  have hclosed : ¬ (ofFd (-1)).Open := by decide
  have hsome := getCmdSpace_of_wrap (fun _ n => .accepted n) b hclosed h64 hw
  rw [h.refused (by rw [getMaximumAllocationSize]; omega)] at hsome
  cases hsome

end

end SendBuffer

namespace SendRegions

/-- The limit is real where the operation is a reservation. -/
def LimitIsReal (s : SendRegions) : RegionOp → Prop
  | .getCmdSpace size => s.buf.LimitIsReal size
  | _ => True

theorem Inv.limitIsReal_iff {s : SendRegions} (h : s.Inv) {op : RegionOp}
    (h64 : ∀ size, op = .getCmdSpace size → size < 2 ^ 64) : s.LimitIsReal op ↔ op.NoWrap := by
  cases op with
  | getCmdSpace size =>
    constructor
    · intro hreal
      by_contra hw
      exact SendBuffer.not_limitIsReal_of_wrap (h64 size rfl) (Nat.not_lt.mp hw) hreal
    · exact SendBuffer.limitIsReal_of_noWrap h.holds.room
  | write i place xs => exact Iff.rfl
  | flush => exact Iff.rfl

/-- Along any operations with 64-bit sizes, whatever the socket does: the limit is real
in every state that a reservation is made in if and only if no size wraps in the sum. -/
theorem limitIsReal_iff_noWrap (k : Kernel) {s₀ : SendRegions} (h₀ : s₀.Fresh)
    (ops : List RegionOp) (h64 : ∀ size, .getCmdSpace size ∈ ops → size < 2 ^ 64)
    (hrun : (Runs.run (step k) s₀ ops).isSome) :
    Runs.StepsMeet (step k) LimitIsReal s₀ ops ↔
      ∀ size, .getCmdSpace size ∈ ops → size + 2 * 12 < 2 ^ 64 := by
  have hcongr : Runs.StepsMeet (step k) LimitIsReal s₀ ops ↔
      Runs.StepsMeet (step k) (fun _ op => op.NoWrap) s₀ ops := by
    apply Runs.stepsMeet_congr (I := Inv)
    · intro s op hop h
      apply h.limitIsReal_iff
      intro size he
      exact h64 size (he ▸ hop)
    · intro s op s' h hw hs
      exact h.step hw hs
    · exact h₀.inv
  rw [hcongr, Runs.stepsMeet_iff_forall hrun]
  constructor
  · intro h size hmem
    exact h (.getCmdSpace size) hmem
  · intro h op hop
    cases op with
    | getCmdSpace size => exact h size hop
    | write i place xs => trivial
    | flush => trivial

theorem limitIsReal_iff_noWrap_twoCommands :
    Runs.StepsMeet (step fun _ size => .accepted size) LimitIsReal (new 3) twoCommands ↔
      ∀ size, .getCmdSpace size ∈ twoCommands → size + 2 * 12 < 2 ^ 64 := by
  apply limitIsReal_iff_noWrap _ (new_fresh 3) twoCommands
  · intro size hmem
    simp only [twoCommands, List.mem_cons, List.not_mem_nil, RegionOp.getCmdSpace.injEq,
      reduceCtorEq, or_false] at hmem
    omega
  · decide +kernel

/-- 24 bytes below the end of the 64-bit range the sum is 0. -/
theorem not_limitIsReal_wrap :
    ¬ Runs.StepsMeet (step fun _ size => .accepted size) LimitIsReal (new 3)
      [.getCmdSpace (2 ^ 64 - 24)] := by
  intro h
  have hreal := h [] (.getCmdSpace (2 ^ 64 - 24)) [] rfl (new 3) rfl
  exact SendBuffer.not_limitIsReal_of_wrap (by norm_num) (by norm_num) hreal

end SendRegions

end WebGpuDD
