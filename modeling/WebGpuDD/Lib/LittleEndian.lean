import Mathlib.Data.Nat.Digits.Lemmas

/-!
# Fixed-width little-endian numbers

The bytes of a number, least significant first, in a field of a given width;
decoding is `Nat.ofDigits` in base 256.
-/

namespace WebGpuDD.LittleEndian

/-- A byte. -/
abbrev Byte := Fin 256

instance neZeroByte : NeZero 256 := ⟨by decide⟩

/-- The low `k` bytes of `n`. -/
def encode : ℕ → ℕ → List Byte
  | 0, _ => []
  | k + 1, n => ⟨n % 256, Nat.mod_lt _ (by decide)⟩ :: encode k (n / 256)

/-- The number that a field of bytes holds. -/
def decode (bs : List Byte) : ℕ := Nat.ofDigits 256 (bs.map Fin.val)

@[simp] theorem encode_length (k n : ℕ) : (encode k n).length = k := by
  induction k generalizing n with
  | zero => rfl
  | succ k ih => simp [encode, ih]

theorem decode_lt (bs : List Byte) : decode bs < 256 ^ bs.length := by
  have h := Nat.ofDigits_lt_base_pow_length (b := 256) (l := bs.map Fin.val) (by decide) (by
    intro d hd
    obtain ⟨b, _, rfl⟩ := List.mem_map.mp hd
    exact b.isLt)
  simpa [decode] using h

theorem decode_encode {k n : ℕ} (h : n < 256 ^ k) : decode (encode k n) = n := by
  induction k generalizing n with
  | zero =>
    have hn : n = 0 := by simpa using h
    simp [encode, decode, hn]
  | succ k ih =>
    have hq : n / 256 < 256 ^ k := by
      rw [Nat.div_lt_iff_lt_mul (by decide), ← Nat.pow_succ]
      exact h
    have hd := ih hq
    simp only [decode] at hd
    simp only [encode, decode, List.map_cons, Nat.ofDigits_cons, hd]
    exact Nat.mod_add_div n 256

/-- A field holds one number only. -/
theorem encode_decode (bs : List Byte) : encode bs.length (decode bs) = bs := by
  induction bs with
  | nil => rfl
  | cons b bs ih =>
    have hdecode : decode (b :: bs) = b.val + 256 * decode bs := by
      simp only [decode, List.map_cons, Nat.ofDigits_cons]
    have hlow : (b.val + 256 * decode bs) % 256 = b.val := by
      rw [Nat.add_mul_mod_self_left, Nat.mod_eq_of_lt b.isLt]
    have hhigh : (b.val + 256 * decode bs) / 256 = decode bs := by
      rw [Nat.add_mul_div_left _ _ (by decide), Nat.div_eq_of_lt b.isLt, Nat.zero_add]
    simp only [List.length_cons, encode, hdecode, hlow, hhigh, ih]

end WebGpuDD.LittleEndian
