import Mathlib

/-!
# Masks of naturals

The masks of C code on fixed-width words, as arithmetic: `&&& (2 ^ w - 2 ^ k)`
clears the low `k` bits and `||| (2 ^ w - 2 ^ k)` sets the high ones.
-/

namespace RaspiKernel.Lib

theorem and_high_mask {x k w : ℕ} (hx : x < 2 ^ w) (hk : k ≤ w) :
    x &&& (2 ^ w - 2 ^ k) = x / 2 ^ k * 2 ^ k := by
  have hmask : 2 ^ w - 2 ^ k = (2 ^ (w - k) - 1) * 2 ^ k := by
    rw [Nat.sub_mul, one_mul, ← pow_add, Nat.sub_add_cancel hk]
  rw [hmask]
  apply Nat.eq_of_testBit_eq
  intro i
  rw [Nat.testBit_and, Nat.testBit_mul_two_pow, Nat.testBit_mul_two_pow,
    Nat.testBit_two_pow_sub_one, Nat.testBit_div_two_pow]
  rcases lt_or_ge i k with hi | hi
  · simp [Nat.not_le.mpr hi]
  · rw [Nat.sub_add_cancel hi]
    rcases lt_or_ge i w with hw | hw
    · have : i - k < w - k := by omega
      simp [hi, this]
    · rw [Nat.testBit_lt_two_pow (lt_of_lt_of_le hx (Nat.pow_le_pow_right (by norm_num) hw))]
      simp

/-- The mask of the bits from `k` to `w` of any number. -/
theorem and_mid_mask (x : ℕ) {k w : ℕ} (hk : k ≤ w) :
    x &&& (2 ^ w - 2 ^ k) = x % 2 ^ w / 2 ^ k * 2 ^ k := by
  have hlt : 2 ^ w - 2 ^ k < 2 ^ w := Nat.sub_lt (Nat.two_pow_pos w) (Nat.two_pow_pos k)
  have hmod : x &&& (2 ^ w - 2 ^ k) = x % 2 ^ w &&& (2 ^ w - 2 ^ k) := by
    rw [← Nat.mod_eq_of_lt (Nat.and_lt_two_pow x hlt), Nat.and_mod_two_pow, Nat.mod_eq_of_lt hlt]
  rw [hmod, and_high_mask (Nat.mod_lt _ (Nat.two_pow_pos w)) hk]

/-- Setting all the bits from `k` to `w` of a number below `2 ^ k`. -/
theorem or_high_mask {x k w : ℕ} (hx : x < 2 ^ k) (hk : k ≤ w) :
    x ||| (2 ^ w - 2 ^ k) = (2 ^ w - 2 ^ k) + x := by
  have hmask : 2 ^ w - 2 ^ k = 2 ^ k * (2 ^ (w - k) - 1) := by
    rw [Nat.mul_sub, mul_one, ← pow_add, Nat.add_sub_cancel' hk]
  rw [hmask, Nat.or_comm, Nat.two_pow_add_eq_or_of_lt hx]

end RaspiKernel.Lib
