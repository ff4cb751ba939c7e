import Mathlib.Algebra.Order.Ring.Nat
import Mathlib.Data.Nat.Bitwise

/-! Rounding a word up to a power of two with a mask, as C code writes it. -/
namespace Alignment

/-- `(x + (2^k - 1)) & ~(2^k - 1)` on `w`-bit words. -/
def roundUp (w k x : Nat) : Nat := ((x + (2 ^ k - 1)) % 2 ^ w) &&& (2 ^ w - 2 ^ k)

/-- Masking off the low `k` bits leaves the largest multiple of `2^k` below. -/
theorem land_mask {w k x : Nat} (le : k ≤ w) (fits : x < 2 ^ w) :
    x &&& (2 ^ w - 2 ^ k) = x / 2 ^ k * 2 ^ k := by
  have mask : 2 ^ w - 2 ^ k = 2 ^ w - ((2 ^ k - 1) + 1) := by
    have := Nat.two_pow_pos k; omega
  have small : 2 ^ k - 1 < 2 ^ w := by
    have := Nat.pow_le_pow_right (n := 2) (by decide) le
    have := Nat.two_pow_pos k
    omega
  apply Nat.eq_of_testBit_eq
  intro i
  rw [Nat.testBit_land, mask, Nat.testBit_two_pow_sub_succ small, Nat.testBit_two_pow_sub_one,
    Nat.testBit_mul_two_pow, Nat.testBit_div_two_pow]
  by_cases low : i < k
  · simp [low, Nat.not_le.mpr low]
  · have high : k ≤ i := Nat.le_of_not_lt low
    rw [Nat.sub_add_cancel high]
    by_cases top : i < w
    · simp [low, high, top]
    · have beyond : x < 2 ^ i :=
        fits.trans_le (Nat.pow_le_pow_right (by decide) (Nat.le_of_not_lt top))
      simp [Nat.testBit_lt_two_pow beyond]

variable {w k x : Nat}

theorem roundUp_eq (le : k ≤ w) (fits : x + (2 ^ k - 1) < 2 ^ w) :
    roundUp w k x = (x + (2 ^ k - 1)) / 2 ^ k * 2 ^ k := by
  rw [roundUp, Nat.mod_eq_of_lt fits, land_mask le fits]

end Alignment
