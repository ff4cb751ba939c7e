import Mathlib

/-! The values of machine words read with and without a sign. -/
namespace Words

theorem toInt_toInt64 (a : UInt64) :
    a.toInt64.toInt = if a.toNat < 2 ^ 63 then (a.toNat : Int) else a.toNat - 2 ^ 64 := by
  have value : a.toInt64.toInt = a.toBitVec.toInt := rfl
  have same : a.toBitVec.toNat = a.toNat := rfl
  rw [value, BitVec.toInt_eq_toNat_cond, same]
  split <;> split <;> omega

theorem toInt_toInt32 (a : UInt32) :
    a.toInt32.toInt = if a.toNat < 2 ^ 31 then (a.toNat : Int) else a.toNat - 2 ^ 32 := by
  have value : a.toInt32.toInt = a.toBitVec.toInt := rfl
  have same : a.toBitVec.toNat = a.toNat := rfl
  rw [value, BitVec.toInt_eq_toNat_cond, same]
  split <;> split <;> omega

theorem toNat_toUInt64 (a : Int64) :
    (a.toUInt64.toNat : Int) = if 0 ≤ a.toInt then a.toInt else a.toInt + 2 ^ 64 := by
  have value := toInt_toInt64 a.toUInt64
  rw [Int64.toInt64_toUInt64] at value
  have bound := a.toUInt64.toNat_lt
  split at value <;> split <;> omega

end Words
