import Mathlib.Data.Nat.Bitwise
import Mathlib.Tactic.Ring

/-! Numbers as big-endian byte lists of a fixed length. -/
namespace BigEndian

def bytes : (k n : Nat) → List UInt8
  | 0, _ => []
  | k + 1, n => (n >>> (k * 8)).toUInt8 :: bytes k n

def value (bs : List UInt8) : Nat := bs.foldl (fun v b => v * 256 + b.toNat) 0

theorem bytes_length (k n : Nat) : (bytes k n).length = k := by
  induction k with
  | zero => rfl
  | succ k ih => rw [bytes, List.length_cons, ih]

/-- Reading on from `v` shifts it past the rest. -/
theorem foldl_eq (bs : List UInt8) (v : Nat) :
    bs.foldl (fun v b => v * 256 + b.toNat) v = v * 256 ^ bs.length + value bs := by
  induction bs generalizing v with
  | nil => simp [value]
  | cons b bs ih =>
    rw [value, List.foldl_cons, List.foldl_cons, ih, ih, List.length_cons]
    ring

theorem value_cons (b : UInt8) (bs : List UInt8) :
    value (b :: bs) = b.toNat * 256 ^ bs.length + value bs := by
  rw [value, List.foldl_cons, foldl_eq]
  ring

theorem byte_eq (k n : Nat) : (n >>> (k * 8)).toUInt8.toNat = n / 256 ^ k % 256 := by
  have power : 2 ^ (k * 8) = 256 ^ k := by rw [Nat.mul_comm, Nat.pow_mul]
  rw [Nat.toUInt8_eq, UInt8.toNat_ofNat', Nat.shiftRight_eq_div_pow, power]

theorem value_bytes (k n : Nat) : value (bytes k n) = n % 256 ^ k := by
  induction k with
  | zero => simp [bytes, value, Nat.mod_one]
  | succ k ih =>
    rw [bytes, value_cons, ih, bytes_length, byte_eq, Nat.pow_succ, Nat.mod_mul]
    ring

theorem value_bytes_of_lt {k n : Nat} (fits : n < 256 ^ k) : value (bytes k n) = n := by
  rw [value_bytes, Nat.mod_eq_of_lt fits]

theorem value_lt (bs : List UInt8) : value bs < 256 ^ bs.length := by
  induction bs with
  | nil => simp [value]
  | cons b bs ih =>
    have room : (b.toNat + 1) * 256 ^ bs.length ≤ 256 * 256 ^ bs.length :=
      Nat.mul_le_mul_right _ b.toNat_lt
    rw [value_cons, List.length_cons, Nat.pow_succ']
    rw [Nat.add_mul] at room
    omega

/-- Higher bytes do not show. -/
theorem bytes_add (m : Nat) {k j n : Nat} (le : k ≤ j) :
    bytes k (m * 256 ^ j + n) = bytes k n := by
  induction k with
  | zero => rfl
  | succ k ih =>
    obtain ⟨i, rfl⟩ := Nat.exists_eq_add_of_le le
    have shift : m * 256 ^ (k + 1 + i) + n = n + 256 ^ k * (256 * (m * 256 ^ i)) := by ring
    have byte : ((m * 256 ^ (k + 1 + i) + n) >>> (k * 8)).toUInt8 = (n >>> (k * 8)).toUInt8 := by
      rw [← UInt8.toNat_inj, byte_eq, byte_eq, shift, Nat.add_mul_div_left _ _ (Nat.pow_pos (by decide)),
        Nat.add_mul_mod_self_left]
    rw [bytes, bytes, byte, ih (Nat.le_of_succ_le le)]

theorem bytes_value (bs : List UInt8) : bytes bs.length (value bs) = bs := by
  induction bs with
  | nil => rfl
  | cons b bs ih =>
    have byte : (value (b :: bs) >>> (bs.length * 8)).toUInt8 = b := by
      rw [← UInt8.toNat_inj, byte_eq, value_cons, Nat.mul_comm,
        Nat.mul_add_div (Nat.pow_pos (by decide)), Nat.div_eq_of_lt (value_lt bs), Nat.add_zero]
      exact Nat.mod_eq_of_lt b.toNat_lt
    rw [List.length_cons, bytes, byte, value_cons, bytes_add b.toNat (Nat.le_refl _), ih]

end BigEndian
