import Ngx.BigEndian
import Mathlib.Algebra.Order.Ring.Nat
import Mathlib.Data.List.Basic

/-! Base64 with padding: each three bytes are four digits of the number that they spell. -/
namespace Base64

def alphabet : List UInt8 :=
  "ABCDEFGHIJKLMNOPQRSTUVWXYZabcdefghijklmnopqrstuvwxyz0123456789+/".toList.map
    fun c => c.toNat.toUInt8

def padding : UInt8 := 61

def digit (n : Nat) : UInt8 := alphabet[n % 64]?.getD padding

def digits : (k n : Nat) → List UInt8
  | 0, _ => []
  | k + 1, n => digit (n / 64 ^ k) :: digits k n

/-- A group that is not complete is filled up with zero bits. -/
def encode : List UInt8 → List UInt8
  | [] => []
  | [a] => digits 2 (a.toNat * 2 ^ 4) ++ [padding, padding]
  | [a, b] => digits 3 ((a.toNat * 2 ^ 8 + b.toNat) * 2 ^ 2) ++ [padding]
  | a :: b :: c :: rest => digits 4 ((a.toNat * 2 ^ 8 + b.toNat) * 2 ^ 8 + c.toNat) ++ encode rest

def encodedLength (n : Nat) : Nat := (n + 2) / 3 * 4

theorem digits_length (k n : Nat) : (digits k n).length = k := by
  induction k with
  | zero => rfl
  | succ k ih => simp [digits, ih]

theorem encode_length (bs : List UInt8) : (encode bs).length = encodedLength bs.length := by
  induction bs using encode.induct with
  | case1 => rfl
  | case2 a => simp [encode, digits_length, encodedLength]
  | case3 a b => simp [encode, digits_length, encodedLength]
  | case4 a b c rest ih =>
    simp only [encode, List.length_append, digits_length, ih, encodedLength, List.length_cons]
    omega

theorem digit_ne_zero (n : Nat) : digit n ≠ 0 := by
  have all : ∀ i < 64, alphabet[i]?.getD padding ≠ 0 := by decide +kernel
  exact all (n % 64) (Nat.mod_lt n (by decide))

theorem digits_ne_zero {k n : Nat} : ∀ d ∈ digits k n, d ≠ 0 := by
  induction k with
  | zero => nofun
  | succ k ih => exact List.forall_mem_cons.mpr ⟨digit_ne_zero _, ih⟩

/-- No zero byte ends the text early. -/
theorem encode_ne_zero (bs : List UInt8) : ∀ d ∈ encode bs, d ≠ 0 := by
  have pad : padding ≠ 0 := by decide
  induction bs using encode.induct with
  | case1 => nofun
  | case2 a => exact List.forall_mem_append.mpr ⟨digits_ne_zero, by simp [pad]⟩
  | case3 a b => exact List.forall_mem_append.mpr ⟨digits_ne_zero, by simp [pad]⟩
  | case4 a b c rest ih => exact List.forall_mem_append.mpr ⟨digits_ne_zero, ih⟩

/-- The number that a row of digits spells behind `n`; other characters are refused. -/
def number (n : Nat) : List UInt8 → Option Nat
  | [] => some n
  | ch :: ds => if ch ∈ alphabet then number (n * 64 + alphabet.idxOf ch) ds else none

def unpack (k spare n : Nat) : Option (List UInt8) :=
  if n % 2 ^ spare = 0 then some (BigEndian.bytes k (n / 2 ^ spare)) else none

/-- The decoding of a text in groups of four characters. Only the last group may be padded, and
bits that belong to no byte must be zero. -/
def decode : List UInt8 → Option (List UInt8)
  | [] => some []
  | w :: x :: y :: z :: rest =>
    if rest = [] ∧ z = padding then
      if y = padding then (number 0 [w, x]).bind (unpack 1 4)
      else (number 0 [w, x, y]).bind (unpack 2 2)
    else
      (number 0 [w, x, y, z]).bind fun n => (decode rest).map (BigEndian.bytes 3 n ++ ·)
  | _ => none

theorem digit_mem (n : Nat) : digit n ∈ alphabet := by
  have all : ∀ i < 64, alphabet[i]?.getD padding ∈ alphabet := by decide +kernel
  exact all (n % 64) (Nat.mod_lt n (by decide))

theorem idxOf_digit (n : Nat) : alphabet.idxOf (digit n) = n % 64 := by
  have all : ∀ i < 64, alphabet.idxOf (alphabet[i]?.getD padding) = i := by decide +kernel
  exact all (n % 64) (Nat.mod_lt n (by decide))

theorem digit_ne_padding (n : Nat) : digit n ≠ padding := by
  have absent : padding ∉ alphabet := by decide
  exact fun same => absent (same ▸ digit_mem n)

theorem digits_mem {k n : Nat} : ∀ d ∈ digits k n, d ∈ alphabet := by
  induction k with
  | zero => nofun
  | succ k ih => exact List.forall_mem_cons.mpr ⟨digit_mem _, ih⟩

/-- Digits that are read spell the number whose digits they are. -/
theorem number_digits (m k n : Nat) : number m (digits k n) = some (m * 64 ^ k + n % 64 ^ k) := by
  induction k generalizing m with
  | zero => simp [digits, number, Nat.mod_one]
  | succ k ih =>
    rw [digits, number, if_pos (digit_mem _), idxOf_digit, ih, Nat.pow_succ, Nat.mod_mul]
    congr 1
    ring

theorem number_digits_of_lt {k n : Nat} (fits : n < 64 ^ k) : number 0 (digits k n) = some n := by
  rw [number_digits, Nat.mod_eq_of_lt fits, Nat.zero_mul, Nat.zero_add]

theorem unpack_mul {k spare n : Nat} : unpack k spare (n * 2 ^ spare) = some (BigEndian.bytes k n) := by
  rw [unpack, if_pos (Nat.mul_mod_left _ _), Nat.mul_div_cancel _ (Nat.two_pow_pos spare)]

theorem decode_encode (bs : List UInt8) : decode (encode bs) = some bs := by
  induction bs using encode.induct with
  | case1 => rfl
  | case2 a =>
    have small := a.toNat_lt
    have read := number_digits_of_lt (k := 2) (n := a.toNat * 2 ^ 4) (by omega)
    have whole : BigEndian.bytes 1 a.toNat = [a] := by
      simpa [BigEndian.value] using BigEndian.bytes_value [a]
    simp only [digits] at read
    simp only [encode, digits, List.cons_append, List.nil_append, decode, and_self, if_true, read,
      Option.bind_some, unpack_mul, whole]
  | case3 a b =>
    have first := a.toNat_lt
    have second := b.toNat_lt
    have read := number_digits_of_lt (k := 3) (n := (a.toNat * 2 ^ 8 + b.toNat) * 2 ^ 2) (by omega)
    have whole : BigEndian.bytes 2 (a.toNat * 2 ^ 8 + b.toNat) = [a, b] := by
      simpa [BigEndian.value] using BigEndian.bytes_value [a, b]
    simp only [digits] at read
    simp only [encode, digits, List.cons_append, List.nil_append, decode, and_self, if_true,
      digit_ne_padding, if_false, read, Option.bind_some, unpack_mul, whole]
  | case4 a b c rest ih =>
    have first := a.toNat_lt
    have second := b.toNat_lt
    have third := c.toNat_lt
    have read := number_digits_of_lt (k := 4)
      (n := (a.toNat * 2 ^ 8 + b.toNat) * 2 ^ 8 + c.toNat) (by omega)
    have whole : BigEndian.bytes 3 ((a.toNat * 2 ^ 8 + b.toNat) * 2 ^ 8 + c.toNat) = [a, b, c] := by
      simpa [BigEndian.value] using BigEndian.bytes_value [a, b, c]
    simp only [digits] at read
    simp only [encode, digits, List.cons_append, List.nil_append, decode, and_false,
      digit_ne_padding, if_false, read, Option.bind_some, whole, ih, Option.map_some]

/-- The text is made of digits, and of padding behind them. -/
theorem encode_shape (bs : List UInt8) : ∃ ds pads, encode bs = ds ++ List.replicate pads padding ∧
    pads ≤ 2 ∧ ∀ d ∈ ds, d ∈ alphabet := by
  induction bs using encode.induct with
  | case1 => exact ⟨[], 0, rfl, by decide, nofun⟩
  | case2 a => exact ⟨_, 2, rfl, by decide, digits_mem⟩
  | case3 a b => exact ⟨_, 1, rfl, by decide, digits_mem⟩
  | case4 a b c rest ih =>
    obtain ⟨ds, pads, eq, few, mem⟩ := ih
    have whole : encode (a :: b :: c :: rest) =
        digits 4 ((a.toNat * 2 ^ 8 + b.toNat) * 2 ^ 8 + c.toNat) ++ ds ++
          List.replicate pads padding := by
      rw [encode, eq, List.append_assoc]
    exact ⟨_, pads, whole, few, List.forall_mem_append.mpr ⟨digits_mem, mem⟩⟩

end Base64
