import Ngx.Positional

/-! Decimal numerals as bytes: the positional system of the characters from `0` to `9`. -/
namespace Decimal

def digit (d : Nat) : UInt8 := (48 + d).toUInt8

def isDigit (ch : UInt8) : Bool := 48 ≤ ch && ch ≤ 57

def numeral (n : Nat) : List UInt8 :=
  if n = 0 then [digit 0] else (Nat.digits 10 n).reverse.map digit

def value (ds : List UInt8) : Nat := ds.foldl (fun n ch => 10 * n + (ch.toNat - 48)) 0

def alphabet : List UInt8 := (List.range 10).map digit

theorem numeral_eq (n : Nat) : numeral n = Positional.numeral alphabet n := by
  rw [numeral, Positional.numeral]
  split
  · rfl
  · rw [List.map_reverse]
    congr 1
    refine List.map_congr_left fun d member => ?_
    have small : d < 10 := Nat.digits_lt_base (by omega) member
    rw [Positional.digit_eq (show d < alphabet.length from small)]
    simp [alphabet]

theorem numeral_canonical (n : Nat) : Positional.Canonical alphabet n (numeral n) :=
  numeral_eq n ▸ Positional.numeral_canonical (by decide) (by decide) n

theorem numeral_isDigit {n : Nat} {ch : UInt8} (member : ch ∈ numeral n) : isDigit ch = true := by
  have all : alphabet.all isDigit = true := by decide
  exact List.all_eq_true.mp all ch ((numeral_canonical n).digits ch member)

theorem value_eq {ds : List UInt8} (digits : ∀ ch ∈ ds, ch ∈ alphabet) :
    value ds = Positional.value alphabet ds := by
  have all : alphabet.all (fun ch => ch.toNat - 48 == alphabet.idxOf ch) = true := by decide
  refine List.foldl_ext _ _ _ fun n ch member => ?_
  have reads := List.all_eq_true.mp all ch (digits ch member)
  rw [beq_iff_eq.mp reads]
  rfl

theorem value_numeral (n : Nat) : value (numeral n) = n :=
  (value_eq (numeral_canonical n).digits).trans (numeral_canonical n).value_eq

theorem numeral_length_le {n k : Nat} (positive : 0 < k) (small : n < 10 ^ k) :
    (numeral n).length ≤ k :=
  numeral_eq n ▸ Positional.numeral_length_le (by decide) positive small

theorem numeral_ne_nil (n : Nat) : numeral n ≠ [] := (numeral_canonical n).ne_nil

end Decimal
