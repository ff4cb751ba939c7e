import Mathlib.Data.Nat.Digits.Lemmas
import Mathlib.Data.List.Nodup

/-! Numerals in the positional system of an alphabet, most significant digit first. -/
namespace Positional

variable {α : Type} [Inhabited α] {alphabet : List α}

def digit (alphabet : List α) (d : Nat) : α := alphabet[d]?.getD default

def numeral (alphabet : List α) (n : Nat) : List α :=
  if n = 0 then [digit alphabet 0]
  else ((Nat.digits alphabet.length n).map (digit alphabet)).reverse

theorem numeral_small {n : Nat} (small : n < alphabet.length) :
    numeral alphabet n = [digit alphabet n] := by
  rw [numeral]
  split
  · simp_all
  · simp [Nat.digits_of_lt _ n ‹_› small]

/-- The last digit is the remainder, the ones before are the numeral of the quotient. -/
theorem numeral_step (base : 1 < alphabet.length) {n : Nat} (large : alphabet.length ≤ n) :
    numeral alphabet n =
      numeral alphabet (n / alphabet.length) ++ [digit alphabet (n % alphabet.length)] := by
  have quotient : n / alphabet.length ≠ 0 := (Nat.div_pos large (by omega)).ne'
  rw [numeral, if_neg (by omega), numeral, if_neg quotient, Nat.digits_def' base (by omega)]
  simp

theorem numeral_length_le (base : 1 < alphabet.length) {n k : Nat} (positive : 0 < k)
    (small : n < alphabet.length ^ k) : (numeral alphabet n).length ≤ k := by
  rw [numeral]
  split
  · exact positive
  · rw [List.length_reverse, List.length_map]
    exact (Nat.digits_length_le_iff base n).mpr small

theorem digit_eq {d : Nat} (small : d < alphabet.length) : digit alphabet d = alphabet[d] := by
  rw [digit, List.getElem?_eq_getElem small, Option.getD_some]

section Reading

variable [DecidableEq α]

def value (alphabet ds : List α) : Nat :=
  ds.foldl (fun n d => alphabet.length * n + alphabet.idxOf d) 0

structure Canonical (alphabet : List α) (n : Nat) (ds : List α) : Prop where
  value_eq : value alphabet ds = n
  digits : ∀ d ∈ ds, d ∈ alphabet
  leading : n ≠ 0 → ds.head? ≠ alphabet.head?
  zero : n = 0 → ds.length = 1

omit [Inhabited α] in
theorem Canonical.ne_nil {n : Nat} {ds : List α} (canonical : Canonical alphabet n ds) :
    ds ≠ [] := by
  rintro rfl
  have zero : n = 0 := canonical.value_eq.symm
  exact absurd (canonical.zero zero) (by simp)

theorem idxOf_digit (distinct : alphabet.Nodup) {d : Nat} (small : d < alphabet.length) :
    alphabet.idxOf (digit alphabet d) = d := by
  rw [digit_eq small]
  exact distinct.idxOf_getElem d small

theorem value_digits (distinct : alphabet.Nodup) {ds : List Nat}
    (small : ∀ d ∈ ds, d < alphabet.length) :
    value alphabet (ds.map (digit alphabet)).reverse = Nat.ofDigits alphabet.length ds := by
  rw [value, List.foldl_reverse]
  induction ds with
  | nil => rfl
  | cons d ds ih =>
    have here := idxOf_digit distinct (small d List.mem_cons_self)
    have rest := ih fun x member => small x (List.mem_cons_of_mem _ member)
    simp only [List.map_cons, List.foldr_cons, rest, here, Nat.ofDigits_cons]
    exact Nat.add_comm _ _

theorem numeral_canonical (base : 1 < alphabet.length) (distinct : alphabet.Nodup) (n : Nat) :
    Canonical alphabet n (numeral alphabet n) := by
  have some_digit : 0 < alphabet.length := Nat.lt_of_succ_lt base
  by_cases zero : n = 0
  · subst zero
    rw [numeral_small some_digit]
    have reads := idxOf_digit distinct some_digit
    have inside := digit_eq some_digit ▸ List.getElem_mem some_digit
    exact ⟨by simp [value, reads], by simpa using inside, by simp, by simp⟩
  · have small : ∀ d ∈ Nat.digits alphabet.length n, d < alphabet.length :=
      fun d member => Nat.digits_lt_base base member
    rw [numeral, if_neg zero]
    refine ⟨?_, ?_, fun _ => ?_, fun eq => absurd eq zero⟩
    · rw [value_digits distinct small, Nat.ofDigits_digits]
    · intro d member
      obtain ⟨k, inside, rfl⟩ := List.mem_map.mp (List.mem_reverse.mp member)
      exact digit_eq (small k inside) ▸ List.getElem_mem _
    · have nonempty : Nat.digits alphabet.length n ≠ [] := Nat.digits_ne_nil_iff_ne_zero.mpr zero
      have first := Nat.getLast_digit_ne_zero alphabet.length zero
      have first_small := small _ (List.getLast_mem nonempty)
      rw [List.head?_reverse, List.getLast?_map, List.getLast?_eq_getLast_of_ne_nil nonempty,
        List.head?_eq_getElem?, List.getElem?_eq_getElem some_digit]
      intro same
      have reads := congrArg (alphabet.idxOf ·) (Option.some.inj same)
      simp only [idxOf_digit distinct first_small, distinct.idxOf_getElem] at reads
      exact first reads

end Reading

end Positional
