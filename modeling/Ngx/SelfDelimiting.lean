import Mathlib.Data.List.Basic

/-! Reading a list of items off one sequence, when each item shows where it ends. -/
namespace SelfDelimiting

/-- A reader takes an item from the front of the input and leaves less input than it found. -/
structure Reader (α β : Type*) where
  read : List β → Option (α × List β)
  shorter : ∀ {bs a rest}, read bs = some (a, rest) → rest.length < bs.length

variable {α β : Type*}

/-- All items of the input; there is no result when something is left that is not an item. -/
def Reader.readAll (r : Reader α β) (bs : List β) : Option (List α) :=
  if bs = [] then some []
  else match _ : r.read bs with
    | none => none
    | some (a, rest) => (r.readAll rest).map (a :: ·)
termination_by bs.length
decreasing_by exact r.shorter ‹_›

/-- What can be read back in front of anything is read back from a row of items. -/
theorem Reader.readAll_flatMap (r : Reader α β) (encode : α → List β)
    (back : ∀ a rest, r.read (encode a ++ rest) = some (a, rest)) (as : List α) :
    r.readAll (as.flatMap encode) = some as := by
  induction as with
  | nil => rw [List.flatMap_nil, readAll, if_pos rfl]
  | cons a as ih =>
    have read := back a (as.flatMap encode)
    have nonempty : encode a ++ as.flatMap encode ≠ [] := by
      intro empty
      have less := r.shorter read
      rw [empty] at less
      exact Nat.not_lt_zero _ less
    rw [List.flatMap_cons, readAll, if_neg nonempty]
    split
    next missing => exact nomatch missing.symm.trans read
    next found =>
      cases found.symm.trans read
      rw [ih, Option.map_some]

end SelfDelimiting
