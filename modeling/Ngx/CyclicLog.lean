import Mathlib.Data.List.Range
import Mathlib.Data.Nat.ModEq
import Mathlib.Tactic.Ring

/-! A log of the numbers 1, 2, 3, … written round a cycle of `n` cells: number `j` goes to
cell `(j - 1) % n` and replaces what the cell held. A reader that has seen the numbers up
to `k` looks at cell `k % n`, takes what it finds there when that is larger than `k`, and
moves to the next cell. Nothing here bounds how far the writer may run ahead. -/
namespace CyclicLog

/-- The number in a cell after the numbers up to `published` were written; zero when none was. -/
def stored (n : Nat) : Nat → Nat → Nat
  | 0, _ => 0
  | published + 1, cell =>
    if cell = published % n then published + 1 else stored n published cell

@[simp] theorem stored_zero (n cell : Nat) : stored n 0 cell = 0 := rfl

theorem stored_succ (n published cell : Nat) :
    stored n (published + 1) cell =
      if cell = published % n then published + 1 else stored n published cell := rfl

theorem stored_le (n published cell : Nat) : stored n published cell ≤ published := by
  induction published with
  | zero => simp
  | succ published ih => rw [stored_succ]; split <;> omega

/-- Two numbers less than one round apart that share a cell are equal. -/
theorem eq_of_same_cell {n a b : Nat} (le : a ≤ b) (near : b < a + n) (same : a % n = b % n) :
    a = b := by
  have dvd : n ∣ b - a := (Nat.modEq_iff_dvd' le).mp same
  have zero : b - a = 0 := Nat.eq_zero_of_dvd_of_lt dvd (by omega)
  omega

variable {n : Nat}

/-- A cell holds `j` exactly while `j` is written and not yet one round old. -/
theorem stored_eq_iff (nonempty : 0 < n) {published cell j : Nat} (positive : 0 < j) :
    stored n published cell = j ↔
      (j - 1) % n = cell ∧ j ≤ published ∧ published < j + n := by
  induction published with
  | zero => simp; omega
  | succ published ih =>
    rw [stored_succ]
    split
    next here =>
      constructor
      · rintro rfl
        exact ⟨by simp [here], le_refl _, by omega⟩
      · rintro ⟨same, le, near⟩
        have := eq_of_same_cell (show j - 1 ≤ published by omega) (by omega) (same.trans here)
        omega
    next elsewhere =>
      rw [ih]
      constructor
      · rintro ⟨same, le, near⟩
        refine ⟨same, by omega, ?_⟩
        rcases Nat.lt_or_ge (published + 1) (j + n) with h | h
        · exact h
        · have eq : published = (j - 1) + n := by omega
          rw [eq, Nat.add_mod_right] at elsewhere
          exact absurd same.symm elsewhere
      · rintro ⟨same, le, near⟩
        refine ⟨same, ?_, by omega⟩
        rcases Nat.lt_or_ge published j with h | h
        · have eq : published = j - 1 := by omega
          exact absurd (same.symm.trans (by rw [eq])) elsewhere
        · exact h

theorem stored_positive_spec (nonempty : 0 < n) {published cell : Nat}
    (positive : 0 < stored n published cell) :
    (stored n published cell - 1) % n = cell ∧ published < stored n published cell + n :=
  have h := (stored_eq_iff nonempty positive).mp rfl
  ⟨h.1, h.2.2⟩

/-- The reader's cell holds a newer number exactly when something is unread. -/
theorem lt_stored_iff {published k : Nat} :
    k < stored n published (k % n) ↔ k < published := by
  constructor
  · exact fun h => h.trans_le (stored_le n published _)
  · induction published with
    | zero => simp
    | succ published ih =>
      intro h
      rw [stored_succ]
      split
      · exact h
      · refine ih ?_
        rcases Nat.lt_or_ge k published with lt | ge
        · exact lt
        · have : k = published := by omega
          subst this
          contradiction

/-- A reader at most one round behind finds exactly the next number. -/
theorem stored_next (nonempty : 0 < n) {published k : Nat} (unread : k < published)
    (near : published ≤ k + n) : stored n published (k % n) = k + 1 :=
  (stored_eq_iff nonempty (Nat.succ_pos k)).mpr ⟨rfl, unread, by omega⟩

/-- The numbers one reading pass takes: from the one under the reader up to the newest. -/
def pending (n published k : Nat) : List Nat :=
  if k < published then
    List.range' (stored n published (k % n)) (published + 1 - stored n published (k % n))
  else []

theorem pending_nil {published k : Nat} (read : published ≤ k) : pending n published k = [] := by
  simp [pending, Nat.not_lt.mpr read]

/-- One pass takes the number under the reader and then what a reader there would take. -/
theorem pending_cons (nonempty : 0 < n) {published k : Nat} (unread : k < published) :
    pending n published k =
      stored n published (k % n) :: pending n published (stored n published (k % n)) := by
  have newer := (lt_stored_iff (n := n)).mpr unread
  have le := stored_le n published (k % n)
  have near := (stored_positive_spec nonempty (by omega : 0 < stored n published (k % n))).2
  rw [pending, if_pos unread]
  generalize stored n published (k % n) = j at *
  rw [show published + 1 - j = (published - j) + 1 by omega, List.range'_succ]
  rcases Nat.lt_or_ge j published with more | last
  · rw [pending, if_pos more, stored_next nonempty more (by omega)]
    congr 2; omega
  · rw [pending_nil last, Nat.sub_eq_zero_of_le last]; rfl

theorem pending_of_near (nonempty : 0 < n) {published k : Nat}
    (near : published ≤ k + n) : pending n published k = List.range' (k + 1) (published - k) := by
  rcases Nat.lt_or_ge k published with unread | read
  · rw [pending, if_pos unread, stored_next nonempty unread near]
    congr 1; omega
  · rw [pending_nil read, Nat.sub_eq_zero_of_le read]; rfl

theorem mem_pending_iff {published k j : Nat} :
    j ∈ pending n published k ↔ k < published ∧ stored n published (k % n) ≤ j ∧ j ≤ published := by
  have le := stored_le n published (k % n)
  rw [pending]
  split
  next unread => simp only [List.mem_range'_1, unread, true_and]; omega
  next read => simp [read]

def Kept (n published j : Nat) : Prop := 0 < j ∧ j ≤ published ∧ published < j + n

theorem kept_of_pending (nonempty : 0 < n) {published k j : Nat}
    (member : j ∈ pending n published k) : Kept n published j := by
  obtain ⟨unread, first, le⟩ := mem_pending_iff.mp member
  have newer := (lt_stored_iff (n := n)).mpr unread
  have near := (stored_positive_spec nonempty (by omega : 0 < stored n published (k % n))).2
  exact ⟨by omega, le, by omega⟩

theorem stored_of_whole_rounds (nonempty : 0 < n) {published k : Nat}
    (lapped : k + n < published) (rounds : n ∣ published - k) :
    stored n published (k % n) = published - n + 1 := by
  refine (stored_eq_iff nonempty (by omega)).mpr ⟨?_, by omega, by omega⟩
  have same : k % n = published % n := (Nat.modEq_iff_dvd' (by omega)).mpr rounds
  have back : published = (published - n) + n := by omega
  rw [Nat.add_sub_cancel, same]
  conv => rhs; rw [back, Nat.add_mod_right]

/-- A pass takes every newer number that is still kept exactly when the reader was not
lapped, or its distance to the writer is a whole number of rounds. -/
theorem pending_complete_iff (nonempty : 0 < n) (published k : Nat) :
    (∀ j, k < j → Kept n published j → j ∈ pending n published k) ↔
      published ≤ k + n ∨ n ∣ published - k := by
  constructor
  · intro complete
    rcases Nat.lt_or_ge (k + n) published with lapped | near
    · right
      have oldest := complete (published - n + 1) (by omega) ⟨by omega, by omega, by omega⟩
      have le := (mem_pending_iff.mp oldest).2.1
      have newer := (lt_stored_iff (n := n)).mpr (show k < published by omega)
      obtain ⟨cell, kept⟩ :=
        stored_positive_spec nonempty (by omega : 0 < stored n published (k % n))
      have eq : stored n published (k % n) - 1 = published - n := by omega
      rw [eq] at cell
      have dvd : n ∣ published - n - k := (Nat.modEq_iff_dvd' (by omega)).mp cell.symm
      have split : published - k = (published - n - k) + n := by omega
      rw [split]
      exact Nat.dvd_add dvd (dvd_refl n)
    · exact Or.inl near
  · rintro near j newer ⟨_, le, kept⟩
    refine mem_pending_iff.mpr ⟨by omega, ?_, le⟩
    rcases Nat.lt_or_ge (k + n) published with lapped | close
    · rw [stored_of_whole_rounds nonempty lapped (near.resolve_left (by omega))]
      omega
    · rw [stored_next nonempty (by omega) close]
      exact newer

end CyclicLog
