import Mathlib.Data.List.Pairwise
import Mathlib.Logic.Function.Basic

/-! Chains of a hash table: a list for every bucket, each element in the bucket that is its
home. Searching a chain for one of its elements, replacing it, and moving all elements to
chains with other homes. -/
namespace Buckets

variable {α : Type*}

def Unique (p : α → Bool) (as : List α) : Prop := as.Pairwise fun a b => ¬ (p a ∧ p b)

theorem find?_eq_some_iff {p : α → Bool} {as : List α} (unique : Unique p as) {a : α} :
    as.find? p = some a ↔ a ∈ as ∧ p a := by
  constructor
  · intro found
    exact ⟨List.mem_of_find?_eq_some found, List.find?_some found⟩
  · rintro ⟨member, holds⟩
    induction as with
    | nil => cases member
    | cons b as ih =>
      obtain ⟨apart, unique⟩ := List.pairwise_cons.mp unique
      rcases List.mem_cons.mp member with rfl | later
      · rw [List.find?_cons, holds]
      · have other : p b = false := by
          have := apart a later
          simpa [holds] using this
        rw [List.find?_cons, other]
        exact ih unique later

theorem countP_eq_one {p : α → Bool} {as : List α} (unique : Unique p as) {a : α}
    (member : a ∈ as) (holds : p a) : as.countP p = 1 := by
  induction as with
  | nil => cases member
  | cons b as ih =>
    obtain ⟨apart, unique⟩ := List.pairwise_cons.mp unique
    rcases List.mem_cons.mp member with rfl | later
    · have none : as.countP p = 0 := by
        rw [List.countP_eq_zero]
        intro c inside also
        exact apart c inside ⟨holds, also⟩
      rw [List.countP_cons, none, if_pos holds]
    · have other : ¬ p b := fun also => apart a later ⟨also, holds⟩
      rw [List.countP_cons_of_neg other]
      exact ih unique later

def replaceFirst (p : α → Bool) (b : α) : List α → Option (List α)
  | [] => none
  | a :: as => if p a then some (b :: as) else (replaceFirst p b as).map (a :: ·)

theorem replaceFirst_none {p : α → Bool} {b : α} {as : List α}
    (missing : replaceFirst p b as = none) : as.find? p = none := by
  induction as with
  | nil => rfl
  | cons a as ih =>
    rw [replaceFirst] at missing
    split at missing
    · cases missing
    · rw [List.find?_cons_of_neg ‹_›]
      exact ih (Option.map_eq_none_iff.mp missing)

theorem replaceFirst_some {p : α → Bool} {b : α} {as bs : List α}
    (replaced : replaceFirst p b as = some bs) :
    ∃ xs a ys, as = xs ++ a :: ys ∧ bs = xs ++ b :: ys ∧ p a ∧ ∀ x ∈ xs, ¬ p x := by
  induction as generalizing bs with
  | nil => cases replaced
  | cons a as ih =>
    rw [replaceFirst] at replaced
    split at replaced
    next holds =>
      cases replaced
      exact ⟨[], a, as, rfl, rfl, holds, by simp⟩
    next skipped =>
      obtain ⟨cs, rest, rfl⟩ := Option.map_eq_some_iff.mp replaced
      obtain ⟨xs, c, ys, rfl, rfl, holds, before⟩ := ih rest
      refine ⟨a :: xs, c, ys, rfl, rfl, holds, ?_⟩
      intro x member
      rcases List.mem_cons.mp member with rfl | later
      · exact skipped
      · exact before x later

def push (home : α → Nat) (table : Nat → List α) (a : α) : Nat → List α :=
  Function.update table (home a) (a :: table (home a))

/-- Every element of the first `size` chains, in the order of the chains, moved to the front of
the chain that is its home. -/
def relink (home : α → Nat) (size : Nat) (old : Nat → List α) : Nat → List α :=
  (List.range size).foldl (fun table i => (old i).foldl (push home) table) fun _ => []

theorem foldl_push (home : α → Nat) (as : List α) (table : Nat → List α) (i : Nat) :
    as.foldl (push home) table i = (as.filter fun a => home a = i).reverse ++ table i := by
  induction as generalizing table with
  | nil => rfl
  | cons a as ih =>
    rw [List.foldl_cons, ih, push]
    by_cases here : home a = i
    · rw [List.filter_cons_of_pos (by simpa using here), ← here, Function.update_self]
      simp
    · rw [List.filter_cons_of_neg (by simpa using here),
        Function.update_of_ne (fun same => here same.symm)]

theorem relink_eq (home : α → Nat) (size : Nat) (old : Nat → List α) (i : Nat) :
    relink home size old i =
      (((List.range size).flatMap old).filter fun a => home a = i).reverse := by
  rw [relink, ← List.foldl_flatMap, foldl_push, List.append_nil]

section Relink

variable {home home' : α → Nat} {size : Nat} {old : Nat → List α}

theorem mem_relink (placed : ∀ i, ∀ a ∈ old i, home a = i) (inside : ∀ a, home a < size) {a : α}
    {i : Nat} : a ∈ relink home' size old i ↔ home' a = i ∧ a ∈ old (home a) := by
  simp only [relink_eq, List.mem_reverse, List.mem_filter, List.mem_flatMap, List.mem_range,
    decide_eq_true_eq]
  constructor
  · rintro ⟨⟨j, -, member⟩, here⟩
    rw [placed j a member]
    exact ⟨here, member⟩
  · rintro ⟨here, member⟩
    exact ⟨⟨home a, inside a, member⟩, here⟩

/-- A relation within the chains, and between elements with different homes, is kept. -/
theorem relink_pairwise {R : α → α → Prop} (symm : ∀ {a b}, R a b → R b a)
    (placed : ∀ i, ∀ a ∈ old i, home a = i) (apart : ∀ {a b}, home a ≠ home b → R a b)
    (chains : ∀ i, (old i).Pairwise R) (i : Nat) : (relink home' size old i).Pairwise R := by
  have all : ((List.range size).flatMap old).Pairwise R := by
    rw [List.pairwise_flatMap]
    refine ⟨fun j _ => chains j, ?_⟩
    apply (List.nodup_range (n := size)).imp
    intro j k different a member b member'
    apply apart
    rw [placed j a member, placed k b member']
    exact different
  rw [relink_eq, List.pairwise_reverse]
  exact (all.filter _).imp symm

end Relink

end Buckets
