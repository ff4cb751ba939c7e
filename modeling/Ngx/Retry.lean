import Mathlib.Data.Stream.Init

/-! Computations that ask for one answer after the other until one of them lets them return.
The answers come from an infinite stream; a finite prefix of it serves as fuel. -/
namespace Retry

variable {σ α β : Type*}

/-- Some finite prefix of the answers is enough for a result. -/
def Returns (run : List α → σ → Option β) (s : σ) (answers : Stream' α) : Prop :=
  ∃ n, (run (answers.take n) s).isSome

/-- From a state that satisfies `Waiting`, an answer that `Rejects` leads to such a state again
and any other answer to a result. -/
structure Loop (run : List α → σ → Option β) (Waiting : σ → Prop) (Rejects : α → Prop) :
    Prop where
  asks : ∀ s, run [] s = none
  again : ∀ s, Waiting s → ∀ a, Rejects a → ∃ s', Waiting s' ∧ ∀ as, run (a :: as) s = run as s'
  ends : ∀ s, Waiting s → ∀ a, ¬ Rejects a → ∀ as, (run (a :: as) s).isSome

variable {run : List α → σ → Option β} {Waiting : σ → Prop} {Rejects : α → Prop}
  {answers : Stream' α} {s s' : σ}

/-- A first answer that settles the matter. -/
theorem returns_of_head (ended : (run [answers.head] s).isSome) :
    Returns run s answers :=
  ⟨1, ended⟩

/-- A first answer that only leads to another state. -/
theorem returns_tail (asks : run [] s = none)
    (moved : ∀ as, run (answers.head :: as) s = run as s') :
    Returns run s answers ↔ Returns run s' answers.tail := by
  constructor
  · rintro ⟨n, ended⟩
    cases n with
    | zero =>
      simp only [Stream'.take_zero, asks] at ended
      exact nomatch ended
    | succ n =>
      refine ⟨n, ?_⟩
      rw [← moved]
      exact ended
  · rintro ⟨n, ended⟩
    refine ⟨n + 1, ?_⟩
    show (run (answers.head :: answers.tail.take n) s).isSome
    rw [moved]
    exact ended

/-- No prefix in which every answer rejects is enough. -/
theorem Loop.runs_out (loop : Loop run Waiting Rejects) (n : Nat) :
    ∀ (s : σ) (answers : Stream' α), Waiting s → (∀ k, Rejects (answers.get k)) →
      run (answers.take n) s = none := by
  induction n with
  | zero =>
    intro s answers _ _
    exact loop.asks s
  | succ n ih =>
    intro s answers waiting rejected
    obtain ⟨s', waiting', moved⟩ := loop.again s waiting answers.head (rejected 0)
    show run (answers.head :: answers.tail.take n) s = none
    rw [moved]
    exact ih s' answers.tail waiting' fun k => rejected (k + 1)

/-- The first answer that does not reject ends the loop. -/
theorem Loop.returns_at (loop : Loop run Waiting Rejects) (k : Nat) :
    ∀ (s : σ) (answers : Stream' α), Waiting s → ¬ Rejects (answers.get k) →
      Returns run s answers := by
  induction k with
  | zero =>
    intro s answers waiting accepted
    exact returns_of_head (loop.ends s waiting answers.head accepted [])
  | succ k ih =>
    intro s answers waiting accepted
    by_cases rejected : Rejects answers.head
    · obtain ⟨s', waiting', moved⟩ := loop.again s waiting answers.head rejected
      apply (returns_tail (loop.asks s) moved).mpr
      exact ih s' answers.tail waiting' accepted
    · exact returns_of_head (loop.ends s waiting answers.head rejected [])

theorem Loop.returns_iff (loop : Loop run Waiting Rejects) (waiting : Waiting s) :
    Returns run s answers ↔ ∃ k, ¬ Rejects (answers.get k) := by
  constructor
  · rintro ⟨n, ended⟩
    by_contra none
    have rejected : ∀ k, Rejects (answers.get k) := fun k => not_not.mp fun h => none ⟨k, h⟩
    rw [loop.runs_out n s answers waiting rejected] at ended
    exact nomatch ended
  · rintro ⟨k, accepted⟩
    exact loop.returns_at k s answers waiting accepted

end Retry
