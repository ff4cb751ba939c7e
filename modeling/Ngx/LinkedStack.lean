import Mathlib.Logic.Function.Basic
import Mathlib.Data.List.Nodup

/-! Singly linked stacks that run through the nodes themselves and end in a null pointer. -/
namespace LinkedStack

variable {ν : Type*}

/-- From the pointer `start` one comes to null through exactly the nodes `xs`. -/
inductive Chain (next : ν → Option ν) : Option ν → List ν → Prop where
  | nil : Chain next none []
  | cons {x : ν} {xs : List ν} : Chain next (next x) xs → Chain next (some x) (x :: xs)

variable {next next' : ν → Option ν} {start : Option ν} {x : ν} {xs ys : List ν}

theorem Chain.congr (chain : Chain next start xs) (same : ∀ x ∈ xs, next' x = next x) :
    Chain next' start xs := by
  induction chain with
  | nil => exact .nil
  | cons _ ih =>
    apply Chain.cons
    rw [same _ List.mem_cons_self]
    exact ih fun x member => same x (List.mem_cons_of_mem _ member)

theorem Chain.top (chain : Chain next start (x :: xs)) : start = some x := by
  cases chain
  rfl

theorem Chain.pop (chain : Chain next (some x) xs) : ∃ ys, xs = x :: ys ∧ Chain next (next x) ys := by
  cases chain with
  | cons rest => exact ⟨_, rfl, rest⟩

/-- A node that is not on the stack is led to its top. -/
theorem Chain.push [DecidableEq ν] (chain : Chain next start xs) (fresh : x ∉ xs) :
    Chain (Function.update next x start) (some x) (x :: xs) := by
  apply Chain.cons
  rw [Function.update_self]
  apply chain.congr
  intro y member
  apply Function.update_of_ne
  rintro rfl
  exact fresh member

end LinkedStack
