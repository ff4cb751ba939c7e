import Ngx.QueueLists

/-! `ngx_queue_middle`. The links are passed through, so that the result says what becomes of
them. -/
namespace Ngx.Datastruct

open LinkedRing

variable {ν : Type*} [DecidableEq ν]

def middleLoop (queue : ν) : Nat → ν → ν → Links ν → Option (ν × Links ν)
  | 0, _, _, _ => none
  | fuel + 1, middle, next, l =>
    let middle := l.next middle
    let next := l.next next
    if next = l.prev queue then some (middle, l)
    else
      let next := l.next next
      if next = l.prev queue then some (middle, l) else middleLoop queue fuel middle next l

def queueMiddle (fuel : Nat) (queue : ν) (l : Links ν) : Option (ν × Links ν) :=
  let middle := l.next queue
  if middle = l.prev queue then some (middle, l)
  else middleLoop queue fuel middle (l.next queue) l

variable {l : Links ν} {h n : ν} {xs : List ν}

/-- Before a round `middle` is at the position `k`, and `next` at twice that; the last node is
still ahead of `next`. -/
theorem middleLoop_eq (ring : Ring l h xs) {k fuel : Nat} (ahead : 2 * k + 1 < xs.length)
    (enough : xs.length / 2 ≤ k + fuel) :
    middleLoop h fuel xs[k] xs[2 * k] l = some (xs[xs.length / 2], l) := by
  induction fuel generalizing k with
  | zero => omega
  | succ fuel ih =>
    have middle : l.next xs[k] = xs[k + 1] := ring.next_at (by omega)
    have first : l.next xs[2 * k] = xs[2 * k + 1] := ring.next_at ahead
    rw [middleLoop, middle, first]
    by_cases even : 2 * k + 2 = xs.length
    · have half : xs.length / 2 = k + 1 := by omega
      rw [if_pos ((ring.last_iff ahead).mpr even)]
      simp only [half]
    · have more : 2 * k + 2 < xs.length := by omega
      have second : l.next xs[2 * k + 1] = xs[2 * k + 2] := ring.next_at more
      rw [if_neg fun last => even ((ring.last_iff ahead).mp last), second]
      by_cases odd : 2 * k + 3 = xs.length
      · have half : xs.length / 2 = k + 1 := by omega
        rw [if_pos ((ring.last_iff more).mpr odd)]
        simp only [half]
      · rw [if_neg fun last => odd ((ring.last_iff more).mp last)]
        exact ih (k := k + 1) (by omega) (by omega)

/-- Half as many rounds as there are nodes are enough; without nodes the head is returned. -/
theorem queueMiddle_eq (ring : Ring l h xs) {fuel : Nat} (enough : xs.length / 2 ≤ fuel) :
    queueMiddle fuel h l = some (xs[xs.length / 2]?.getD h, l) := by
  have first : l.next h = xs.headD h := ring.next_head
  match xs with
  | [] =>
    have last : l.prev h = h := ring.prev_head
    rw [queueMiddle, first, List.headD_nil, if_pos last.symm]
    rfl
  | [x] =>
    have last : l.prev h = x := ring.prev_head
    rw [queueMiddle, first, List.headD_cons, if_pos last.symm]
    simp
  | x :: y :: zs =>
    have ahead : 2 * 0 + 1 < (x :: y :: zs).length := by simp
    have inside : (x :: y :: zs).length / 2 < (x :: y :: zs).length := by omega
    have apart : x ≠ l.prev h := fun last =>
      absurd ((ring.last_iff (i := 0) (by simp)).mp last) (by simp)
    rw [queueMiddle, first, List.headD_cons, if_neg apart, List.getElem?_eq_getElem inside]
    exact middleLoop_eq ring ahead (by omega)

/-- The middle of a queue is the node at half its length, and the queue stays as it is. -/
theorem queueMiddle_half (ring : Ring l h xs) (some_node : xs ≠ []) :
    ∃ middle, xs[xs.length / 2]? = some middle ∧
      ∀ fuel, xs.length / 2 ≤ fuel → queueMiddle fuel h l = some (middle, l) := by
  have inside : xs.length / 2 < xs.length :=
    Nat.div_lt_self (List.length_pos_of_ne_nil some_node) (by decide)
  refine ⟨xs[xs.length / 2], List.getElem?_eq_getElem inside, fun fuel enough => ?_⟩
  rw [queueMiddle_eq ring enough, List.getElem?_eq_getElem inside, Option.getD_some]

/-- A queue with four nodes: the middle is the first of the second half. -/
theorem queueMiddle_half_four :
    ∃ middle, [1, 2, 3, 4][[1, 2, 3, 4].length / 2]? = some middle ∧
      ∀ fuel, [1, 2, 3, 4].length / 2 ≤ fuel →
        queueMiddle fuel (0 : Nat) ([1, 2, 3, 4].foldl (fun l x => queueInsertTail 0 x l)
          (queueInit 0 ⟨id, id⟩)) =
          some (middle, [1, 2, 3, 4].foldl (fun l x => queueInsertTail 0 x l)
            (queueInit 0 ⟨id, id⟩)) :=
  queueMiddle_half (queueInsertTail_ring (queueInsertTail_ring (queueInsertTail_ring
    (queueInsertTail_ring queueInit_ring (by decide)) (by decide)) (by decide)) (by decide))
    (by decide)

/-- A queue that is split at its middle is split in half. -/
theorem queueSplit_middle (ring : Ring l h xs) (some_node : xs ≠ []) (fresh : n ∉ h :: xs) :
    ∃ middle, queueMiddle (xs.length / 2) h l = some (middle, l) ∧
      Ring (queueSplit h middle n l) h (xs.take (xs.length / 2)) ∧
      Ring (queueSplit h middle n l) n (xs.drop (xs.length / 2)) := by
  have inside : xs.length / 2 < xs.length :=
    Nat.div_lt_self (List.length_pos_of_ne_nil some_node) (by decide)
  obtain ⟨middle, at_half, found⟩ := queueMiddle_half ring some_node
  have second : xs.drop (xs.length / 2) = middle :: xs.drop (xs.length / 2 + 1) := by
    rw [List.drop_eq_getElem_cons inside]
    rw [List.getElem?_eq_getElem inside] at at_half
    rw [Option.some.inj at_half]
  have parts : xs.take (xs.length / 2) ++ middle :: xs.drop (xs.length / 2 + 1) = xs := by
    rw [← second, List.take_append_drop]
  rw [second]
  refine ⟨middle, found _ (Nat.le_refl _), ?_⟩
  rw [← parts] at ring fresh
  obtain ⟨first, rest, -⟩ := queueSplit_ring ring fresh
  exact ⟨first, rest⟩

end Ngx.Datastruct
