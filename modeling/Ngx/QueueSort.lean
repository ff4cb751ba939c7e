import Ngx.QueueLists
import Mathlib.Data.List.Sort

/-! `ngx_queue_sort`. Both loops have fuel; a queue is sorted with as much as it has nodes, and one
more. -/
namespace Ngx.Datastruct

open LinkedRing

variable {ν : Type*}

section Order

variable {cmp : ν → ν → Int} {xs : List ν}

/-- Read backwards, a node stands before those that it may follow. -/
def Follows (cmp : ν → ν → Int) (q b : ν) : Prop := cmp b q ≤ 0

instance (cmp : ν → ν → Int) : DecidableRel (Follows cmp) := fun q b =>
  inferInstanceAs (Decidable (cmp b q ≤ 0))

def sorted (cmp : ν → ν → Int) (xs : List ν) : List ν :=
  (xs.reverse.insertionSort (Follows cmp)).reverse

theorem sorted_eq_foldl (cmp : ν → ν → Int) (xs : List ν) : sorted cmp xs =
    (xs.foldl (fun done q => done.orderedInsert (Follows cmp) q) []).reverse := by
  rw [sorted, List.insertionSort, List.foldr_reverse]

theorem sorted_perm (cmp : ν → ν → Int) (xs : List ν) : (sorted cmp xs).Perm xs :=
  (List.reverse_perm _).trans ((List.perm_insertionSort _ _).trans (List.reverse_perm _))

/-- Two nodes in order stay in order. -/
theorem sorted_stable {a b : ν} (before : [a, b].Sublist xs) (le : cmp a b ≤ 0) :
    [a, b].Sublist (sorted cmp xs) := by
  have turned : [b, a].Sublist (xs.reverse.insertionSort (Follows cmp)) :=
    List.pair_sublist_insertionSort le (by simpa using before.reverse)
  simpa [sorted] using turned.reverse

/-- Insertion sorts a list on which the order is total and transitive. -/
theorem pairwise_insertionSort {r : ν → ν → Prop} [DecidableRel r]
    (total : ∀ a ∈ xs, ∀ b ∈ xs, r a b ∨ r b a)
    (trans : ∀ a ∈ xs, ∀ b ∈ xs, ∀ c ∈ xs, r a b → r b c → r a c) :
    (xs.insertionSort r).Pairwise r := by
  let among : {x // x ∈ xs} → {x // x ∈ xs} → Prop := InvImage r Subtype.val
  have : Std.Total among := ⟨fun a b => total a a.2 b b.2⟩
  have : IsTrans _ among := ⟨fun a b c => trans a a.2 b b.2 c c.2⟩
  have : DecidableRel among := Classical.decRel among
  have same : (xs.attach.insertionSort among).map Subtype.val = xs.insertionSort r := by
    rw [List.map_insertionSort among r Subtype.val _ fun _ _ _ _ => Iff.rfl,
      List.attach_map_subtype_val]
  rw [← same, List.pairwise_map]
  exact List.pairwise_insertionSort among _

theorem sorted_pairwise (total : ∀ a ∈ xs, ∀ b ∈ xs, cmp a b ≤ 0 ∨ cmp b a ≤ 0)
    (trans : ∀ a ∈ xs, ∀ b ∈ xs, ∀ c ∈ xs, cmp a b ≤ 0 → cmp b c ≤ 0 → cmp a c ≤ 0) :
    (sorted cmp xs).Pairwise fun a b => cmp a b ≤ 0 := by
  have mem : ∀ {a}, a ∈ xs.reverse → a ∈ xs := List.mem_reverse.mp
  have ordered : (xs.reverse.insertionSort (Follows cmp)).Pairwise (Follows cmp) :=
    pairwise_insertionSort (fun a here b there => total b (mem there) a (mem here))
      fun a first b second c third ab bc =>
        trans c (mem third) b (mem second) a (mem first) bc ab
  exact List.pairwise_reverse.mpr ordered

end Order

variable [DecidableEq ν]

def findPlace (cmp : ν → ν → Int) (queue q : ν) (l : Links ν) : Nat → ν → Option ν
  | 0, _ => none
  | fuel + 1, prev =>
    if cmp prev q ≤ 0 then some prev
    else
      let prev := l.prev prev
      if prev ≠ queue then findPlace cmp queue q l fuel prev else some prev

/-- The `for` loop before `q`, with `room` as the fuel of the inner loop. -/
def sortFrom (cmp : ν → ν → Int) (queue : ν) (room : Nat) : Nat → ν → Links ν → Option (Links ν)
  | 0, _, _ => none
  | fuel + 1, q, l =>
    if q ≠ queue then
      let prev := l.prev q
      let next := l.next q
      let l := queueRemove q l
      (findPlace cmp queue q l room prev).bind fun prev =>
        sortFrom cmp queue room fuel next (queueInsertHead prev q l)
    else some l

def queueSort (fuel : Nat) (cmp : ν → ν → Int) (queue : ν) (l : Links ν) : Option (Links ν) :=
  let q := l.next queue
  if q = l.prev queue then some l else sortFrom cmp queue fuel fuel (l.next q) l

variable {l : Links ν} {cmp : ν → ν → Int} {h p q : ν} {xs rest : List ν}

/-- The place is the first node backwards that `q` may follow, or the head. -/
theorem findPlace_eq (cmp : ν → ν → Int) (q : ν) (before : List ν) {p : ν} {rest : List ν}
    {fuel : Nat} (ring : Ring l h (before.reverse ++ p :: rest)) (enough : before.length < fuel) :
    findPlace cmp h q l fuel p =
      some (((p :: before).dropWhile fun b => ¬ Follows cmp q b).headD h) := by
  obtain ⟨fuel, rfl⟩ := Nat.exists_eq_add_one.mpr (Nat.zero_lt_of_lt enough)
  by_cases stop : cmp p q ≤ 0
  · simp [findPlace, Follows, stop]
  · have skips : ((p :: before).dropWhile fun b => ¬ Follows cmp q b) =
        before.dropWhile fun b => ¬ Follows cmp q b := by
      simp [Follows, Int.not_le.mp stop]
    have prev : l.prev p = before.reverse.getLastD h := ring.prev_member
    rw [findPlace, if_neg stop, skips, prev]
    cases before with
    | nil => simp
    | cons w before =>
      have last : (w :: before).reverse.getLastD h = w := by simp
      have member : w ≠ h := by
        rintro rfl
        exact (List.nodup_cons.mp ring.distinct).1 (by simp)
      rw [List.reverse_cons, List.append_assoc] at ring
      simp only [last, member, ne_eq, not_false_eq_true, if_true]
      exact findPlace_eq cmp q before ring (Nat.lt_of_succ_lt_succ enough)

/-- A node is taken out and put where it belongs among those before it. -/
theorem insert_ring (done : List ν) (ring : Ring l h (done.reverse ++ q :: rest)) :
    Ring (queueInsertHead ((done.dropWhile fun b => ¬ Follows cmp q b).headD h) q
      (queueRemove q l)) h ((done.orderedInsert (Follows cmp) q).reverse ++ rest) := by
  have removed := queueRemove_ring ring
  have fresh : q ∉ h :: (done.reverse ++ rest) := ring.once
  let near := done.takeWhile fun b => ¬ Follows cmp q b
  let far := done.dropWhile fun b => ¬ Follows cmp q b
  have parts : done.reverse ++ rest = far.reverse ++ (near.reverse ++ rest) := by
    rw [← List.append_assoc, ← List.reverse_append, List.takeWhile_append_dropWhile]
  have place : far.reverse.getLastD h = far.headD h := by simp
  rw [parts] at removed fresh
  have inserted := queueInsertAfter_ring removed fresh
  rw [place] at inserted
  rw [List.orderedInsert_eq_take_drop]
  simpa [near, far] using inserted

theorem sortFrom_ring (cmp : ν → ν → Int) {room fuel : Nat} (done : List ν)
    (ring : Ring l h (done.reverse ++ rest)) (some_done : done ≠ []) (enough : rest.length < fuel)
    (wide : (done.reverse ++ rest).length ≤ room) :
    ∃ l', sortFrom cmp h room fuel (rest.headD h) l = some l' ∧
      Ring l' h (rest.foldl (fun done q => done.orderedInsert (Follows cmp) q) done).reverse := by
  induction rest generalizing l done fuel with
  | nil =>
    obtain ⟨fuel, rfl⟩ := Nat.exists_eq_add_one.mpr enough
    exact ⟨l, by simp [sortFrom], by simpa using ring⟩
  | cons q rest ih =>
    obtain ⟨fuel, rfl⟩ := Nat.exists_eq_add_one.mpr (Nat.zero_lt_of_lt enough)
    obtain ⟨p, before, rfl⟩ := List.exists_cons_of_ne_nil some_done
    have member : q ≠ h := by
      rintro rfl
      exact (List.nodup_cons.mp ring.distinct).1 (by simp)
    have prev : l.prev q = p := by
      rw [ring.prev_member]
      simp
    have next : l.next q = rest.headD h := ring.next_member
    have removed := queueRemove_ring ring
    rw [List.reverse_cons, List.append_assoc] at removed
    have length : ((p :: before).orderedInsert (Follows cmp) q).length = before.length + 2 :=
      List.orderedInsert_length _ _ _
    simp only [List.length_append, List.length_reverse, List.length_cons] at wide
    have found := findPlace_eq cmp q before removed (show before.length < room by omega)
    have some_done : (p :: before).orderedInsert (Follows cmp) q ≠ [] := by
      rw [← List.length_pos_iff, length]
      omega
    have wide : (((p :: before).orderedInsert (Follows cmp) q).reverse ++ rest).length ≤ room := by
      rw [List.length_append, List.length_reverse, length]
      omega
    obtain ⟨l', sorts, ring'⟩ := ih _ (insert_ring (p :: before) ring) some_done
      (Nat.lt_of_succ_lt_succ enough) wide
    refine ⟨l', ?_, ring'⟩
    rw [← sorts]
    simp [sortFrom, member, prev, next, found]

theorem queueSort_ring {fuel : Nat} (ring : Ring l h xs) (enough : xs.length < fuel) :
    ∃ l', queueSort fuel cmp h l = some l' ∧ Ring l' h (sorted cmp xs) := by
  have first : l.next h = xs.headD h := ring.next_head
  have last : l.prev h = xs.getLastD h := ring.prev_head
  match xs with
  | [] => exact ⟨l, by simp_all [queueSort], ring⟩
  | [x] => exact ⟨l, by simp_all [queueSort], ring⟩
  | x :: y :: zs =>
    have apart : l.next h ≠ l.prev h := by
      have fresh := (List.nodup_cons.mp (List.nodup_cons.mp ring.distinct).2).1
      rw [first, last, List.getLastD_cons, List.getLastD_cons, List.headD_cons]
      intro same
      exact fresh (same ▸ List.getLastD_mem_cons)
    have second : l.next x = y := by
      rw [← List.nil_append (x :: y :: zs)] at ring
      exact ring.next_member
    obtain ⟨l', sorts, ring'⟩ := sortFrom_ring cmp [x] ring (by simp)
      (Nat.lt_of_succ_lt enough) (Nat.le_of_lt enough)
    refine ⟨l', ?_, ?_⟩
    · rw [queueSort, if_neg apart, first]
      exact second.symm ▸ sorts
    · rw [sorted_eq_foldl]
      exact ring'

/-- The queue is sorted, and nodes that compare equal stay in the order they came in. -/
theorem queueSort_stable (ring : Ring l h xs)
    (total : ∀ a ∈ xs, ∀ b ∈ xs, cmp a b ≤ 0 ∨ cmp b a ≤ 0)
    (trans : ∀ a ∈ xs, ∀ b ∈ xs, ∀ c ∈ xs, cmp a b ≤ 0 → cmp b c ≤ 0 → cmp a c ≤ 0) :
    ∃ ys, (∀ fuel, xs.length < fuel → ∃ l', queueSort fuel cmp h l = some l' ∧ Ring l' h ys) ∧
      ys.Perm xs ∧ ys.Pairwise (fun a b => cmp a b ≤ 0) ∧
      ∀ a b, cmp a b ≤ 0 → cmp b a ≤ 0 → [a, b].Sublist xs → [a, b].Sublist ys :=
  ⟨sorted cmp xs, fun _ enough => queueSort_ring ring enough, sorted_perm cmp xs,
    sorted_pairwise total trans, fun _ _ le _ before => sorted_stable before le⟩

def compTestNode (num : ν → Int) (n1 n2 : ν) : Int := if num n1 > num n2 then 1 else 0

theorem queueSort_stable_test :
    ∃ ys, (∀ fuel, [1, 2].length < fuel → ∃ l',
      queueSort fuel (compTestNode fun n => -n) 0
        (queueInsertTail 0 2 (queueInsertTail 0 1 (queueInit 0 ⟨id, id⟩))) = some l' ∧
      Ring l' (0 : Nat) ys) ∧
      ys.Perm [1, 2] ∧ ys.Pairwise (fun a b => compTestNode (fun n => -n) a b ≤ 0) ∧
      ∀ a b, compTestNode (fun n => -n) a b ≤ 0 → compTestNode (fun n => -n) b a ≤ 0 →
        [a, b].Sublist [1, 2] → [a, b].Sublist ys :=
  queueSort_stable (queueInsertTail_ring (queueInsertTail_ring queueInit_ring (by decide))
    (by decide)) (by decide) (by decide)

end Ngx.Datastruct
