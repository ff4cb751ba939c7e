import Ngx.Queue

/-! The queue of `datastruct/ngx_queue`. It inserts as the queue of the server does and removes
with the same two stores in the other order; it can also be cut in two and put together. -/
namespace Ngx.Datastruct

open LinkedRing

variable {ν : Type*} [DecidableEq ν]

def queueRemove (x : ν) (l : Links ν) : Links ν :=
  let l := setNext (l.prev x) (l.next x) l
  setPrev (l.next x) (l.prev x) l

def queueSplit (h q n : ν) (l : Links ν) : Links ν :=
  let l := setPrev n (l.prev h) l
  let l := setNext (l.prev n) n l
  let l := setNext n q l
  let l := setPrev h (l.prev q) l
  let l := setNext (l.prev h) h l
  setPrev q n l

def queueAdd (h n : ν) (l : Links ν) : Links ν :=
  let l := setNext (l.prev h) (l.next n) l
  let l := setPrev (l.next n) (l.prev h) l
  let l := setPrev h (l.prev n) l
  setNext (l.prev h) h l

variable {l : Links ν} {h x q n : ν} {xs ys : List ν}

/-- The first store leaves the link of `x` that the second reads, if another node is before. -/
theorem queueRemove_eq (apart : l.prev x ≠ x) : queueRemove x l = l.unlink x := by
  have kept : Function.update l.next (l.prev x) (l.next x) x = l.next x :=
    Function.update_of_ne apart.symm _ _
  simp [queueRemove, setNext, setPrev, Links.unlink, kept]

theorem queueSplit_eq (new : n ≠ q) : queueSplit h q n l = l.cut h q n := by
  simp [queueSplit, setNext, setPrev, Links.cut, Function.update_of_ne new.symm]

theorem queueAdd_eq (last : n ≠ l.prev h) (some_node : l.next n ≠ n) :
    queueAdd h n l = l.splice h n := by
  simp [queueAdd, setNext, setPrev, Links.splice, Function.update_of_ne last,
    Function.update_of_ne some_node.symm]

theorem queueRemove_ring (ring : Ring l h (xs ++ x :: ys)) :
    Ring (queueRemove x l) h (xs ++ ys) := by
  rw [queueRemove_eq ring.apart.1]
  exact ring.unlink

theorem queueInsertAfter_eq (ring : Ring l h xs) (member : q ∈ h :: xs) (fresh : x ∉ h :: xs) :
    queueInsertHead q x l = l.linkAfter q x := by
  obtain ⟨ys, turned, same⟩ := ring.headed member
  exact queueInsertHead_eq turned fun inside => fresh ((same x).mp inside)

/-- `ngx_queue_insert_after` is `ngx_queue_insert_head` at any node of the queue. -/
theorem queueInsertAfter_ring (ring : Ring l h (xs ++ ys)) (fresh : x ∉ h :: (xs ++ ys)) :
    Ring (queueInsertHead (xs.getLastD h) x l) h (xs ++ x :: ys) := by
  have member : xs.getLastD h ∈ h :: (xs ++ ys) := by
    rcases List.eq_nil_or_concat' xs with rfl | ⟨before, w, rfl⟩ <;> simp
  rw [queueInsertAfter_eq ring member fresh]
  exact ring.linkAfter_at fresh

/-- Adding an empty queue changes only the head of that queue. -/
theorem queueAdd_empty (ring : Ring l h xs) (ring' : Ring l n []) :
    Untouched [n] l (queueAdd h n l) := by
  have alone : l.next n = n := ring'.next_head
  have closes : l.next (l.prev h) = h := ring.next_prev List.mem_cons_self
  intro v other
  have other : v ≠ n := fun same => other (List.mem_singleton.mpr same)
  have kept : (Function.update l.next (l.prev h) n) n = n := by
    by_cases same : n = l.prev h
    · exact same ▸ Function.update_self _ _ _
    · exact (Function.update_of_ne same _ _).trans alone
  simp only [queueAdd, setNext, setPrev, alone, kept, Function.update_self]
  constructor
  · rw [Function.update_idem]
    exact congrFun (Function.update_eq_self_iff.mpr closes.symm) v
  · by_cases head : v = h
    · rw [head, Function.update_self]
    · rw [Function.update_of_ne head, Function.update_of_ne other]

theorem queueAdd_ring (ring : Ring l h xs) (ring' : Ring l n ys)
    (apart : List.Disjoint (h :: xs) (n :: ys)) :
    Ring (queueAdd h n l) h (xs ++ ys) ∧ Untouched (h :: xs ++ n :: ys) l (queueAdd h n l) := by
  have last : n ≠ l.prev h := fun same =>
    apart (same ▸ ring.prev_mem List.mem_cons_self) List.mem_cons_self
  cases ys with
  | nil =>
    have kept := queueAdd_empty ring ring'
    have fresh : ∀ v ∈ h :: xs, v ∉ [n] := fun v member single => apart member single
    rw [List.append_nil]
    exact ⟨ring.congr (fun v member => (kept v (fresh v member)).1)
      (fun v member => (kept v (fresh v member)).2),
      fun v outside => kept v fun single => outside (List.mem_append_right _ single)⟩
  | cons y ys =>
    have some_node : l.next n ≠ n := by
      rw [ring'.next_head]
      exact fun same => (List.nodup_cons.mp ring'.distinct).1 (same ▸ List.mem_cons_self)
    rw [queueAdd_eq last some_node]
    exact ⟨ring.splice ring' apart, ring.splice_untouched ring'⟩

theorem queueSplit_ring (ring : Ring l h (xs ++ q :: ys)) (fresh : n ∉ h :: (xs ++ q :: ys)) :
    Ring (queueSplit h q n l) h xs ∧ Ring (queueSplit h q n l) n (q :: ys) ∧
      Untouched (n :: h :: (xs ++ q :: ys)) l (queueSplit h q n l) := by
  have member : q ∈ h :: (xs ++ q :: ys) := by simp
  have new : n ≠ q := fun same => fresh (same ▸ member)
  rw [queueSplit_eq new]
  exact ⟨(ring.cut fresh).1, (ring.cut fresh).2, ring.cut_untouched member⟩

/-- Cutting a queue and putting the parts together again. -/
theorem queueSplit_add (ring : Ring l h (xs ++ q :: ys)) (fresh : n ∉ h :: (xs ++ q :: ys)) :
    Ring (queueAdd h n (queueSplit h q n l)) h (xs ++ q :: ys) := by
  obtain ⟨first, second, -⟩ := queueSplit_ring ring fresh
  have distinct : (h :: xs ++ q :: ys).Nodup := ring.distinct
  have apart : List.Disjoint (h :: xs) (n :: q :: ys) := by
    intro v here there
    rcases List.mem_cons.mp there with rfl | there
    · exact fresh (List.mem_append_left (q :: ys) here)
    · exact (List.nodup_append.mp distinct).2.2 v here v there rfl
  exact (queueAdd_ring first second apart).1

structure Operations (l : Links ν) (h : ν) (xs : List ν) : Prop where
  insertHead : ∀ x ∉ h :: xs, Ring (queueInsertHead h x l) h (x :: xs) ∧
    Untouched (x :: h :: xs) l (queueInsertHead h x l)
  insertAfter : ∀ ys q zs, xs = ys ++ q :: zs → ∀ x ∉ h :: xs,
    Ring (queueInsertHead q x l) h (ys ++ q :: x :: zs) ∧
      Untouched (x :: h :: xs) l (queueInsertHead q x l)
  insertTail : ∀ x ∉ h :: xs, Ring (queueInsertTail h x l) h (xs ++ [x]) ∧
    Untouched (x :: h :: xs) l (queueInsertTail h x l)
  remove : ∀ ys x zs, xs = ys ++ x :: zs → Ring (queueRemove x l) h (ys ++ zs) ∧
    Untouched (h :: xs) l (queueRemove x l)
  split : ∀ ys q zs, xs = ys ++ q :: zs → ∀ n ∉ h :: xs,
    Ring (queueSplit h q n l) h ys ∧ Ring (queueSplit h q n l) n (q :: zs) ∧
      Untouched (n :: h :: xs) l (queueSplit h q n l)
  add : ∀ n ys, Ring l n ys → List.Disjoint (h :: xs) (n :: ys) →
    Ring (queueAdd h n l) h (xs ++ ys) ∧ Untouched (h :: xs ++ n :: ys) l (queueAdd h n l)
  restored : ∀ q ∈ xs, ∀ n ∉ h :: xs, Ring (queueAdd h n (queueSplit h q n l)) h xs

/-- On every well-formed queue the macros compute the operations on the list of its nodes. -/
theorem queue_operations (ring : Ring l h xs) : Operations l h xs where
  insertHead x fresh := by
    rw [queueInsertHead_eq ring fresh]
    exact ⟨ring.linkAfter fresh, ring.linkAfter_untouched List.mem_cons_self⟩
  insertAfter ys q zs eq x fresh := by
    subst eq
    have member : q ∈ h :: (ys ++ q :: zs) := by simp
    rw [queueInsertAfter_eq ring member fresh]
    refine ⟨?_, ring.linkAfter_untouched member⟩
    have parts : ys ++ q :: zs = (ys ++ [q]) ++ zs := by simp
    have place : (ys ++ [q]).getLastD h = q := by simp
    rw [parts] at ring fresh
    have inserted := ring.linkAfter_at fresh
    rw [place] at inserted
    simpa using inserted
  insertTail x fresh := by
    rw [queueInsertTail_eq]
    exact ⟨ring.linkBefore fresh, ring.linkBefore_untouched List.mem_cons_self⟩
  remove ys x zs eq := by
    subst eq
    refine ⟨queueRemove_ring ring, ?_⟩
    rw [queueRemove_eq ring.apart.1]
    exact ring.unlink_untouched (by simp)
  split ys q zs eq n fresh := by
    subst eq
    exact queueSplit_ring ring fresh
  add n ys ring' apart := queueAdd_ring ring ring' apart
  restored q member n fresh := by
    obtain ⟨ys, zs, rfl⟩ := List.append_of_mem member
    exact queueSplit_add ring fresh

/-- A queue with two nodes. -/
theorem queue_operations_two :
    Operations (queueInsertTail 0 2 (queueInsertTail 0 1 (queueInit 0 ⟨id, id⟩))) (0 : Nat) [1, 2] :=
  queue_operations (queueInsertTail_ring (queueInsertTail_ring queueInit_ring (by decide))
    (by decide))

end Ngx.Datastruct
