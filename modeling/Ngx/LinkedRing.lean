import Mathlib.Logic.Function.Basic
import Mathlib.Data.List.Nodup

/-! Circular doubly linked lists that run through the nodes themselves, with a head that is no
member. A ring is read off as the list of its members. -/
namespace LinkedRing

variable {ν : Type*}

structure Links (ν : Type*) where
  next : ν → ν
  prev : ν → ν

section Segments

variable {l l' : Links ν} {x y z n : ν} {xs ys : List ν}

def Links.Joined (l : Links ν) (x y : ν) : Prop := l.next x = y ∧ l.prev y = x

/-- From `x` one comes to `z` through exactly the nodes `ys`. -/
def Links.Segment (l : Links ν) : ν → List ν → ν → Prop
  | x, [], z => l.Joined x z
  | x, y :: ys, z => l.Joined x y ∧ l.Segment y ys z

theorem segment_append :
    ∀ {x : ν} {xs : List ν}, l.Segment x (xs ++ y :: ys) z ↔ l.Segment x xs y ∧ l.Segment y ys z
  | _, [] => Iff.rfl
  | x, w :: xs => by
    simp only [List.cons_append, Links.Segment, segment_append (x := w), and_assoc]

theorem Links.Segment.next (segment : l.Segment x ys z) : l.next x = ys.headD z := by
  cases ys with
  | nil => exact segment.1
  | cons y ys => exact segment.1.1

theorem Links.Segment.prev_mem : ∀ {x : ν} {ys : List ν}, l.Segment x ys z → l.prev z ∈ x :: ys
  | x, [], segment => by
    rw [segment.2]
    exact List.mem_cons_self
  | _, _ :: _, segment => List.mem_cons_of_mem _ segment.2.prev_mem

theorem Links.Segment.next_prev : ∀ {x : ν} {ys : List ν}, l.Segment x ys z → l.next (l.prev z) = z
  | _, [], segment => by
    rw [segment.2]
    exact segment.1
  | _, _ :: _, segment => segment.2.next_prev

theorem Links.Segment.prev (segment : l.Segment x ys z) : l.prev z = ys.getLastD x := by
  induction ys generalizing x with
  | nil => exact segment.2
  | cons y ys ih => exact (ih segment.2).trans List.getLastD_cons.symm

theorem Links.Segment.unique : ∀ {x : ν} {xs ys : List ν}, l.Segment x xs z → l.Segment x ys z →
    z ∉ xs → z ∉ ys → xs = ys
  | _, [], [], _, _, _, _ => rfl
  | _, [], _ :: _, left, right, _, absent =>
    (absent (left.1.symm.trans right.1.1 ▸ List.mem_cons_self)).elim
  | _, _ :: _, [], left, right, absent, _ =>
    (absent (right.1.symm.trans left.1.1 ▸ List.mem_cons_self)).elim
  | _, v :: xs, w :: ys, left, right, missing, absent => by
    have same : v = w := left.1.1.symm.trans right.1.1
    subst same
    rw [left.2.unique right.2 (fun member => missing (List.mem_cons_of_mem v member))
      fun member => absent (List.mem_cons_of_mem v member)]

/-- A segment depends only on the forward links of its nodes but the last, and the backward
links of its nodes but the first. -/
theorem Links.Segment.congr : ∀ {x : ν} {ys : List ν}, l.Segment x ys z →
    (∀ v ∈ x :: ys, l'.next v = l.next v) → (∀ v ∈ ys ++ [z], l'.prev v = l.prev v) →
    l'.Segment x ys z
  | x, [], segment, next, prev => by
    constructor
    · exact (next x List.mem_cons_self).trans segment.1
    · exact (prev z List.mem_cons_self).trans segment.2
  | x, y :: ys, segment, next, prev => by
    refine ⟨⟨?_, ?_⟩, ?_⟩
    · exact (next x List.mem_cons_self).trans segment.1.1
    · exact (prev y List.mem_cons_self).trans segment.1.2
    · apply segment.2.congr
      · intro v member
        exact next v (List.mem_cons_of_mem x member)
      · intro v member
        exact prev v (List.mem_cons_of_mem y member)

/-- The last link of a segment is led to another node. -/
theorem Links.Segment.retarget : ∀ {x : ν} {ys : List ν}, l.Segment x ys z → (x :: ys).Nodup →
    (∀ v ∈ x :: ys, v ≠ l.prev z → l'.next v = l.next v) →
    (∀ v ∈ ys, l'.prev v = l.prev v) → l'.Joined (l.prev z) n → l'.Segment x ys n
  | x, [], segment, _, _, _, joined => by
    have last : l.prev z = x := segment.2
    exact last ▸ joined
  | x, y :: ys, segment, distinct, next, prev, joined => by
    have fresh : x ≠ l.prev z := by
      intro same
      have member := segment.2.prev_mem
      rw [← same] at member
      exact (List.nodup_cons.mp distinct).1 member
    refine ⟨⟨?_, ?_⟩, ?_⟩
    · exact (next x List.mem_cons_self fresh).trans segment.1.1
    · exact (prev y List.mem_cons_self).trans segment.1.2
    · apply segment.2.retarget (List.nodup_cons.mp distinct).2 ?_ ?_ joined
      · intro v member
        exact next v (List.mem_cons_of_mem x member)
      · intro v member
        exact prev v (List.mem_cons_of_mem y member)

end Segments

/-- The members of the ring around `h`, in the order of the forward links. -/
structure Ring (l : Links ν) (h : ν) (xs : List ν) : Prop where
  segment : l.Segment h xs h
  distinct : (h :: xs).Nodup

variable {l l' : Links ν} {h x : ν} {xs ys : List ν}

theorem Ring.unique (ring : Ring l h xs) (ring' : Ring l h ys) : xs = ys :=
  ring.segment.unique ring'.segment (List.nodup_cons.mp ring.distinct).1
    (List.nodup_cons.mp ring'.distinct).1

theorem Ring.next_head (ring : Ring l h xs) : l.next h = xs.headD h := ring.segment.next

theorem Ring.prev_head (ring : Ring l h xs) : l.prev h = xs.getLastD h := ring.segment.prev

theorem Ring.congr (ring : Ring l h xs) (next : ∀ v ∈ h :: xs, l'.next v = l.next v)
    (prev : ∀ v ∈ h :: xs, l'.prev v = l.prev v) : Ring l' h xs where
  segment := ring.segment.congr next fun v member =>
    prev v ((List.perm_append_singleton h xs).mem_iff.mp member)
  distinct := ring.distinct

/-- Any other node of the ring can be taken for its head. -/
theorem Ring.turn : Ring l h (xs ++ x :: ys) ↔ Ring l x (ys ++ h :: xs) := by
  have turned : (ys ++ h :: xs).Perm (h :: (xs ++ ys)) :=
    List.perm_middle.trans (List.perm_append_comm.cons h)
  have perm : (h :: (xs ++ x :: ys)).Perm (x :: (ys ++ h :: xs)) :=
    (List.perm_middle.cons h).trans ((List.Perm.swap x h _).trans (turned.symm.cons x))
  constructor
  · rintro ⟨segment, nodup⟩
    obtain ⟨first, second⟩ := segment_append.mp segment
    exact ⟨segment_append.mpr ⟨second, first⟩, perm.nodup_iff.mp nodup⟩
  · rintro ⟨segment, nodup⟩
    obtain ⟨second, first⟩ := segment_append.mp segment
    exact ⟨segment_append.mpr ⟨first, second⟩, perm.nodup_iff.mpr nodup⟩

theorem Ring.rotate : Ring l h (x :: xs) ↔ Ring l x (xs ++ [h]) := by
  rw [← List.nil_append (x :: xs)]
  exact Ring.turn

/-- A member stands in one place only. -/
theorem Ring.once (ring : Ring l h (xs ++ x :: ys)) : x ∉ h :: (xs ++ ys) := by
  have distinct : (h :: xs ++ x :: ys).Nodup := ring.distinct
  exact (List.nodup_cons.mp (List.perm_middle.nodup_iff.mp distinct)).1

/-- Every node of a ring can be its head. -/
theorem Ring.headed {v : ν} (ring : Ring l h xs) (member : v ∈ h :: xs) :
    ∃ ys, Ring l v ys ∧ ∀ w, w ∈ v :: ys ↔ w ∈ h :: xs := by
  rcases List.mem_cons.mp member with rfl | member
  · exact ⟨xs, ring, fun _ => Iff.rfl⟩
  · obtain ⟨before, after, rfl⟩ := List.append_of_mem member
    refine ⟨_, Ring.turn.mp ring, fun w => ?_⟩
    simp only [List.mem_cons, List.mem_append]
    tauto

theorem Ring.next_mem {v : ν} (ring : Ring l h xs) (member : v ∈ h :: xs) : l.next v ∈ h :: xs := by
  obtain ⟨ys, turned, same⟩ := ring.headed member
  rw [← same, turned.next_head]
  cases ys with
  | nil => exact List.mem_cons_self
  | cons y ys => exact List.mem_cons_of_mem v List.mem_cons_self

theorem Ring.prev_mem {v : ν} (ring : Ring l h xs) (member : v ∈ h :: xs) : l.prev v ∈ h :: xs := by
  obtain ⟨ys, turned, same⟩ := ring.headed member
  exact (same _).mp turned.segment.prev_mem

theorem Ring.next_prev {v : ν} (ring : Ring l h xs) (member : v ∈ h :: xs) :
    l.next (l.prev v) = v := by
  obtain ⟨ys, turned, -⟩ := ring.headed member
  exact turned.segment.next_prev

def Untouched (vs : List ν) (l l' : Links ν) : Prop :=
  ∀ v ∉ vs, l'.next v = l.next v ∧ l'.prev v = l.prev v

theorem Ring.next_member (ring : Ring l h (xs ++ x :: ys)) : l.next x = ys.headD h :=
  (segment_append.mp ring.segment).2.next

theorem Ring.prev_member (ring : Ring l h (xs ++ x :: ys)) : l.prev x = xs.getLastD h :=
  (segment_append.mp ring.segment).1.prev

theorem Ring.next_at (ring : Ring l h xs) {i : Nat} (inside : i + 1 < xs.length) :
    l.next xs[i] = xs[i + 1] := by
  have here : xs.take i ++ xs[i] :: xs.drop (i + 1) = xs := by simp
  have later : xs.drop (i + 1) = xs[i + 1] :: xs.drop (i + 2) := List.drop_eq_getElem_cons inside
  rw [← here] at ring
  rw [ring.next_member, later, List.headD_cons]

/-- The last member is at the last position. -/
theorem Ring.last_iff (ring : Ring l h xs) {i : Nat} (inside : i < xs.length) :
    xs[i] = l.prev h ↔ i + 1 = xs.length := by
  have some_member : xs ≠ [] := List.ne_nil_of_length_pos (Nat.zero_lt_of_lt inside)
  have last : l.prev h = xs[xs.length - 1] := by
    rw [ring.prev_head, List.getLastD_eq_getLast?, List.getLast?_eq_getElem?,
      List.getElem?_eq_getElem, Option.getD_some]
  rw [last, (List.nodup_cons.mp ring.distinct).2.getElem_inj_iff]
  omega

/-- The node before a member, and the node after it, are others. -/
theorem Ring.apart (ring : Ring l h (xs ++ x :: ys)) : l.prev x ≠ x ∧ l.next x ≠ x := by
  obtain ⟨before, after⟩ := segment_append.mp ring.segment
  obtain ⟨fresh, distinct⟩ := List.nodup_cons.mp ring.distinct
  obtain ⟨-, after_distinct, disjoint⟩ := List.nodup_append.mp distinct
  constructor
  · intro same
    have member := before.prev_mem
    rw [same] at member
    rcases List.mem_cons.mp member with head | earlier
    · exact fresh (head ▸ List.mem_append_right xs List.mem_cons_self)
    · exact disjoint x earlier x List.mem_cons_self rfl
  · intro same
    have next := after.next
    rw [same] at next
    cases ys with
    | nil => exact fresh (next ▸ List.mem_append_right xs List.mem_cons_self)
    | cons y ys =>
      apply (List.nodup_cons.mp after_distinct).1
      exact next ▸ List.mem_cons_self

section Operations

variable [DecidableEq ν]

/-- The neighbours of `x` are joined; the links of `x` itself stay. -/
def Links.unlink (x : ν) (l : Links ν) : Links ν where
  next := Function.update l.next (l.prev x) (l.next x)
  prev := Function.update l.prev (l.next x) (l.prev x)

def Links.linkBefore (h x : ν) (l : Links ν) : Links ν where
  next := Function.update (Function.update l.next (l.prev h) x) x h
  prev := Function.update (Function.update l.prev x (l.prev h)) h x

/-- A node that has been taken out still leads to the node that followed it. -/
theorem Links.unlink_next (apart : l.prev x ≠ x) : (l.unlink x).next x = l.next x :=
  Function.update_of_ne apart.symm _ _

theorem Ring.unlink (ring : Ring l h (xs ++ x :: ys)) : Ring (l.unlink x) h (xs ++ ys) := by
  obtain ⟨before, after⟩ := segment_append.mp ring.segment
  have distinct : (h :: xs ++ x :: ys).Nodup := ring.distinct
  obtain ⟨before_distinct, after_distinct, disjoint⟩ := List.nodup_append.mp distinct
  have kept : (h :: xs ++ ys).Nodup :=
    distinct.sublist (List.Sublist.append_left (List.sublist_cons_self x ys) (h :: xs))
  have joined : (l.unlink x).Joined (l.prev x) (l.next x) :=
    ⟨Function.update_self _ _ _, Function.update_self _ _ _⟩
  have forward : ∀ v, v ≠ l.prev x → (l.unlink x).next v = l.next v :=
    fun v apart => Function.update_of_ne apart _ _
  have backward : ∀ v, v ≠ l.next x → (l.unlink x).prev v = l.prev v :=
    fun v apart => Function.update_of_ne apart _ _
  refine ⟨?_, kept⟩
  have closes (away : l.next x ∉ xs) : (l.unlink x).Segment h xs (l.next x) := by
    apply before.retarget before_distinct (fun v _ => forward v) ?_ joined
    intro v member
    apply backward
    rintro rfl
    exact away member
  cases ys with
  | nil =>
    have next : l.next x = h := after.next
    rw [List.append_nil]
    rw [next] at closes
    exact closes (List.nodup_cons.mp before_distinct).1
  | cons y ys =>
    have next : l.next x = y := after.next
    have away : y ∉ xs := fun member => disjoint y (List.mem_cons_of_mem h member) y
      (List.mem_cons_of_mem x List.mem_cons_self) rfl
    rw [next] at closes
    refine segment_append.mpr ⟨closes away, ?_⟩
    apply after.2.congr
    · intro v member
      apply forward
      rintro rfl
      exact disjoint _ before.prev_mem _ (List.mem_cons_of_mem x member) rfl
    · intro v member
      apply backward
      rintro rfl
      rw [next] at member
      rcases List.mem_append.mp member with inside | last
      · exact (List.nodup_cons.mp (List.nodup_cons.mp after_distinct).2).1 inside
      · have head : y = h := List.mem_singleton.mp last
        exact disjoint h List.mem_cons_self y (List.mem_cons_of_mem x List.mem_cons_self) head.symm

theorem Ring.linkBefore (ring : Ring l h xs) (fresh : x ∉ h :: xs) :
    Ring (l.linkBefore h x) h (xs ++ [x]) := by
  have other : x ≠ h := fun same => fresh (same ▸ List.mem_cons_self)
  have apart : x ∉ xs := fun member => fresh (List.mem_cons_of_mem h member)
  have last : l.prev h ∈ h :: xs := ring.segment.prev_mem
  have moved : l.prev h ≠ x := fun same => fresh (same ▸ last)
  obtain ⟨headless, distinct⟩ := List.nodup_cons.mp ring.distinct
  refine ⟨segment_append.mpr ⟨?_, ?_, ?_⟩, ?_⟩
  · apply ring.segment.retarget ring.distinct
    · intro v member away
      have different : v ≠ x := fun same => fresh (same ▸ member)
      exact (Function.update_of_ne different _ _).trans (Function.update_of_ne away _ _)
    · intro v member
      have different : v ≠ x := fun same => apart (same ▸ member)
      have inside : v ≠ h := fun same => headless (same ▸ member)
      exact (Function.update_of_ne inside _ _).trans (Function.update_of_ne different _ _)
    · constructor
      · exact (Function.update_of_ne moved _ _).trans (Function.update_self _ _ _)
      · exact (Function.update_of_ne other _ _).trans (Function.update_self _ _ _)
  · exact Function.update_self _ _ _
  · exact Function.update_self _ _ _
  · show ((h :: xs) ++ [x]).Nodup
    apply ring.distinct.append (List.nodup_singleton x)
    intro v member single
    exact fresh (List.mem_singleton.mp single ▸ member)

theorem Ring.unlink_untouched (ring : Ring l h xs) (member : x ∈ xs) :
    Untouched (h :: xs) l (l.unlink x) := by
  intro v outside
  have inside := List.mem_cons_of_mem h member
  have not_before : v ≠ l.prev x := fun same => outside (same ▸ ring.prev_mem inside)
  have not_after : v ≠ l.next x := fun same => outside (same ▸ ring.next_mem inside)
  exact ⟨Function.update_of_ne not_before _ _, Function.update_of_ne not_after _ _⟩

theorem Ring.linkBefore_untouched {w : ν} (ring : Ring l h xs) (member : w ∈ h :: xs) :
    Untouched (x :: h :: xs) l (l.linkBefore w x) := by
  intro v outside
  obtain ⟨other, outside⟩ := List.ne_and_not_mem_of_not_mem_cons outside
  constructor
  · have not_last : v ≠ l.prev w := fun same => outside (same ▸ ring.prev_mem member)
    exact (Function.update_of_ne other _ _).trans (Function.update_of_ne not_last _ _)
  · have not_here : v ≠ w := fun same => outside (same ▸ member)
    exact (Function.update_of_ne not_here _ _).trans (Function.update_of_ne other _ _)

def Links.linkAfter (h x : ν) (l : Links ν) : Links ν := l.linkBefore (l.next h) x

theorem Ring.linkAfter (ring : Ring l h xs) (fresh : x ∉ h :: xs) :
    Ring (l.linkAfter h x) h (x :: xs) := by
  have next : l.next h = xs.headD h := ring.next_head
  cases xs with
  | nil =>
    have alone : l.next h = h := next
    rw [Links.linkAfter, alone]
    exact ring.linkBefore fresh
  | cons y ys =>
    have follows : l.next h = y := next
    have turned : Ring l y (ys ++ [h]) := Ring.rotate.mp ring
    have other : x ∉ y :: (ys ++ [h]) := by
      intro member
      apply fresh
      exact (List.perm_append_singleton h (y :: ys)).mem_iff.mp member
    have inserted := turned.linkBefore other
    rw [Links.linkAfter, follows]
    apply Ring.rotate.mpr
    exact Ring.rotate.mpr inserted

/-- `x` is put behind any node of the ring, the head included. -/
theorem Ring.linkAfter_at (ring : Ring l h (xs ++ ys)) (fresh : x ∉ h :: (xs ++ ys)) :
    Ring (l.linkAfter (xs.getLastD h) x) h (xs ++ x :: ys) := by
  rcases List.eq_nil_or_concat' xs with rfl | ⟨before, w, rfl⟩
  · exact ring.linkAfter fresh
  · have last : (before ++ [w]).getLastD h = w := by simp
    rw [List.append_assoc] at ring fresh
    have turned : Ring l w (ys ++ h :: before) := Ring.turn.mp ring
    have other : x ∉ w :: (ys ++ h :: before) := by
      simp only [List.mem_cons, List.mem_append, List.singleton_append] at fresh ⊢
      tauto
    rw [last, List.append_assoc]
    exact Ring.turn.mpr (turned.linkAfter other)

theorem Ring.linkAfter_untouched {w : ν} (ring : Ring l h xs) (member : w ∈ h :: xs) :
    Untouched (x :: h :: xs) l (l.linkAfter w x) :=
  ring.linkBefore_untouched (ring.next_mem member)

/-- The ring is cut before `q`; the part from `q` on gets the head `n`. -/
def Links.cut (h q n : ν) (l : Links ν) : Links ν where
  next := Function.update (Function.update (Function.update l.next (l.prev h) n) n q) (l.prev q) h
  prev := Function.update (Function.update (Function.update l.prev n (l.prev h)) h (l.prev q)) q n

theorem Ring.cut {q n : ν} (ring : Ring l h (xs ++ q :: ys)) (fresh : n ∉ h :: (xs ++ q :: ys)) :
    Ring (l.cut h q n) h xs ∧ Ring (l.cut h q n) n (q :: ys) := by
  obtain ⟨first, second⟩ := segment_append.mp ring.segment
  have distinct : (h :: xs ++ q :: ys).Nodup := ring.distinct
  obtain ⟨first_distinct, second_distinct, disjoint⟩ := List.nodup_append.mp distinct
  have before : l.prev q ∈ h :: xs := first.prev_mem
  have last : l.prev h ∈ q :: ys := second.prev_mem
  have apart : l.prev q ≠ l.prev h := disjoint _ before _ last
  have new : n ∉ h :: xs ∧ n ∉ q :: ys := by
    rw [← List.cons_append, List.mem_append, not_or] at fresh
    exact fresh
  have forward : ∀ v, v ≠ l.prev h → v ≠ n → v ≠ l.prev q → (l.cut h q n).next v = l.next v := by
    intro v not_last not_new not_before
    exact (Function.update_of_ne not_before _ _).trans
      ((Function.update_of_ne not_new _ _).trans (Function.update_of_ne not_last _ _))
  have backward : ∀ v, v ≠ n → v ≠ h → v ≠ q → (l.cut h q n).prev v = l.prev v := by
    intro v not_new not_head not_cut
    exact (Function.update_of_ne not_cut _ _).trans
      ((Function.update_of_ne not_head _ _).trans (Function.update_of_ne not_new _ _))
  have differs : ∀ {v w}, v ∈ h :: xs → w ∈ q :: ys → v ≠ w := fun mem mem' => disjoint _ mem _ mem'
  have head : h ∈ h :: xs := List.mem_cons_self
  have start : q ∈ q :: ys := List.mem_cons_self
  have closes_first : (l.cut h q n).Joined (l.prev q) h := by
    constructor
    · exact Function.update_self _ _ _
    · exact (Function.update_of_ne (differs head start) _ _).trans (Function.update_self _ _ _)
  have closes_second : (l.cut h q n).Joined (l.prev h) n := by
    constructor
    · have other : l.prev h ≠ n := fun same => new.2 (same ▸ last)
      exact (Function.update_of_ne apart.symm _ _).trans
        ((Function.update_of_ne other _ _).trans (Function.update_self _ _ _))
    · have cut_other : n ≠ q := fun same => new.2 (same ▸ start)
      have head_other : n ≠ h := fun same => new.1 (same ▸ head)
      exact (Function.update_of_ne cut_other _ _).trans
        ((Function.update_of_ne head_other _ _).trans (Function.update_self _ _ _))
  have opens : (l.cut h q n).Joined n q := by
    constructor
    · have other : n ≠ l.prev q := fun same => new.1 (same ▸ before)
      exact (Function.update_of_ne other _ _).trans (Function.update_self _ _ _)
    · exact Function.update_self _ _ _
  constructor
  · refine ⟨first.retarget first_distinct ?_ ?_ closes_first, first_distinct⟩
    · intro v member other
      exact forward v (differs member last) (fun same => new.1 (same ▸ member)) other
    · intro v member
      have inside := List.mem_cons_of_mem h member
      exact backward v (fun same => new.1 (same ▸ inside))
        (fun same => (List.nodup_cons.mp first_distinct).1 (same ▸ member)) (differs inside start)
  · refine ⟨⟨opens, second.retarget second_distinct ?_ ?_ closes_second⟩,
      List.nodup_cons.mpr ⟨new.2, second_distinct⟩⟩
    · intro v member other
      exact forward v other (fun same => new.2 (same ▸ member)) (differs before member).symm
    · intro v member
      have inside := List.mem_cons_of_mem q member
      exact backward v (fun same => new.2 (same ▸ inside)) (differs head inside).symm
        (fun same => (List.nodup_cons.mp second_distinct).1 (same ▸ member))

theorem Ring.cut_untouched {q n : ν} (ring : Ring l h xs) (member : q ∈ h :: xs) :
    Untouched (n :: h :: xs) l (l.cut h q n) := by
  intro v outside
  obtain ⟨not_new, outside⟩ := List.ne_and_not_mem_of_not_mem_cons outside
  have other : ∀ {w}, w ∈ h :: xs → v ≠ w := fun inside same => outside (same ▸ inside)
  constructor
  · exact (Function.update_of_ne (other (ring.prev_mem member)) _ _).trans
      ((Function.update_of_ne not_new _ _).trans
        (Function.update_of_ne (other (ring.prev_mem List.mem_cons_self)) _ _))
  · exact (Function.update_of_ne (other member) _ _).trans
      ((Function.update_of_ne (other List.mem_cons_self) _ _).trans
        (Function.update_of_ne not_new _ _))

/-- The members of the ring around `n`, if it has any, are put behind those of the ring around
`h`. -/
def Links.splice (h n : ν) (l : Links ν) : Links ν where
  next := Function.update (Function.update l.next (l.prev h) (l.next n)) (l.prev n) h
  prev := Function.update (Function.update l.prev (l.next n) (l.prev h)) h (l.prev n)

theorem Ring.splice {n y : ν} (ring : Ring l h xs) (ring' : Ring l n (y :: ys))
    (apart : List.Disjoint (h :: xs) (n :: y :: ys)) :
    Ring (l.splice h n) h (xs ++ y :: ys) := by
  have last : l.prev h ∈ h :: xs := ring.segment.prev_mem
  obtain ⟨⟨first, -⟩, rest⟩ := ring'.segment
  obtain ⟨-, distinct⟩ := List.nodup_cons.mp ring'.distinct
  have end_mem : l.prev n ∈ y :: ys := rest.prev_mem
  have differs : ∀ {v w}, v ∈ h :: xs → w ∈ y :: ys → v ≠ w := fun mem mem' same =>
    apart mem (List.mem_cons_of_mem n (same ▸ mem'))
  have head : h ∈ h :: xs := List.mem_cons_self
  have start : y ∈ y :: ys := List.mem_cons_self
  have forward : ∀ v, v ≠ l.prev h → v ≠ l.prev n → (l.splice h n).next v = l.next v := by
    intro v not_last not_end
    exact (Function.update_of_ne not_end _ _).trans (Function.update_of_ne not_last _ _)
  have backward : ∀ v, v ≠ y → v ≠ h → (l.splice h n).prev v = l.prev v := by
    intro v not_first not_head
    exact (Function.update_of_ne not_head _ _).trans
      (Function.update_of_ne (first.symm ▸ not_first) _ _)
  have joins : (l.splice h n).Joined (l.prev h) y := by
    constructor
    · exact (Function.update_of_ne (differs last end_mem) _ _).trans
        ((Function.update_self _ _ _).trans first)
    · refine (Function.update_of_ne (differs head start).symm _ _).trans ?_
      rw [first]
      exact Function.update_self _ _ _
  have closes : (l.splice h n).Joined (l.prev n) h :=
    ⟨Function.update_self _ _ _, Function.update_self _ _ _⟩
  refine ⟨segment_append.mpr ⟨?_, ?_⟩, ?_⟩
  · apply ring.segment.retarget ring.distinct ?_ ?_ joins
    · intro v member other
      exact forward v other (differs member end_mem)
    · intro v member
      exact backward v (differs (List.mem_cons_of_mem h member) start)
        (fun same => (List.nodup_cons.mp ring.distinct).1 (same ▸ member))
  · apply rest.retarget distinct ?_ ?_ closes
    · intro v member other
      exact forward v (differs last member).symm other
    · intro v member
      exact backward v (fun same => (List.nodup_cons.mp distinct).1 (same ▸ member))
        (differs head (List.mem_cons_of_mem y member)).symm
  · rw [← List.cons_append]
    exact List.nodup_append.mpr ⟨ring.distinct, distinct, fun v mem w mem' => differs mem mem'⟩

theorem Ring.splice_untouched {n : ν} (ring : Ring l h xs) (ring' : Ring l n ys) :
    Untouched (h :: xs ++ n :: ys) l (l.splice h n) := by
  intro v outside
  rw [List.mem_append, not_or] at outside
  have other : ∀ {w}, w ∈ h :: xs → v ≠ w := fun inside same => outside.1 (same ▸ inside)
  have other' : ∀ {w}, w ∈ n :: ys → v ≠ w := fun inside same => outside.2 (same ▸ inside)
  constructor
  · exact (Function.update_of_ne (other' (ring'.prev_mem List.mem_cons_self)) _ _).trans
      (Function.update_of_ne (other (ring.prev_mem List.mem_cons_self)) _ _)
  · exact (Function.update_of_ne (other List.mem_cons_self) _ _).trans
      (Function.update_of_ne (other' (ring'.next_mem List.mem_cons_self)) _ _)

end Operations

end LinkedRing
