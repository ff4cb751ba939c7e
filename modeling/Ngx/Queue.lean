import Ngx.LinkedRing

/-! The queue macros, store by store. -/
namespace Ngx

open LinkedRing

variable {ν : Type*} [DecidableEq ν]

def setNext (x y : ν) (l : Links ν) : Links ν := { l with next := Function.update l.next x y }

def setPrev (x y : ν) (l : Links ν) : Links ν := { l with prev := Function.update l.prev x y }

def queueInit (h : ν) (l : Links ν) : Links ν := setNext h h (setPrev h h l)

def queueInsertTail (h x : ν) (l : Links ν) : Links ν :=
  let l := setPrev x (l.prev h) l
  let l := setNext (l.prev x) x l
  let l := setNext x h l
  setPrev h x l

def queueInsertHead (h x : ν) (l : Links ν) : Links ν :=
  let l := setNext x (l.next h) l
  let l := setPrev (l.next x) x l
  let l := setPrev x h l
  setNext h x l

def queueRemove (x : ν) (l : Links ν) : Links ν :=
  let l := setPrev (l.next x) (l.prev x) l
  setNext (l.prev x) (l.next x) l

variable {l : Links ν} {h x : ν} {xs ys : List ν}

theorem queueInit_ring : Ring (queueInit h l) h [] where
  segment := ⟨Function.update_self _ _ _, Function.update_self _ _ _⟩
  distinct := List.nodup_singleton h

theorem queueInsertTail_eq : queueInsertTail h x l = l.linkBefore h x := by
  simp [queueInsertTail, setNext, setPrev, Links.linkBefore]

/-- What the third store writes is what the backward link of the first node held. -/
theorem queueInsertHead_eq (ring : Ring l h xs) (fresh : x ∉ h :: xs) :
    queueInsertHead h x l = l.linkAfter h x := by
  have joined : l.prev (l.next h) = h := by
    cases xs with
    | nil => rw [ring.segment.1, ring.segment.2]
    | cons y ys => rw [ring.segment.1.1, ring.segment.1.2]
  have other : x ≠ h := fun same => fresh (same ▸ List.mem_cons_self)
  have first : x ≠ l.next h := by
    intro same
    rw [ring.next_head] at same
    cases xs with
    | nil => exact other same
    | cons y ys => exact fresh (same ▸ List.mem_cons_of_mem h List.mem_cons_self)
  simp [queueInsertHead, setNext, setPrev, Links.linkAfter, Links.linkBefore, joined,
    Function.update_comm other, Function.update_comm first]

/-- The second store reads links of `x` that the first has left as they were. -/
theorem queueRemove_eq : queueRemove x l = l.unlink x := by
  have kept : Function.update l.prev (l.next x) (l.prev x) x = l.prev x := by
    by_cases alone : x = l.next x
    · exact alone ▸ Function.update_self _ _ _
    · exact Function.update_of_ne alone _ _
  simp [queueRemove, setNext, setPrev, Links.unlink, kept]

theorem queueInsertTail_ring (ring : Ring l h xs) (fresh : x ∉ h :: xs) :
    Ring (queueInsertTail h x l) h (xs ++ [x]) := by
  rw [queueInsertTail_eq]
  exact ring.linkBefore fresh

theorem queueInsertHead_ring (ring : Ring l h xs) (fresh : x ∉ h :: xs) :
    Ring (queueInsertHead h x l) h (x :: xs) := by
  rw [queueInsertHead_eq ring fresh]
  exact ring.linkAfter fresh

theorem queueRemove_ring (ring : Ring l h (xs ++ x :: ys)) :
    Ring (queueRemove x l) h (xs ++ ys) := by
  rw [queueRemove_eq]
  exact ring.unlink

/-- A removed node still leads to the node that followed it. -/
theorem queueRemove_next (ring : Ring l h (xs ++ x :: ys)) :
    (queueRemove x l).next x = ys.headD h := by
  rw [queueRemove_eq, Links.unlink_next ring.apart.1]
  exact ring.next_member

end Ngx
