import Ngx.Spans
import Mathlib.Data.List.Perm.Basic

/-! Regions that an allocator hands out and takes back, and what is read in between. -/
namespace Lifetimes

open Spans

variable {α : Type*}

/-- A region that was handed out, a pointer that was given back (a null pointer gives nothing
back), and a span that was read. -/
inductive Event (α : Type*) where
  | obtained (s : Span α)
  | freed (a : Option α)
  | read (s : Span α)
  deriving DecidableEq, Repr

variable [Preorder α]

section Survivors

variable [DecidableEq α] [DecidableLE α]

/-- The regions in use after an event. There is none after a region that overlaps one in use, and
none after a pointer that does not start exactly one region in use. -/
def Event.after (live : List (Span α)) : Event α → Option (List (Span α))
  | .obtained s => if ∀ r ∈ live, s.Apart r then some (s :: live) else none
  | .freed none => some live
  | .freed (some a) =>
    if live.countP (fun r => r.start = a) = 1 then some (live.filter fun r => r.start ≠ a) else none
  | .read _ => some live

def survivors (live : List (Span α)) (trace : List (Event α)) : Option (List (Span α)) :=
  trace.foldlM Event.after live

/-- The region `r` was given back in the trace, and nothing of it was handed out again. -/
def Dead (trace : List (Event α)) (r : Span α) : Prop :=
  ∃ before behind live, trace = before ++ .freed (some r.start) :: behind ∧
    survivors [] before = some live ∧ r ∈ live ∧ ∀ s, .obtained s ∈ behind → s.Apart r

/-- All that was handed out is given back, each region once, and none is read after that. -/
structure Settled (trace : List (Event α)) : Prop where
  returned : survivors [] trace = some []
  unread : ∀ before s behind, trace = before ++ .read s :: behind → ∀ r, Dead before r → s.Apart r

end Survivors

/-- With the regions `live` in use the events can happen, and each reads inside a region in use;
`left` is in use afterwards. -/
inductive Uses : List (Span α) → List (Event α) → List (Span α) → Prop where
  | nil {live left} (same : live.Perm left) : Uses live [] left
  | obtained {live left s trace} (apart : ∀ r ∈ live, s.Apart r) (rest : Uses (s :: live) trace left) :
      Uses live (.obtained s :: trace) left
  | null {live left trace} (rest : Uses live trace left) : Uses live (.freed none :: trace) left
  | freed {live others left r trace} (here : live.Perm (r :: others))
      (other : ∀ x ∈ others, x.start ≠ r.start) (rest : Uses others trace left) :
      Uses live (.freed (some r.start) :: trace) left
  | read {live left s r trace} (member : r ∈ live) (inside : s.Within r)
      (rest : Uses live trace left) : Uses live (.read s :: trace) left

namespace Uses

variable {live live' left left' : List (Span α)} {trace trace' : List (Event α)} {s : Span α}

theorem perm (h : Uses live trace left) (same : live'.Perm live) : Uses live' trace left := by
  induction h generalizing live' with
  | nil eq => exact .nil (same.trans eq)
  | obtained apart _ ih =>
    exact .obtained (fun r member => apart r (same.subset member)) (ih (same.cons _))
  | null _ ih => exact .null (ih same)
  | freed here other _ ih => exact .freed (same.trans here) other (ih (List.Perm.refl _))
  | read member inside _ ih => exact .read (same.symm.subset member) inside (ih same)

theorem append (h : Uses live trace left) (h' : Uses left trace' left') :
    Uses live (trace ++ trace') left' := by
  induction h with
  | nil same => exact h'.perm same
  | obtained apart _ ih => exact .obtained apart (ih h')
  | null _ ih => exact .null (ih h')
  | freed here other _ ih => exact .freed here other (ih h')
  | read member inside _ ih => exact .read member inside (ih h')

theorem left_perm (h : Uses live trace left) (same : left.Perm left') : Uses live trace left' := by
  have whole := h.append (.nil same)
  rwa [List.append_nil] at whole

/-- Nothing but reads inside regions in use. -/
theorem reads (each : ∀ e ∈ trace, ∃ s, e = .read s ∧ ∃ r ∈ live, s.Within r) :
    Uses live trace live := by
  induction trace with
  | nil => exact .nil (List.Perm.refl live)
  | cons e trace ih =>
    obtain ⟨s, rfl, r, member, inside⟩ := each e List.mem_cons_self
    exact .read member inside (ih fun x later => each x (List.mem_cons_of_mem _ later))

/-- One of the regions in use is given back. -/
theorem free {others : List (Span α)} {r : Span α} (here : live.Perm (r :: others))
    (apart : live.Pairwise Span.Apart) (proper : ∀ s ∈ live, s.start < s.stop) :
    Uses live [.freed (some r.start)] others := by
  obtain ⟨first, -⟩ := List.pairwise_cons.mp ((here.pairwise_iff Span.Apart.symm).mp apart)
  obtain ⟨proper_r, proper_others⟩ := List.forall_mem_cons.mp
    fun s used => proper s (here.symm.subset used)
  refine .freed here (fun x used => ?_) (.nil (List.Perm.refl others))
  exact ((first x used).start_ne proper_r (proper_others x used)).symm

/-- What is in use stays apart. -/
theorem apart (h : Uses live trace left) (start : live.Pairwise Span.Apart) :
    left.Pairwise Span.Apart := by
  induction h with
  | nil same => exact (same.pairwise_iff Span.Apart.symm).mp start
  | obtained apart _ ih => exact ih (List.pairwise_cons.mpr ⟨apart, start⟩)
  | null _ ih => exact ih start
  | freed here _ _ ih =>
    exact ih (List.pairwise_cons.mp ((here.pairwise_iff Span.Apart.symm).mp start)).2
  | read _ _ _ ih => exact ih start

/-- What is apart from all that is in use stays so unless it is handed out. -/
theorem away {r : Span α} (h : Uses live trace left) (start : ∀ x ∈ live, x.Apart r)
    (new : ∀ s, .obtained s ∈ trace → s.Apart r) : ∀ x ∈ left, x.Apart r := by
  induction h with
  | nil same => exact fun x member => start x (same.symm.subset member)
  | obtained _ _ ih =>
    refine ih (fun x member => ?_) fun s later => new s (List.mem_cons_of_mem _ later)
    rcases List.mem_cons.mp member with rfl | member
    · exact new x List.mem_cons_self
    · exact start x member
  | null _ ih => exact ih start fun s later => new s (List.mem_cons_of_mem _ later)
  | freed here _ _ ih =>
    exact ih (fun x member => start x (here.symm.subset (List.mem_cons_of_mem _ member)))
      fun s later => new s (List.mem_cons_of_mem _ later)
  | read _ _ _ ih => exact ih start fun s later => new s (List.mem_cons_of_mem _ later)

theorem split (h : Uses live (trace ++ trace') left) :
    ∃ between, Uses live trace between ∧ Uses between trace' left := by
  induction trace generalizing live with
  | nil => exact ⟨live, .nil (List.Perm.refl live), h⟩
  | cons e trace ih =>
    cases h with
    | obtained apart rest =>
      obtain ⟨between, first, second⟩ := ih rest
      exact ⟨between, .obtained apart first, second⟩
    | null rest =>
      obtain ⟨between, first, second⟩ := ih rest
      exact ⟨between, .null first, second⟩
    | freed here other rest =>
      obtain ⟨between, first, second⟩ := ih rest
      exact ⟨between, .freed here other first, second⟩
    | read member inside rest =>
      obtain ⟨between, first, second⟩ := ih rest
      exact ⟨between, .read member inside first, second⟩

variable [DecidableEq α] [DecidableLE α]

theorem survivors_eq (h : Uses live trace left) :
    ∃ kept, survivors live trace = some kept ∧ kept.Perm left := by
  suffices all : ∀ {live'}, live'.Perm live →
      ∃ kept, survivors live' trace = some kept ∧ kept.Perm left from all (List.Perm.refl live)
  induction h with
  | nil same => exact fun first => ⟨_, rfl, first.trans same⟩
  | @obtained live left s trace apart _ ih =>
    intro live' first
    obtain ⟨kept, run, eq⟩ := ih (first.cons s)
    refine ⟨kept, ?_, eq⟩
    rw [survivors, List.foldlM_cons, Event.after,
      if_pos fun r member => apart r (first.subset member)]
    exact run
  | null _ ih => exact ih
  | @freed live others left r trace here other _ ih =>
    intro live' first
    have whole : live'.Perm (r :: others) := first.trans here
    have absent : others.countP (fun x => x.start = r.start) = 0 :=
      List.countP_eq_zero.mpr fun x member => by simpa using other x member
    have count : live'.countP (fun x => x.start = r.start) = 1 := by
      rw [whole.countP_eq, List.countP_cons, absent]
      simp
    have rest : (live'.filter fun x => x.start ≠ r.start).Perm others := by
      refine (whole.filter _).trans ?_
      rw [List.filter_cons_of_neg (by simp), List.filter_eq_self.mpr fun x member => by
        simpa using other x member]
    obtain ⟨kept, run, eq⟩ := ih rest
    refine ⟨kept, ?_, eq⟩
    rw [survivors, List.foldlM_cons, Event.after, if_pos count]
    exact run
  | read _ _ _ ih => exact ih

/-- Whoever begins with nothing, reads only what is in use and is left with nothing has given
back all, once, and has read none of it afterwards. -/
theorem settled (h : Uses [] trace []) : Settled trace := by
  constructor
  · obtain ⟨kept, run, eq⟩ := h.survivors_eq
    rw [run, eq.eq_nil]
  · rintro before s behind rfl r ⟨first, later, live, rfl, run, member, new⟩
    rw [List.append_assoc, List.cons_append] at h
    obtain ⟨between, early, late⟩ := h.split
    obtain ⟨kept, run', same⟩ := early.survivors_eq
    obtain rfl := Option.some.inj (run.symm.trans run')
    have disjoint := early.apart List.Pairwise.nil
    generalize given : some r.start = pointer at late
    cases late with
    | null => cases given
    | @freed _ others _ x _ here other rest =>
      obtain ⟨after, middle, reading⟩ := rest.split
      -- the region that was given back is the one with that start
      have which : r = x := by
        rcases List.mem_cons.mp ((same.trans here).subset member) with eq | elsewhere
        · exact eq
        · exact absurd (Option.some.inj given) (other r elsewhere)
      subst which
      have others_apart : ∀ y ∈ others, y.Apart r := fun y listed =>
        ((List.pairwise_cons.mp ((here.pairwise_iff Span.Apart.symm).mp disjoint)).1 y listed).symm
      cases reading with
      | @read _ _ _ y _ used inside _ =>
        exact (middle.away others_apart new y used).within inside ⟨le_refl _, le_refl _⟩

end Uses

end Lifetimes
