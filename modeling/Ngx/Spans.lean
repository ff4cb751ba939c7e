import Mathlib.Data.List.Forall2
import Mathlib.Order.Basic

/-! Half-open spans of an order, and regions that are given out from their low end. -/
namespace Spans

variable {α : Type*}

structure Span (α : Type*) where
  start : α
  stop : α
  deriving DecidableEq, Repr

structure Bump (α : Type*) where
  base : α
  last : α
  stop : α

def Bump.used (b : Bump α) : Span α := ⟨b.base, b.last⟩

def Bump.extent (b : Bump α) : Span α := ⟨b.base, b.stop⟩

variable [Preorder α]

namespace Span

def Apart (a b : Span α) : Prop := a.stop ≤ b.start ∨ b.stop ≤ a.start

instance [DecidableLE α] (a b : Span α) : Decidable (a.Apart b) :=
  inferInstanceAs (Decidable (_ ∨ _))

def Within (a b : Span α) : Prop := b.start ≤ a.start ∧ a.stop ≤ b.stop

variable {a b c d : Span α}

theorem Apart.symm (h : a.Apart b) : b.Apart a := Or.symm h

/-- Spans that are apart and not empty do not start together. -/
theorem Apart.start_ne (h : a.Apart b) (first : a.start < a.stop) (second : b.start < b.stop) :
    a.start ≠ b.start := by
  intro same
  rcases h with below | above
  · exact (first.trans_le below).ne same
  · exact (second.trans_le above).ne same.symm

theorem Apart.within (h : b.Apart d) (ab : a.Within b) (cd : c.Within d) : a.Apart c := by
  rcases h with below | above
  · exact Or.inl (ab.2.trans (below.trans cd.1))
  · exact Or.inr (cd.2.trans (above.trans ab.1))

theorem exists_within {inner outer : List (Span α)} (each : List.Forall₂ Within inner outer)
    {x : Span α} (member : x ∈ inner) : ∃ y ∈ outer, x.Within y := by
  induction each with
  | nil => cases member
  | @cons a b inner outer ab _ ih =>
    rcases List.mem_cons.mp member with rfl | member
    · exact ⟨b, List.mem_cons_self, ab⟩
    · obtain ⟨y, listed, inside⟩ := ih member
      exact ⟨y, List.mem_cons_of_mem _ listed, inside⟩

/-- Spans chosen one inside each of some spans that are apart are apart. -/
theorem pairwise_within {inner outer : List (Span α)} (each : List.Forall₂ Within inner outer)
    (apart : outer.Pairwise Apart) : inner.Pairwise Apart := by
  induction each with
  | nil => exact List.Pairwise.nil
  | cons ab each ih =>
    obtain ⟨first, rest⟩ := List.pairwise_cons.mp apart
    refine List.pairwise_cons.mpr ⟨fun c member => ?_, ih rest⟩
    obtain ⟨y, listed, inside⟩ := exists_within each member
    exact (first y listed).within ab inside

end Span

/-- The regions are apart, and every piece was given out by one of them, apart from the
other pieces. -/
structure Packed (bumps : List (Bump α)) (pieces : List (Span α)) : Prop where
  sound : ∀ b ∈ bumps, b.base ≤ b.last ∧ b.last ≤ b.stop
  apart : (bumps.map Bump.extent).Pairwise Span.Apart
  placed : ∀ x ∈ pieces, ∃ b ∈ bumps, x.Within b.used
  separate : pieces.Pairwise Span.Apart

namespace Packed

variable {bumps front back : List (Bump α)} {pieces others : List (Span α)} {b : Bump α}
  {x y : Span α}

theorem within_extent (h : Packed bumps pieces) (member : x ∈ pieces) :
    ∃ s ∈ bumps.map Bump.extent, x.Within s := by
  obtain ⟨b, listed, inside⟩ := h.placed x member
  exact ⟨b.extent, List.mem_map_of_mem listed, inside.1, inside.2.trans (h.sound b listed).2⟩

theorem perm (h : Packed bumps pieces) (same : others.Perm pieces) : Packed bumps others :=
  { h with
    placed x member := h.placed x (same.subset member)
    separate := (same.pairwise_iff Span.Apart.symm).mpr h.separate }

/-- What is apart from the regions is apart from their pieces. -/
theorem append (h : Packed bumps pieces)
    (apart : (bumps.map Bump.extent ++ others).Pairwise Span.Apart) :
    (pieces ++ others).Pairwise Span.Apart := by
  obtain ⟨_, rest, between⟩ := List.pairwise_append.mp apart
  refine List.pairwise_append.mpr ⟨h.separate, rest, fun x member y other => ?_⟩
  obtain ⟨s, listed, inside⟩ := h.within_extent member
  exact (between s listed y other).within inside ⟨le_refl _, le_refl _⟩

/-- The next piece is taken from the free part of one of the regions. -/
theorem carve (h : Packed (front ++ b :: back) pieces) (after : b.last ≤ x.start)
    (proper : x.start ≤ x.stop) (fits : x.stop ≤ b.stop) :
    Packed (front ++ { b with last := x.stop } :: back) (x :: pieces) := by
  have here := h.sound b (by simp)
  have grows : b.last ≤ x.stop := after.trans proper
  have apart := h.apart
  rw [List.map_append, List.map_cons] at apart
  constructor
  · intro c member
    rcases List.mem_append.mp member with before | member
    · exact h.sound c (by simp [before])
    rcases List.mem_cons.mp member with rfl | behind
    · exact ⟨here.1.trans grows, fits⟩
    · exact h.sound c (by simp [behind])
  · rw [List.map_append, List.map_cons]
    exact apart
  · intro y member
    rcases List.mem_cons.mp member with rfl | member
    · exact ⟨_, List.mem_append_right _ List.mem_cons_self, here.1.trans after, le_refl _⟩
    obtain ⟨c, listed, inside⟩ := h.placed y member
    rcases List.mem_append.mp listed with before | listed
    · exact ⟨c, by simp [before], inside⟩
    rcases List.mem_cons.mp listed with rfl | behind
    · exact ⟨_, List.mem_append_right _ List.mem_cons_self, inside.1, inside.2.trans grows⟩
    · exact ⟨c, by simp [behind], inside⟩
  · refine List.pairwise_cons.mpr ⟨fun y member => ?_, h.separate⟩
    obtain ⟨c, listed, inside⟩ := h.placed y member
    obtain ⟨_, later, between⟩ := List.pairwise_append.mp apart
    -- the new piece is inside the extent of `b`, the old one in that of `c`
    have mine : x.Within b.extent := ⟨here.1.trans after, fits⟩
    have other : y.Within c.extent := ⟨inside.1, inside.2.trans (h.sound c listed).2⟩
    rcases List.mem_append.mp listed with before | listed
    · have := between c.extent (List.mem_map_of_mem before) b.extent List.mem_cons_self
      exact this.symm.within mine other
    rcases List.mem_cons.mp listed with rfl | behind
    · exact Or.inr (inside.2.trans after)
    · have := (List.pairwise_cons.mp later).1 c.extent (List.mem_map_of_mem behind)
      exact this.within mine other

/-- A new region with nothing in it. -/
theorem snoc (h : Packed bumps pieces) (sound : b.base ≤ b.last ∧ b.last ≤ b.stop)
    (fresh : ∀ s ∈ bumps.map Bump.extent, s.Apart b.extent) : Packed (bumps ++ [b]) pieces := by
  constructor
  · intro c member
    rcases List.mem_append.mp member with member | member
    · exact h.sound c member
    · rw [List.mem_singleton.mp member]
      exact sound
  · rw [List.map_append]
    refine List.pairwise_append.mpr ⟨h.apart, List.pairwise_singleton _ _, fun s member t last => ?_⟩
    rw [List.mem_singleton.mp last]
    exact fresh s member
  · intro y member
    obtain ⟨c, listed, inside⟩ := h.placed y member
    exact ⟨c, List.mem_append_left _ listed, inside⟩
  · exact h.separate

/-- All regions are rewound to one piece each. -/
theorem rewind {rewound : List (Bump α)} (h : Packed bumps pieces)
    (same : rewound.map Bump.extent = bumps.map Bump.extent)
    (sound : ∀ b ∈ rewound, b.base ≤ b.last ∧ b.last ≤ b.stop)
    (each : List.Forall₂ Span.Within others (rewound.map Bump.used)) : Packed rewound others := by
  have apart : (rewound.map Bump.extent).Pairwise Span.Apart := same ▸ h.apart
  have used : List.Forall₂ Span.Within (rewound.map Bump.used) (rewound.map Bump.extent) := by
    rw [List.forall₂_map_left_iff, List.forall₂_map_right_iff, List.forall₂_same]
    exact fun b member => ⟨le_refl _, (sound b member).2⟩
  constructor
  · exact sound
  · exact apart
  · intro x member
    obtain ⟨s, listed, inside⟩ := Span.exists_within each member
    obtain ⟨b, source, rfl⟩ := List.mem_map.mp listed
    exact ⟨b, source, inside⟩
  · exact Span.pairwise_within each (Span.pairwise_within used apart)

end Packed

end Spans
