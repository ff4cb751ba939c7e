import Mathlib

/-! Red-black trees over arbitrary nodes, and the way from a subtree up to the root. A tree is
read off as the list of its nodes from left to right. -/
namespace RedBlack

variable {ν : Type*}

inductive Color
  | black
  | red
deriving DecidableEq, Repr

inductive Rbt (ν : Type*)
  | leaf
  | node (color : Color) (left : Rbt ν) (x : ν) (right : Rbt ν)
deriving Repr

namespace Rbt

def nodes : Rbt ν → List ν
  | leaf => []
  | node _ l x r => l.nodes ++ x :: r.nodes

def color : Rbt ν → Color
  | leaf => .black
  | node c _ _ _ => c

def blacken : Rbt ν → Rbt ν
  | leaf => leaf
  | node _ l x r => node .black l x r

def depth : Rbt ν → Nat
  | leaf => 0
  | node _ l _ r => max l.depth r.depth + 1

@[simp] theorem nodes_leaf : (leaf : Rbt ν).nodes = [] := rfl

@[simp] theorem nodes_node {c : Color} {l r : Rbt ν} {x : ν} :
    (node c l x r).nodes = l.nodes ++ x :: r.nodes := rfl

@[simp] theorem color_leaf : (leaf : Rbt ν).color = .black := rfl

@[simp] theorem color_node {c : Color} {l r : Rbt ν} {x : ν} : (node c l x r).color = c := rfl

@[simp] theorem nodes_blacken (t : Rbt ν) : t.blacken.nodes = t.nodes := by
  cases t <;> rfl

@[simp] theorem color_blacken (t : Rbt ν) : t.blacken.color = .black := by
  cases t <;> rfl

theorem blacken_of_black {t : Rbt ν} (black : t.color = .black) : t.blacken = t := by
  cases t with
  | leaf => rfl
  | node c l x r =>
    cases black
    rfl

end Rbt

open Rbt

/-- No red node has a red child, and every way down meets `h` black nodes. -/
inductive Levelled : Nat → Rbt ν → Prop
  | leaf : Levelled 0 leaf
  | red {h : Nat} {l r : Rbt ν} {x : ν} : Levelled h l → Levelled h r → l.color = .black →
      r.color = .black → Levelled h (node .red l x r)
  | black {h : Nat} {l r : Rbt ν} {x : ν} : Levelled h l → Levelled h r →
      Levelled (h + 1) (node .black l x r)

structure Valid (t : Rbt ν) : Prop where
  black : t.color = .black
  balanced : ∃ h, Levelled h t

variable {t l r : Rbt ν} {x : ν} {h : Nat} {c : Color}

theorem Levelled.of_red (balanced : Levelled h (node .red l x r)) :
    Levelled h l ∧ Levelled h r ∧ l.color = .black ∧ r.color = .black := by
  cases balanced with
  | red left right leftBlack rightBlack => exact ⟨left, right, leftBlack, rightBlack⟩

theorem Levelled.of_black (balanced : Levelled (h + 1) (node .black l x r)) :
    Levelled h l ∧ Levelled h r := by
  cases balanced with
  | black left right => exact ⟨left, right⟩

theorem Levelled.nonleaf (balanced : Levelled (h + 1) t) : ∃ c l x r, t = node c l x r := by
  cases t with
  | leaf => cases balanced
  | node c l x r => exact ⟨c, l, x, r, rfl⟩

theorem eq_node_of_red (red : t.color = .red) : ∃ l x r, t = node .red l x r := by
  cases t with
  | leaf => cases red
  | node c l x r =>
    obtain rfl : c = .red := red
    exact ⟨l, x, r, rfl⟩

theorem Levelled.leaf_of_black (balanced : Levelled 0 t) (black : t.color = .black) :
    t = .leaf := by
  cases balanced with
  | leaf => rfl
  | red _ _ _ _ => cases black

/-- A red root may be painted black: the tree grows by one. -/
theorem Levelled.blacken (balanced : Levelled h t) (red : t.color = .red) :
    Levelled (h + 1) t.blacken := by
  cases balanced with
  | leaf => cases red
  | red left right _ _ => exact .black left right
  | black _ _ => cases red

theorem Levelled.exists_blacken (balanced : Levelled h t) : ∃ h', Levelled h' t.blacken := by
  cases color : t.color with
  | black => exact ⟨h, (blacken_of_black color).symm ▸ balanced⟩
  | red => exact ⟨h + 1, balanced.blacken color⟩

theorem Levelled.depth_le (balanced : Levelled h t) :
    t.depth ≤ 2 * h + (if t.color = .red then 1 else 0) := by
  induction balanced with
  | leaf => rfl
  | red _ _ leftBlack rightBlack left right =>
    simp only [leftBlack, rightBlack, reduceCtorEq, if_false] at left right
    simp only [depth, color_node, if_true]
    omega
  | @black h l r x _ _ left right =>
    have leftBound : l.depth ≤ 2 * h + 1 := by
      refine left.trans (Nat.add_le_add_left ?_ _)
      split <;> omega
    have rightBound : r.depth ≤ 2 * h + 1 := by
      refine right.trans (Nat.add_le_add_left ?_ _)
      split <;> omega
    simp only [depth, color_node, reduceCtorEq, if_false]
    omega

theorem Levelled.two_pow_le (balanced : Levelled h t) : 2 ^ h ≤ t.nodes.length + 1 := by
  induction balanced with
  | leaf => exact Nat.le_refl 1
  | red _ _ _ _ left right =>
    rw [nodes_node, List.length_append, List.length_cons]
    omega
  | black _ _ left right =>
    rw [nodes_node, List.length_append, List.length_cons, Nat.pow_succ]
    omega

/-- No way down a red-black tree of `n` nodes is longer than twice the logarithm of `n + 1`. -/
theorem Valid.depth_le (valid : Valid t) : t.depth ≤ 2 * Nat.log 2 (t.nodes.length + 1) := by
  obtain ⟨h, balanced⟩ := valid.balanced
  have deep := balanced.depth_le
  rw [valid.black] at deep
  have logarithm : h ≤ Nat.log 2 (t.nodes.length + 1) :=
    Nat.le_log_of_pow_le Nat.one_lt_two balanced.two_pow_le
  simp only [reduceCtorEq, if_false] at deep
  omega

inductive Side
  | left
  | right
deriving DecidableEq, Repr

def Side.other : Side → Side
  | .left => .right
  | .right => .left

/-- One step of the way up: the node above, the side from which it is reached, and the subtree on
its other side. -/
structure Frame (ν : Type*) where
  side : Side
  color : Color
  x : ν
  sibling : Rbt ν

def Frame.fill (f : Frame ν) (t : Rbt ν) : Rbt ν :=
  match f.side with
  | .left => node f.color t f.x f.sibling
  | .right => node f.color f.sibling f.x t

def plug : Rbt ν → List (Frame ν) → Rbt ν
  | t, [] => t
  | t, f :: fs => plug (f.fill t) fs

def Frame.nodes (f : Frame ν) : List ν := f.x :: f.sibling.nodes

def Frame.before (f : Frame ν) : List ν :=
  match f.side with
  | .left => []
  | .right => f.sibling.nodes ++ [f.x]

def Frame.after (f : Frame ν) : List ν :=
  match f.side with
  | .left => f.x :: f.sibling.nodes
  | .right => []

def before : List (Frame ν) → List ν
  | [] => []
  | f :: fs => before fs ++ f.before

def after : List (Frame ν) → List ν
  | [] => []
  | f :: fs => f.after ++ after fs

variable {f : Frame ν} {fs gs : List (Frame ν)}

@[simp] theorem Side.other_other (s : Side) : s.other.other = s := by
  cases s <;> rfl

theorem Side.other_ne (s : Side) : s.other ≠ s := by
  cases s <;> exact Side.noConfusion

theorem Side.eq_other {s s' : Side} (distinct : s ≠ s') : s = s'.other := by
  cases s <;> cases s' <;> first | rfl | exact absurd rfl distinct

@[simp] theorem plug_nil : plug t [] = t := rfl

@[simp] theorem plug_cons : plug t (f :: fs) = plug (f.fill t) fs := rfl

theorem plug_append : ∀ (t : Rbt ν) (fs : List (Frame ν)),
    plug t (fs ++ gs) = plug (plug t fs) gs
  | _, [] => rfl
  | t, f :: fs => plug_append (f.fill t) fs

/-- The two subtrees of a node, each seen from the other. -/
theorem Frame.fill_cross {side : Side} {t t' : Rbt ν} :
    Frame.fill ⟨side.other, c, x, t⟩ t' = Frame.fill ⟨side, c, x, t'⟩ t := by
  cases side <;> rfl

theorem Frame.fill_ne_leaf : f.fill t ≠ .leaf := by
  obtain ⟨side, c, x, sibling⟩ := f
  intro same
  cases side <;> cases same

/-- A node seen from its subtree on the given side. -/
theorem node_eq_fill (side : Side) (c : Color) (l r : Rbt ν) (x : ν) :
    ∃ t d, node c l x r = Frame.fill ⟨side, c, x, d⟩ t := by
  cases side with
  | left => exact ⟨l, r, rfl⟩
  | right => exact ⟨r, l, rfl⟩

theorem Frame.perm_fill : (f.fill t).nodes.Perm (t.nodes ++ f.nodes) := by
  obtain ⟨side, c, x, sibling⟩ := f
  cases side with
  | left => exact List.Perm.refl _
  | right =>
    calc sibling.nodes ++ x :: t.nodes
      _ = (sibling.nodes ++ [x]) ++ t.nodes := by simp
      _ |>.Perm (t.nodes ++ (sibling.nodes ++ [x])) := List.perm_append_comm
      _ |>.Perm (t.nodes ++ (x :: sibling.nodes)) := (List.perm_append_singleton x _).append_left _

theorem Frame.mem_fill {v : ν} :
    v ∈ (f.fill t).nodes ↔ v = f.x ∨ v ∈ t.nodes ∨ v ∈ f.sibling.nodes := by
  rw [f.perm_fill.mem_iff, Frame.nodes, List.mem_append, List.mem_cons]
  tauto

theorem Frame.nodes_fill : (f.fill t).nodes = f.before ++ t.nodes ++ f.after := by
  obtain ⟨side, c, x, sibling⟩ := f
  cases side <;> simp [Frame.fill, Frame.before, Frame.after]

theorem nodes_plug : ∀ {t : Rbt ν} {fs : List (Frame ν)},
    (plug t fs).nodes = before fs ++ t.nodes ++ after fs
  | t, [] => by simp [before, after]
  | t, f :: fs => by
    rw [plug_cons, nodes_plug, Frame.nodes_fill]
    simp [before, after]

theorem before_append : before (fs ++ gs) = before gs ++ before fs := by
  induction fs with
  | nil => simp [before]
  | cons f fs ih => simp [before, ih]

theorem after_append : after (fs ++ gs) = after fs ++ after gs := by
  induction fs with
  | nil => rfl
  | cons f fs ih => simp [after, ih]

theorem depth_plug :
    ∀ (t : Rbt ν) (fs : List (Frame ν)), t.depth + fs.length ≤ (plug t fs).depth
  | _, [] => Nat.le_refl _
  | t, f :: fs => by
    have inner : t.depth + 1 ≤ (f.fill t).depth := by
      obtain ⟨side, c, x, sibling⟩ := f
      cases side with
      | left => exact Nat.succ_le_succ (Nat.le_max_left _ _)
      | right => exact Nat.succ_le_succ (Nat.le_max_right _ _)
    have outer := depth_plug (f.fill t) fs
    rw [plug_cons, List.length_cons]
    omega

def pathNodes (fs : List (Frame ν)) : List ν := fs.flatMap Frame.nodes

theorem pathNodes_cons : pathNodes (f :: fs) = f.x :: (f.sibling.nodes ++ pathNodes fs) := rfl

theorem pathNodes_append : pathNodes (fs ++ gs) = pathNodes fs ++ pathNodes gs :=
  List.flatMap_append

theorem perm_plug : ∀ (t : Rbt ν) (fs : List (Frame ν)),
    (plug t fs).nodes.Perm (t.nodes ++ pathNodes fs)
  | t, [] => by simp [pathNodes]
  | t, f :: fs => by
    have inner := (f.perm_fill (t := t)).append_right (pathNodes fs)
    rw [List.append_assoc] at inner
    exact (perm_plug (f.fill t) fs).trans inner

theorem mem_plug {v : ν} : v ∈ (plug t fs).nodes ↔ v ∈ t.nodes ∨ v ∈ pathNodes fs := by
  rw [(perm_plug t fs).mem_iff, List.mem_append]

/-- Two nodes above a subtree, reached from different sides, may change their places. -/
theorem nodes_exchange (t : Rbt ν) (fs : List (Frame ν)) {side : Side} {c c' : Color} {x y : ν}
    {a d : Rbt ν} : (plug t (⟨side, c, x, a⟩ :: ⟨side.other, c', y, d⟩ :: fs)).nodes =
      (plug t (⟨side.other, c', y, d⟩ :: ⟨side, c, x, a⟩ :: fs)).nodes := by
  rw [nodes_plug, nodes_plug]
  cases side <;> simp [before, after, Frame.before, Frame.after, Side.other]

/-- Two subtrees with the same nodes stand for each other in the whole tree. -/
theorem nodes_plug_congr {t' : Rbt ν} (same : t'.nodes = t.nodes) :
    (plug t' fs).nodes = (plug t fs).nodes := by
  rw [nodes_plug, nodes_plug, same]

/-- The color of the node above a path's lower end. Nothing red may hang from the root pointer:
above the root counts as red. -/
def above : List (Frame ν) → Color
  | [] => .red
  | f :: _ => f.color

/-- A subtree of `k` black nodes down fits below the path into a balanced tree of `h`. -/
inductive Fits : Nat → List (Frame ν) → Nat → Prop
  | root {h : Nat} : Fits h [] h
  | black {k h : Nat} {side : Side} {x : ν} {sibling : Rbt ν} {fs : List (Frame ν)} :
      Levelled k sibling → Fits (k + 1) fs h → Fits k (⟨side, .black, x, sibling⟩ :: fs) h
  | red {k h : Nat} {side : Side} {x : ν} {sibling : Rbt ν} {fs : List (Frame ν)} :
      Levelled k sibling → sibling.color = .black → above fs = .black → Fits k fs h →
      Fits k (⟨side, .red, x, sibling⟩ :: fs) h

theorem Frame.balanced_red {k : Nat} {side : Side} {sibling : Rbt ν} (inner : Levelled k t)
    (black : t.color = .black) (outer : Levelled k sibling) (siblingBlack : sibling.color = .black) :
    Levelled k (Frame.fill ⟨side, .red, x, sibling⟩ t) := by
  cases side with
  | left => exact .red inner outer black siblingBlack
  | right => exact .red outer inner siblingBlack black

theorem Frame.balanced_black {k : Nat} {side : Side} {sibling : Rbt ν} (inner : Levelled k t)
    (outer : Levelled k sibling) : Levelled (k + 1) (Frame.fill ⟨side, .black, x, sibling⟩ t) := by
  cases side with
  | left => exact .black inner outer
  | right => exact .black outer inner

theorem Frame.of_balanced_black {k : Nat} {side : Side} {sibling : Rbt ν}
    (balanced : Levelled (k + 1) (Frame.fill ⟨side, .black, x, sibling⟩ t)) :
    Levelled k t ∧ Levelled k sibling := by
  cases side with
  | left => exact Levelled.of_black balanced
  | right => exact (Levelled.of_black balanced).symm

theorem Frame.of_balanced_red {k : Nat} {side : Side} {sibling : Rbt ν}
    (balanced : Levelled k (Frame.fill ⟨side, .red, x, sibling⟩ t)) :
    Levelled k t ∧ Levelled k sibling ∧ t.color = .black ∧ sibling.color = .black := by
  cases side with
  | left => exact Levelled.of_red balanced
  | right =>
    obtain ⟨left, right, leftBlack, rightBlack⟩ := Levelled.of_red balanced
    exact ⟨right, left, rightBlack, leftBlack⟩

@[simp] theorem Frame.color_fill : (f.fill t).color = f.color := by
  obtain ⟨side, c, x, sibling⟩ := f
  cases side <;> rfl

@[simp] theorem Frame.blacken_fill :
    (f.fill t).blacken = Frame.fill { f with color := .black } t := by
  obtain ⟨side, c, x, sibling⟩ := f
  cases side <;> rfl

/-- The names of the nodes do not matter. -/
theorem Fits.rename {side : Side} {s : Rbt ν} {y : ν} : ∀ {gs : List (Frame ν)} {k : Nat},
    Fits k (gs ++ ⟨side, c, x, s⟩ :: fs) h → Fits k (gs ++ ⟨side, c, y, s⟩ :: fs) h
  | [], _, fits => by
    cases fits with
    | black sibling fits => exact .black sibling fits
    | red sibling black top fits => exact .red sibling black top fits
  | g :: gs, _, fits => by
    cases fits with
    | black sibling fits => exact .black sibling fits.rename
    | red sibling black top fits =>
      refine .red sibling black ?_ fits.rename
      cases gs with
      | nil => exact top
      | cons g gs => exact top

/-- The subtree beside the lowest step may be another one as good. -/
theorem Fits.beside {k : Nat} {side : Side} {s s' : Rbt ν}
    (fits : Fits k (⟨side, c, x, s⟩ :: fs) h) (balanced : Levelled k s') (black : s'.color = .black) :
    Fits k (⟨side, c, x, s'⟩ :: fs) h := by
  cases fits with
  | black _ fits => exact .black balanced fits
  | red _ _ top fits => exact .red balanced black top fits

theorem Fits.valid {k : Nat} (fits : Fits k fs h) : ∀ {t : Rbt ν}, Levelled k t →
    (t.color = .red → above fs = .black) → Valid (plug t fs) := by
  induction fits with
  | @root h =>
    intro t balanced red
    refine ⟨?_, h, balanced⟩
    cases color : t.color with
    | black => exact color
    | red => exact absurd (red color) (by simp [above])
  | black sibling _ ih =>
    intro t balanced _
    exact ih (Frame.balanced_black balanced sibling) fun red => by simp at red
  | red sibling black top _ ih =>
    intro t balanced red
    have inner : t.color = .black := by
      cases color : t.color with
      | black => rfl
      | red => exact absurd (red color) (by simp [above])
    exact ih (Frame.balanced_red balanced inner sibling black) fun _ => top

/-- Every place of a red-black tree is a balanced subtree below a path it fits. -/
theorem Valid.fits : ∀ (fs : List (Frame ν)) {t : Rbt ν}, Valid (plug t fs) →
    ∃ k h, Fits k fs h ∧ Levelled k t ∧ (t.color = .red → above fs = .black)
  | [], t, valid => by
    obtain ⟨h, balanced⟩ := valid.balanced
    exact ⟨h, h, .root, balanced, fun red => absurd (valid.black.symm.trans red) (by simp)⟩
  | ⟨side, c, x, sibling⟩ :: fs, t, valid => by
    obtain ⟨k, h, fits, balanced, top⟩ := Valid.fits fs valid
    cases c with
    | black =>
      cases side with
      | left =>
        cases balanced with
        | black left right => exact ⟨_, h, .black right fits, left, fun _ => rfl⟩
      | right =>
        cases balanced with
        | black left right => exact ⟨_, h, .black left fits, right, fun _ => rfl⟩
    | red =>
      have blackAbove := top Frame.color_fill
      obtain ⟨inner, beside, innerBlack, besideBlack⟩ := Frame.of_balanced_red balanced
      exact ⟨k, h, .red beside besideBlack blackAbove fits, inner,
        fun red => by simp [innerBlack] at red⟩

/-- Every node of the list is found in the tree, with the nodes before it to its left. -/
theorem locate : ∀ (t : Rbt ν) (xs ys : List ν), t.nodes = xs ++ x :: ys →
    ∃ fs c l r, t = plug (node c l x r) fs ∧ xs = before fs ++ l.nodes ∧ ys = r.nodes ++ after fs
  | .leaf, xs, ys, split => by simp at split
  | .node c l y r, xs, ys, split => by
    rw [nodes_node] at split
    obtain ⟨ws, same, rest⟩ | ⟨ws, same, rest⟩ := List.append_eq_append_iff.mp split
    · cases ws with
      | nil =>
        obtain ⟨rfl, rfl⟩ := List.cons.inj rest
        exact ⟨[], c, l, r, rfl, by simpa [before] using same, by simp [after]⟩
      | cons w ws =>
        obtain ⟨rfl, inner⟩ := List.cons.inj rest
        obtain ⟨fs, c', l', r', shape, low, high⟩ := locate r ws ys inner
        refine ⟨fs ++ [⟨.right, c, y, l⟩], c', l', r', ?_, ?_, ?_⟩
        · rw [plug_append, ← shape]
          rfl
        · rw [same, low, before_append]
          simp [before, Frame.before]
        · rw [high, after_append]
          simp [after, Frame.after]
    · cases ws with
      | nil =>
        obtain ⟨rfl, rfl⟩ := List.cons.inj rest
        exact ⟨[], c, l, r, rfl, by simpa [before] using same.symm, by simp [after]⟩
      | cons w ws =>
        obtain ⟨rfl, inner⟩ := List.cons.inj rest
        obtain ⟨fs, c', l', r', shape, low, high⟩ := locate l xs ws same
        refine ⟨fs ++ [⟨.left, c, y, r⟩], c', l', r', ?_, ?_, ?_⟩
        · rw [plug_append, ← shape]
          rfl
        · rw [low, before_append]
          simp [before, Frame.before]
        · rw [inner, high, after_append]
          simp [after, Frame.after]

/-- The way down to the place of a new node, to the left of the nodes `before` and to the right of
the others. -/
def descend (before : ν → Bool) : Rbt ν → List (Frame ν) → List (Frame ν)
  | .leaf, fs => fs
  | .node c l y r, fs =>
    if before y then descend before l (⟨.left, c, y, r⟩ :: fs)
    else descend before r (⟨.right, c, y, l⟩ :: fs)

/-- One step down, the two directions in one. -/
theorem descend_node (p : ν → Bool) (c : Color) (l r : Rbt ν) (y : ν) (fs : List (Frame ν)) :
    ∃ f t, (node c l y r) = Frame.fill f t ∧ f.x = y ∧
      f.side = (if p y then .left else .right) ∧ t.depth < (node c l y r).depth ∧
      descend p (node c l y r) fs = descend p t (f :: fs) := by
  by_cases before : p y
  · exact ⟨⟨.left, c, y, r⟩, l, rfl, rfl, by simp [before],
      Nat.lt_succ_of_le (Nat.le_max_left _ _), by rw [descend, if_pos before]⟩
  · exact ⟨⟨.right, c, y, l⟩, r, rfl, rfl, by simp [before],
      Nat.lt_succ_of_le (Nat.le_max_right _ _), by rw [descend, if_neg before]⟩

theorem plug_descend (p : ν → Bool) : ∀ (t : Rbt ν) (fs : List (Frame ν)),
    plug .leaf (descend p t fs) = plug t fs
  | .leaf, _ => rfl
  | .node c l y r, fs => by
    rw [descend]
    split
    · exact plug_descend p l _
    · exact plug_descend p r _

/-- In a tree whose nodes first are not after the new one and then are, the place found is between
the two. -/
theorem descend_place (p : ν → Bool) : ∀ (t : Rbt ν) (fs : List (Frame ν)) (xs ys : List ν),
    t.nodes = xs ++ ys → (∀ y ∈ xs, p y = false) → (∀ y ∈ ys, p y = true) →
    before (descend p t fs) = before fs ++ xs ∧ after (descend p t fs) = ys ++ after fs
  | .leaf, fs, xs, ys, split, _, _ => by
    obtain ⟨rfl, rfl⟩ := List.append_eq_nil_iff.mp split.symm
    simp [descend]
  | .node c l y r, fs, xs, ys, split, low, high => by
    rw [descend]
    rw [nodes_node] at split
    obtain ⟨ws, rfl, rest⟩ | ⟨ws, inner, rest⟩ := List.append_eq_append_iff.mp split
    · cases ws with
      | nil =>
        subst rest
        rw [if_pos (high y List.mem_cons_self)]
        have place := descend_place p l (⟨.left, c, y, r⟩ :: fs) l.nodes [] (by simp)
          (by simpa using low) (by simp)
        simpa [before, after, Frame.before, Frame.after] using place
      | cons w ws =>
        obtain ⟨rfl, inner⟩ := List.cons.inj rest
        rw [if_neg (by simp [low y (by simp)])]
        have place := descend_place p r (⟨.right, c, y, l⟩ :: fs) ws ys inner
          (fun z member => low z (by simp [member])) high
        simpa [before, after, Frame.before, Frame.after] using place
    · subst rest
      rw [if_pos (high y (by simp))]
      have place := descend_place p l (⟨.left, c, y, r⟩ :: fs) xs ws inner low
        (fun z member => high z (by simp [member]))
      simpa [before, after, Frame.before, Frame.after] using place

end RedBlack
