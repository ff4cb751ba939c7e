import Ngx.RbtreeMemory
import Ngx.Words

/-! Insertion into the red-black tree: the way down to the place, and the loop that re-balances. -/
namespace Ngx.Core.Rbtree

open RedBlack

variable {ν : Type*} {m m' : Rbtree ν} {n p q x y z : ν} {t l r a d u : Rbt ν} {c : Color}
  {side : Side} {f g : Frame ν} {fs gs : List (Frame ν)} {k h fuel : Nat}

def Rebalanced (m : Rbtree ν) (t : Rbt ν) (result : Option (Rbtree ν)) : Prop :=
  ∃ m' t', result = some m' ∧ m'.At m'.root t' [] ∧ t'.nodes = t.nodes ∧ Valid t' ∧
    Within m m' t.nodes

theorem Rebalanced.after {t' : Rbt ν} {result : Option (Rbtree ν)}
    (rest : Rebalanced m' t' result) (same : t'.nodes = t.nodes) (within : Within m m' t.nodes) :
    Rebalanced m t result := by
  obtain ⟨m'', t'', returned, view, nodes, valid, within'⟩ := rest
  exact ⟨m'', t'', returned, view, nodes.trans same, valid, within.trans (same ▸ within')⟩

variable [DecidableEq ν]

/-- The stores that make `n` the node between the link and the two sentinels below. -/
def attach (fs : List (Frame ν)) (n : ν) (c : Color) (m : Rbtree ν) : Rbtree ν :=
  ((((m.lead fs n).setParent n (upper fs m.null)).setChild .left n m.sentinel).setChild .right n
    m.sentinel).setColor n c

theorem attach_within : Within (m.lead fs n) (attach fs n c m) [n] :=
  (((setParent_within List.mem_cons_self).trans (setChild_within List.mem_cons_self)).trans
    (setChild_within List.mem_cons_self)).trans (setColor_within List.mem_cons_self)

theorem At.attach (view : m.At p .leaf fs) (c : Color) (real : n ≠ m.sentinel)
    (fresh : n ∉ pathNodes fs) : (attach fs n c m).At n (.node c .leaf n .leaf) fs := by
  obtain ⟨_, outer, distinct, sentinel⟩ := view
  have distinct : (pathNodes fs).Nodup := distinct
  have same : (Rbtree.attach fs n c m).sentinel = m.sentinel :=
    attach_within.sentinel.trans sentinel_lead
  have other : Side.left ≠ .right := Side.noConfusion
  refine ⟨⟨rfl, same ▸ real, color_setColor_self, ?_, ?_, ?_⟩, ?_, ?_, ?_⟩
  · rw [Rbtree.attach, parent_setColor, parent_setChild, parent_setChild, parent_setParent_self]
    cases fs with
    | nil => simp [upper]
    | cons f fs => rfl
  · rw [Holds, same, Rbtree.attach, left, child_setColor, child_setChild_of_side other,
      child_setChild_self]
  · rw [Holds, same, Rbtree.attach, right, child_setColor, child_setChild_self]
  · refine Around.congr attach_within rfl (outer.lead distinct) distinct fun v member => ?_
    simpa using ne_of_mem_of_not_mem member fresh
  · simpa [Rbt.nodes_node] using ⟨fresh, distinct⟩
  · rw [same, attach_within.color m.sentinel (by simpa using real.symm), color_lead]
    exact sentinel

/-- The loop of the insertion comes down to the place of the new node. -/
theorem At.insertBy (less : UInt64 → UInt64 → Bool) (real : n ≠ m.sentinel) :
    ∀ {fuel : Nat} {p : ν} {t : Rbt ν} {fs : List (Frame ν)}, m.At p t fs → t ≠ .leaf →
    n ∉ t.nodes ++ pathNodes fs → t.depth ≤ fuel →
    ∃ m', insertBy less n m.sentinel m fuel p = some m' ∧
      m'.At n (.node .red .leaf n .leaf) (descend (fun y => less (m.key n) (m.key y)) t fs) ∧
      Within m m' (n :: (plug t fs).nodes)
  | _, _, .leaf, _, _, inner, _, _ => absurd rfl inner
  | 0, _, .node _ _ _ _, _, _, _, _, deep => absurd deep (by simp [Rbt.depth])
  | fuel + 1, p, .node c l x r, fs, view, _, fresh, deep => by
    obtain rfl := view.pointer
    obtain ⟨f, t, filled, same, side, shallow, path⟩ :=
      descend_node (fun y => less (m.key n) (m.key y)) c l r p fs
    subst same
    rw [path]
    rw [filled] at view fresh ⊢
    have inner := view.down.2
    have fresh' : n ∉ t.nodes ++ pathNodes (f :: fs) := by
      have perm := (f.perm_fill (t := t)).append_right (pathNodes fs)
      rw [List.append_assoc] at perm
      exact fun member => fresh (perm.mem_iff.mpr member)
    rw [Core.insertBy, ← side]
    cases t with
    | leaf =>
      have ended : m.child f.side f.x = m.sentinel := inner.eq_leaf_iff.mpr rfl
      rw [if_pos ended]
      refine ⟨Rbtree.attach (f :: fs) n .red m, rfl, inner.attach .red real fresh', ?_⟩
      refine Within.trans (lead_within.mono fun v member => ?_) (attach_within.mono (by simp))
      exact List.mem_cons_of_mem n ((mem_plug (t := .leaf)).mpr (.inr member))
    | node c' l' y r' =>
      have going : m.child f.side f.x ≠ m.sentinel := fun same =>
        absurd (inner.eq_leaf_iff.mp same) (by simp)
      rw [if_neg going]
      exact inner.insertBy less real (by simp) fresh' (by omega)

/-- On which side of its parent a subtree lies is seen from the left link. -/
theorem At.seen_side (view : m.At p t (f :: fs)) (inner : t ≠ .leaf ∨ f.sibling ≠ .leaf)
    {α : Type*} (go : Side → α) : (if p = m.left f.x then go .left else go .right) = go f.side := by
  have link := view.link
  have apart := view.ne_sibling inner
  cases side : f.side with
  | left =>
    rw [side] at link
    exact if_pos link.symm
  | right =>
    rw [side] at apart
    exact if_neg apart

theorem setColor_same (paint : m.color x = c) : m.setColor x c = m := by
  rw [setColor, ← paint, Function.update_eq_self]

theorem At.blacken_root (view : m.At m.root t []) (valid : Valid t) :
    m.setColor m.root .black = m :=
  setColor_same (view.color.trans valid.black)

/-- The loop ends below a black parent. -/
theorem At.rebalance_black (view : m.At p t (f :: fs)) (red : t.color = .red)
    (black : f.color = .black) (balanced : Levelled k t) (fits : Fits k (f :: fs) h) (fuel : Nat) :
    Rebalanced m (plug t (f :: fs)) (rebalance (fuel + 1) p m) := by
  have valid : Valid (plug t (f :: fs)) := fits.valid balanced fun _ => black
  refine ⟨m, plug t (f :: fs), ?_, view.close, rfl, valid, .refl m _⟩
  rw [rebalance, if_neg, view.close.blacken_root valid]
  rintro ⟨-, above⟩
  cases t with
  | leaf => cases red
  | node c l x r =>
    rw [view.parent, view.around.2.2.1, black] at above
    cases above

/-- The loop ends at the root. -/
theorem At.rebalance_root (view : m.At p t []) (red : t.color = .red) (balanced : Levelled h t)
    (fuel : Nat) : Rebalanced m t (rebalance (fuel + 1) p m) := by
  have root : m.root = p := view.around
  cases t with
  | leaf => cases red
  | node c l x r =>
    obtain rfl := view.pointer
    refine ⟨m.setColor m.root .black, .node .black l p r, ?_, ?_, rfl, ⟨rfl, h + 1, ?_⟩, ?_⟩
    · rw [rebalance, if_neg fun both => both.1 root.symm]
    · rw [root]
      have painted := view.repaint .black
      exact root.symm ▸ painted
    · exact balanced.blacken red
    · exact setColor_within (by simp [root])

section Steps

variable {side' : Side}

/-- Below a red uncle the reds move up to the grandparent. -/
theorem At.recolor {ul ur : Rbt ν} {ux : ν}
    (view : m.At p t (⟨side', .red, y, a⟩ :: ⟨side, .black, z, .node .red ul ux ur⟩ :: fs))
    (red : t.color = .red) :
    ∃ m', rebalanceStep side p m = (z, m') ∧
      m'.At z (Frame.fill ⟨side, .red, z, .node .black ul ux ur⟩
        (Frame.fill ⟨side', .black, y, a⟩ t)) fs ∧
      Within m m'
        (plug t (⟨side', .red, y, a⟩ :: ⟨side, .black, z, .node .red ul ux ur⟩ :: fs)).nodes := by
  have parent : m.parent p = y := by
    cases t with
    | leaf => cases red
    | node c l x r => exact view.parent
  have grandparent : m.parent y = z := view.around.2.2.2.1
  have uncle := view.up.cross
  have paint : m.color ux = .red := by
    rw [← uncle.pointer]
    exact uncle.color
  have painted := (((view.repaint_above .black).up.cross).repaint .black).repaint_above .red
  refine ⟨((m.setColor y .black).setColor ux .black).setColor z .red, ?_, ?_, ?_⟩
  · simp only [rebalanceStep, parent, grandparent, uncle.pointer, paint, if_true, parent_setColor]
  · have whole := painted.up
    rw [Frame.fill_cross] at whole
    exact whole
  · refine ((setColor_within ?_).trans (setColor_within ?_)).trans (setColor_within ?_)
    all_goals exact mem_plug.mpr (.inr (by simp [pathNodes_cons]))

/-- A red node and its red parent on the same side: one rotation, and the parent is black. -/
theorem At.straighten
    (view : m.At p t (⟨side, .red, y, a⟩ :: ⟨side, .black, z, u⟩ :: fs)) (red : t.color = .red) :
    ∃ m', rebalanceEnd side p m = (p, m') ∧
      m'.At p t (⟨side, .black, y, Frame.fill ⟨side, .red, z, u⟩ a⟩ :: fs) ∧
      Within m m' (plug t (⟨side, .red, y, a⟩ :: ⟨side, .black, z, u⟩ :: fs)).nodes := by
  cases t with
  | leaf => cases red
  | node c l x r =>
    have parent : m.parent p = y := view.parent
    have grandparent : m.parent y = z := view.around.2.2.2.1
    let m₁ := (m.setColor y .black).setColor z .red
    have painted : m₁.At (m₁.child side.other y) a (⟨side.other, .black, y, .node c l x r⟩ ::
        ⟨side.other.other, .red, z, u⟩ :: fs) := by
      rw [Side.other_other]
      exact ((view.repaint_above .black).repaint_above₂ .red).cross
    have turned := painted.rotate
    have back := turned.up.cross
    rw [back.pointer] at back
    refine ⟨Core.rotate side.other z ((m.setColor y .black).setColor z .red), ?_, ?_, ?_⟩
    · simp only [rebalanceEnd, parent, grandparent, parent_setColor]
    · rw [view.pointer]
      simpa only [Side.other_other] using back
    · have whole : (plug a (⟨side.other, .black, y, .node c l x r⟩ ::
          ⟨side.other.other, .red, z, u⟩ :: fs)).nodes =
          (plug (.node c l x r) (⟨side, .red, y, a⟩ :: ⟨side, .black, z, u⟩ :: fs)).nodes := by
        rw [Side.other_other, plug_cons, Frame.fill_cross, plug_cons]
        exact nodes_plug_congr (by simp [Frame.nodes_fill, Frame.before, Frame.after])
      refine ((setColor_within ?_).trans (setColor_within ?_)).trans (whole ▸ painted.rotate_within)
      all_goals exact mem_plug.mpr (.inr (by simp [pathNodes_cons]))

/-- A red node on the other side of its red parent: one rotation puts the two on one side. -/
theorem At.bend (view : m.At p (.node .red l x r) (⟨side.other, .red, y, a⟩ :: g :: fs)) :
    ∃ t d, Rbt.node .red l x r = Frame.fill ⟨side, .red, x, d⟩ t ∧
      (Core.rotate side y m).At y (Frame.fill ⟨side.other, .red, y, a⟩ t)
        (⟨side, .red, x, d⟩ :: g :: fs) ∧
      Within m (Core.rotate side y m)
        (plug (.node .red l x r) (⟨side.other, .red, y, a⟩ :: g :: fs)).nodes := by
  obtain ⟨t, d, filled⟩ := node_eq_fill side .red l r x
  rw [filled] at view
  have inner := view.down.2
  refine ⟨t, d, filled, inner.rotate.up, ?_⟩
  rw [filled]
  exact inner.rotate_within

end Steps

/-- The loop turns a tree whose only flaw is a red node below a red one, or at the root, into a
red-black tree of the same nodes, in one pass for every two steps up. -/
theorem At.rebalance : ∀ (fuel : Nat) {m : Rbtree ν} {p : ν} {t : Rbt ν} {fs : List (Frame ν)}
    {k h : Nat}, m.At p t fs → t.color = .red → Levelled k t → Fits k fs h →
    fs.length + 2 ≤ 2 * fuel → Rebalanced m (plug t fs) (rebalance fuel p m)
  | 0, _, _, _, _, _, _, _, _, _, _, short => absurd short (by omega)
  | fuel + 1, m, p, t, fs, k, _, view, red, balanced, fits, short => by
    cases fits with
    | root => exact view.rebalance_root red balanced fuel
    | black sibling fits =>
      exact view.rebalance_black red rfl balanced (.black sibling fits) fuel
    | @red _ _ side' y a fs sibling siblingBlack top fits =>
      cases fits with
      | root => cases top
      | red => cases top
      | @black _ _ side z u fs uncle fits =>
        obtain ⟨fuel, rfl⟩ : ∃ n, fuel = n + 1 := ⟨fuel - 1, by simp at short; omega⟩
        cases t with
        | leaf => cases red
        | node c l x r =>
          obtain rfl : c = .red := red
          have parent : m.parent p = y := view.parent
          have grandparent : m.parent y = z := view.around.2.2.2.1
          have paint : m.color y = .red := view.around.2.2.1
          have uncleColor : m.color (m.child side.other z) = u.color := view.up.cross.color
          have step : Core.rebalance (fuel + 1 + 1) p m =
              Core.rebalance (fuel + 1) (rebalanceStep side p m).1 (rebalanceStep side p m).2 := by
            rw [Core.rebalance, if_pos ⟨view.ne_root (by simp), parent ▸ paint⟩, parent, grandparent,
              view.up.seen_side (.inl Frame.fill_ne_leaf) fun s => rebalanceStep s p m]
          rw [step]
          cases color : u.color with
          | red =>
            obtain ⟨ul, ux, ur, rfl⟩ := eq_node_of_red color
            obtain ⟨m', stepped, view', within⟩ := view.recolor rfl
            rw [stepped]
            have again : Rebalanced m' _ (Core.rebalance (fuel + 1) z m') :=
              At.rebalance (fuel + 1) view' Frame.color_fill
                (Frame.balanced_red (Frame.balanced_black balanced sibling) Frame.color_fill
                  (uncle.blacken rfl) rfl) fits (by simp at short ⊢; omega)
            refine again.after (nodes_plug_congr ?_) within
            simp [Frame.nodes_fill, Frame.before, Frame.after]
          | black =>
            have stays : m.color (m.child side.other z) ≠ .red := by simp [uncleColor, color]
            have finish : ∀ {m' : Rbtree ν} {q w : ν} {t a : Rbt ν},
                m'.At q t (⟨side, .red, w, a⟩ :: ⟨side, .black, z, u⟩ :: fs) → t.color = .red →
                Levelled k t → Levelled k a → a.color = .black →
                Rebalanced m' (plug t (⟨side, .red, w, a⟩ :: ⟨side, .black, z, u⟩ :: fs))
                  (Core.rebalance (fuel + 1) (rebalanceEnd side q m').1
                    (rebalanceEnd side q m').2) := by
              intro m' q w t a view' red' inner beside black
              obtain ⟨m'', ended, done, within⟩ := view'.straighten red'
              rw [ended]
              refine (done.rebalance_black red' rfl inner (.black ?_ fits) fuel).after ?_ within
              · exact Frame.balanced_red beside black uncle color
              · rw [nodes_plug, nodes_plug]
                cases side <;>
                  simp [before, after, Frame.before, Frame.after, Frame.nodes_fill]
            by_cases straight : side' = side
            · subst straight
              have outside : p ≠ m.child side'.other y :=
                view.ne_sibling (.inl (by simp))
              simp only [rebalanceStep, parent, grandparent, if_neg stays, if_neg outside]
              exact finish view rfl balanced sibling siblingBlack
            · obtain rfl := Side.eq_other straight
              obtain ⟨t, d, filled, view', within⟩ := view.bend
              have link : m.child side.other y = p := view.link
              simp only [rebalanceStep, parent, grandparent, if_neg stays, if_pos link.symm]
              rw [filled] at balanced within ⊢
              obtain ⟨inner, beside, innerBlack, besideBlack⟩ := Frame.of_balanced_red balanced
              have turned : Levelled k (Frame.fill ⟨side.other, .red, y, a⟩ t) :=
                Frame.balanced_red inner innerBlack sibling siblingBlack
              refine (finish view' Frame.color_fill turned beside besideBlack).after ?_ within
              exact (nodes_exchange t (⟨side, .black, z, u⟩ :: fs)).symm

/-- Between the nodes that the comparison leaves before the new one and the others, the insertion
puts the new one, and touches nothing else. Both its loops end within twice the logarithm of the
number of nodes. -/
theorem Represents.insert {xs ys : List ν} (tree : m.Represents (xs ++ ys))
    (less : UInt64 → UInt64 → Bool) (real : n ≠ m.sentinel) (fresh : n ∉ xs ++ ys)
    (low : ∀ y ∈ xs, less (m.key n) (m.key y) = false)
    (high : ∀ y ∈ ys, less (m.key n) (m.key y) = true)
    (enough : 2 * Nat.log 2 ((xs ++ ys).length + 1) + 2 ≤ fuel) :
    ∃ m', rbtreeInsert fuel
        (fun fuel temp node sentinel m => Core.insertBy less node sentinel m fuel temp) n m = some m' ∧
      m'.Represents (xs ++ n :: ys) ∧ Within m m' (n :: (xs ++ ys)) := by
  obtain ⟨t, view, valid, nodes⟩ := tree
  have deep := valid.depth_le
  rw [nodes] at deep
  by_cases empty : t = .leaf
  · subst empty
    have root : m.root = m.sentinel := view.focus
    obtain ⟨rfl, rfl⟩ := List.append_eq_nil_iff.mp nodes.symm
    have attached := view.attach .black real List.not_mem_nil
    refine ⟨Rbtree.attach [] n .black m, ?_, ⟨.node .black .leaf n .leaf, ?_, ?_, rfl⟩, ?_⟩
    · rw [rbtreeInsert, if_pos root]
      rfl
    · exact attached
    · exact ⟨rfl, 1, .black .leaf .leaf⟩
    · have led : Within m (m.lead [] n) [n] := lead_within.mono (by simp [pathNodes])
      exact led.trans attach_within
  · have inner : m.root ≠ m.sentinel := fun same => empty (view.eq_leaf_iff.mp same)
    rw [← nodes] at fresh
    obtain ⟨m₁, inserted, view₁, within₁⟩ := view.insertBy less real empty
      (by simpa [pathNodes] using fresh) (show t.depth ≤ fuel by omega)
    generalize path : descend (fun y => less (m.key n) (m.key y)) t [] = fs at view₁
    have whole : plug .leaf fs = t := path ▸ plug_descend _ t []
    obtain ⟨k, h, fits, ended, -⟩ := Valid.fits fs (whole.symm ▸ valid)
    have short : fs.length ≤ t.depth := by
      have bound := depth_plug .leaf fs
      rw [whole] at bound
      omega
    obtain ⟨m₂, t₂, balanced, view₂, nodes₂, valid₂, within₂⟩ :=
      At.rebalance fuel view₁ rfl (.red ended ended rfl rfl) fits (by omega)
    have place := descend_place (fun y => less (m.key n) (m.key y)) t [] xs ys nodes low high
    rw [path] at place
    have listed : t₂.nodes = xs ++ n :: ys := by
      rw [nodes₂, nodes_plug, place.1, place.2]
      simp [before, after]
    refine ⟨m₂, ?_, ⟨t₂, view₂, valid₂, listed⟩, ?_⟩
    · rw [rbtreeInsert, if_neg inner, inserted]
      exact balanced
    · rw [← nodes₂, listed] at within₂
      refine (within₁.mono ?_).trans (within₂.mono ?_)
      · simp [nodes]
      · intro v member
        simpa [or_left_comm] using member

def Sorted (rank : UInt64 → Nat) (m : Rbtree ν) (xs : List ν) : Prop :=
  xs.Pairwise fun a b => rank (m.key a) ≤ rank (m.key b)

def placed (rank : UInt64 → Nat) (m : Rbtree ν) (n : ν) (xs : List ν) : List ν :=
  xs.orderedInsert (fun a b => rank (m.key a) < rank (m.key b)) n

theorem valueLess_eq (a b : UInt64) : valueLess a b = decide (a.toNat < b.toNat) := by
  simp only [valueLess, UInt64.lt_iff_toNat_lt]

/-- A comparison that goes by the rank of the keys keeps the tree sorted. -/
theorem Represents.insert_sorted {xs : List ν} (tree : m.Represents xs)
    (less : UInt64 → UInt64 → Bool) (rank : UInt64 → Nat) (sorted : Sorted rank m xs)
    (agree : ∀ y ∈ xs, less (m.key n) (m.key y) = decide (rank (m.key n) < rank (m.key y)))
    (real : n ≠ m.sentinel) (fresh : n ∉ xs)
    (enough : 2 * Nat.log 2 (xs.length + 1) + 2 ≤ fuel) :
    ∃ m', rbtreeInsert fuel
        (fun fuel temp node sentinel m => Core.insertBy less node sentinel m fuel temp) n m = some m' ∧
      m'.Represents (placed rank m n xs) ∧ Sorted rank m' (placed rank m n xs) ∧
      Within m m' (n :: xs) := by
  let before : ν → Bool := fun y => !decide (rank (m.key n) < rank (m.key y))
  have split : xs.takeWhile before ++ xs.dropWhile before = xs := List.takeWhile_append_dropWhile
  have shape : placed rank m n xs = xs.takeWhile before ++ n :: xs.dropWhile before := by
    rw [placed, List.orderedInsert_eq_take_drop]
    simp only [decide_not, before]
  have low : ∀ y ∈ xs.takeWhile before, rank (m.key y) ≤ rank (m.key n) := by
    intro y member
    have holds := List.mem_takeWhile_imp member
    simpa only [before, Bool.not_eq_true', decide_eq_false_iff_not, not_lt] using holds
  have pairs := sorted
  rw [Sorted, ← split, List.pairwise_append] at pairs
  obtain ⟨first, second, across⟩ := pairs
  have high : ∀ y ∈ xs.dropWhile before, rank (m.key n) < rank (m.key y) := by
    cases rest : xs.dropWhile before with
    | nil => simp
    | cons z zs =>
      have head : rank (m.key n) < rank (m.key z) := by
        have stops := List.head_dropWhile_not before (show xs.dropWhile before ≠ [] by simp [rest])
        simpa [rest, before] using stops
      rw [rest, List.pairwise_cons] at second
      intro y member
      obtain rfl | inside := List.mem_cons.mp member
      · exact head
      · exact head.trans_le (second.1 y inside)
  have memberOf : ∀ y, y ∈ xs.takeWhile before ∨ y ∈ xs.dropWhile before → y ∈ xs := by
    intro y member
    rw [← split]
    exact List.mem_append.mpr member
  rw [← split] at tree fresh enough
  obtain ⟨m', inserted, tree', within⟩ := tree.insert less real fresh
    (fun y member => (agree y (memberOf y (.inl member))).trans (by simp [low y member]))
    (fun y member => (agree y (memberOf y (.inr member))).trans (by simp [high y member])) enough
  rw [split] at within
  refine ⟨m', inserted, shape ▸ tree', ?_, within⟩
  rw [Sorted, shape, within.key, List.pairwise_append, List.pairwise_cons]
  refine ⟨first, ⟨fun y member => (high y member).le, second⟩, ?_⟩
  intro a inside b member
  obtain rfl | later := List.mem_cons.mp member
  · exact low a inside
  · exact across a inside b later

def offset (base key : UInt64) : Nat := (key - base).toNat

/-- Within half the range from any base, the signed difference of two keys is that of their
offsets. -/
theorem toInt_diff {base a b : UInt64} (nearA : offset base a < 2 ^ 63)
    (nearB : offset base b < 2 ^ 63) :
    (a - b).toInt64.toInt = (offset base a : Int) - offset base b := by
  have boundA := a.toNat_lt
  have boundB := b.toNat_lt
  have bound := base.toNat_lt
  rw [Words.toInt_toInt64]
  simp only [offset, UInt64.toNat_sub] at *
  split <;> omega

theorem toNat_diff {base a b : UInt64} (later : offset base b ≤ offset base a) :
    (a - b).toNat = offset base a - offset base b := by
  have boundA := a.toNat_lt
  have boundB := b.toNat_lt
  have bound := base.toNat_lt
  simp only [offset, UInt64.toNat_sub] at *
  omega

theorem timerLess_eq {base a b : UInt64} (nearA : offset base a < 2 ^ 63)
    (nearB : offset base b < 2 ^ 63) :
    timerLess a b = decide (offset base a < offset base b) := by
  rw [timerLess, decide_eq_decide, Int64.lt_iff_toInt_lt, toInt_diff nearA nearB, Int64.toInt_zero]
  omega

end Ngx.Core.Rbtree
