import Ngx.Rbtree

/-! How a tree of nodes lies in memory, and the stores that rearrange it. -/
namespace Ngx.Core.Rbtree

open RedBlack

variable {ν : Type*} {m m' : Rbtree ν} {p q x y : ν} {t l r : Rbt ν}
  {c : Color} {side : Side} {f g : Frame ν} {fs : List (Frame ν)}

/-- `p` points to the tree, and its root knows `q` for its parent. -/
def Holds (m : Rbtree ν) : ν → ν → Rbt ν → Prop
  | _, p, .leaf => p = m.sentinel
  | q, p, .node c l x r => p = x ∧ x ≠ m.sentinel ∧ m.color x = c ∧ m.parent x = q ∧
      m.Holds x (m.left x) l ∧ m.Holds x (m.right x) r

/-- The parent of the node below the path. Whatever the root has for its parent is right. -/
def upper : List (Frame ν) → ν → ν
  | [], q => q
  | f :: _, _ => f.x

/-- The nodes of the path lie in memory, and its lowest link leads to `p`. -/
def Around (m : Rbtree ν) : ν → List (Frame ν) → Prop
  | p, [] => m.root = p
  | p, f :: fs => m.child f.side f.x = p ∧ f.x ≠ m.sentinel ∧ m.color f.x = f.color ∧
      m.parent f.x = upper fs (m.parent f.x) ∧ m.Holds f.x (m.child f.side.other f.x) f.sibling ∧
      m.Around f.x fs

/-- The memory holds a tree, seen from a place in it: `p` points to the subtree `t` there. -/
structure At (m : Rbtree ν) (p : ν) (t : Rbt ν) (fs : List (Frame ν)) : Prop where
  focus : m.Holds (upper fs (m.parent p)) p t
  around : m.Around p fs
  distinct : (t.nodes ++ pathNodes fs).Nodup
  sentinel : m.color m.sentinel = .black

/-- The memory holds a red-black tree of the given nodes, from left to right. -/
def Represents (m : Rbtree ν) (xs : List ν) : Prop :=
  ∃ t, m.At m.root t [] ∧ Valid t ∧ t.nodes = xs

structure Within (m m' : Rbtree ν) (xs : List ν) : Prop where
  key : m'.key = m.key
  sentinel : m'.sentinel = m.sentinel
  null : m'.null = m.null
  child : ∀ v ∉ xs, ∀ side, m'.child side v = m.child side v
  parent : ∀ v ∉ xs, m'.parent v = m.parent v
  color : ∀ v ∉ xs, m'.color v = m.color v

theorem Within.refl (m : Rbtree ν) (xs : List ν) : Within m m xs :=
  ⟨rfl, rfl, rfl, fun _ _ _ => rfl, fun _ _ => rfl, fun _ _ => rfl⟩

theorem Within.trans {m'' : Rbtree ν} {xs : List ν} (first : Within m m' xs)
    (second : Within m' m'' xs) : Within m m'' xs where
  key := second.key.trans first.key
  sentinel := second.sentinel.trans first.sentinel
  null := second.null.trans first.null
  child v fresh side := (second.child v fresh side).trans (first.child v fresh side)
  parent v fresh := (second.parent v fresh).trans (first.parent v fresh)
  color v fresh := (second.color v fresh).trans (first.color v fresh)

theorem Within.mono {xs ys : List ν} (within : Within m m' xs) (more : xs ⊆ ys) :
    Within m m' ys where
  key := within.key
  sentinel := within.sentinel
  null := within.null
  child v fresh := within.child v fun member => fresh (more member)
  parent v fresh := within.parent v fun member => fresh (more member)
  color v fresh := within.color v fun member => fresh (more member)

theorem Holds.pointer (holds : m.Holds q p (.node c l x r)) : p = x := holds.1

theorem Holds.sentinel_notMem : ∀ {t : Rbt ν} {q p : ν}, m.Holds q p t → m.sentinel ∉ t.nodes
  | .leaf, _, _, _ => List.not_mem_nil
  | .node c l x r, q, p, holds => by
    obtain ⟨-, real, -, -, left, right⟩ := holds
    simp only [Rbt.nodes_node, List.mem_append, List.mem_cons, not_or]
    exact ⟨left.sentinel_notMem, real.symm, right.sentinel_notMem⟩

/-- The pointer to a subtree leads to the sentinel or to one of the nodes. -/
theorem Holds.pointer_mem (holds : m.Holds q p t) : p = m.sentinel ∨ p ∈ t.nodes := by
  cases t with
  | leaf => exact .inl holds
  | node c l x r =>
    right
    rw [holds.pointer]
    simp

theorem Holds.eq_leaf_iff (holds : m.Holds q p t) : p = m.sentinel ↔ t = .leaf := by
  cases t with
  | leaf => exact ⟨fun _ => rfl, fun _ => holds⟩
  | node c l x r =>
    constructor
    · intro same
      exact absurd (holds.1.symm.trans same) holds.2.1
    · intro same
      cases same

theorem Holds.color (holds : m.Holds q p t) (black : m.color m.sentinel = .black) :
    m.color p = t.color := by
  cases t with
  | leaf =>
    rw [show p = m.sentinel from holds]
    exact black
  | node c l x r =>
    rw [holds.1]
    exact holds.2.2.1

theorem Holds.parent (holds : m.Holds q p (.node c l x r)) : m.parent p = q := by
  rw [holds.1]
  exact holds.2.2.2.1

/-- A subtree whose root gets another parent. -/
theorem Holds.move {q' : ν} : ∀ {t : Rbt ν} {q p : ν}, m.Holds q p t → t.nodes.Nodup →
    m'.sentinel = m.sentinel → (∀ v ∈ t.nodes, ∀ side, m'.child side v = m.child side v) →
    (∀ v ∈ t.nodes, m'.color v = m.color v) →
    (∀ v ∈ t.nodes, v ≠ p → m'.parent v = m.parent v) → (p ≠ m.sentinel → m'.parent p = q') →
    m'.Holds q' p t
  | .leaf, _, _, holds, _, sentinel, _, _, _, _ => holds.trans sentinel.symm
  | .node c l x r, q, p, holds, distinct, sentinel, child, color, parent, adopted => by
    obtain ⟨rfl, real, paint, -, left, right⟩ := holds
    simp only [Rbt.nodes_node, List.nodup_append, List.nodup_cons] at distinct
    obtain ⟨leftDistinct, ⟨rightFresh, rightDistinct⟩, apart⟩ := distinct
    have member : p ∈ (Rbt.node c l p r).nodes := by simp
    have leftMember : ∀ v ∈ l.nodes, v ∈ (Rbt.node c l p r).nodes := fun v inside => by
      simp [inside]
    have rightMember : ∀ v ∈ r.nodes, v ∈ (Rbt.node c l p r).nodes := fun v inside => by
      simp [inside]
    refine ⟨rfl, sentinel ▸ real, (color p member).trans paint, adopted real, ?_, ?_⟩
    · rw [show m'.left p = m.left p from child p member .left]
      refine left.move leftDistinct sentinel (fun v inside => child v (leftMember v inside))
        (fun v inside => color v (leftMember v inside)) ?_ ?_
      · intro v inside _
        exact parent v (leftMember v inside) fun same => apart v inside p (by simp) same
      · intro real'
        obtain same | inside := left.pointer_mem
        · exact absurd same real'
        · have fresh : m.left p ≠ p := apart _ inside p (by simp)
          rw [parent _ (leftMember _ inside) fresh]
          exact match l, left with | .node _ _ _ _, left => left.parent
    · rw [show m'.right p = m.right p from child p member .right]
      refine right.move rightDistinct sentinel (fun v inside => child v (rightMember v inside))
        (fun v inside => color v (rightMember v inside)) ?_ ?_
      · intro v inside _
        exact parent v (rightMember v inside) fun same => rightFresh (same ▸ inside)
      · intro real'
        obtain same | inside := right.pointer_mem
        · exact absurd same real'
        · have fresh : m.right p ≠ p := fun same => rightFresh (same ▸ inside)
          rw [parent _ (rightMember _ inside) fresh]
          exact match r, right with | .node _ _ _ _, right => right.parent

/-- A subtree none of whose nodes is stored to. -/
theorem Holds.congr {xs : List ν} (holds : m.Holds q p t) (distinct : t.nodes.Nodup)
    (within : Within m m' xs) (apart : ∀ v ∈ t.nodes, v ∉ xs) : m'.Holds q p t := by
  refine holds.move distinct within.sentinel (fun v member => within.child v (apart v member))
    (fun v member => within.color v (apart v member))
    (fun v member _ => within.parent v (apart v member)) ?_
  intro real
  obtain same | member := holds.pointer_mem
  · exact absurd same real
  · rw [within.parent p (apart p member)]
    exact match t, holds with | .node _ _ _ _, holds => holds.parent

theorem Around.sentinel_notMem : ∀ {p : ν} {fs : List (Frame ν)}, m.Around p fs →
    m.sentinel ∉ pathNodes fs
  | _, [], _ => List.not_mem_nil
  | p, f :: fs, around => by
    obtain ⟨-, real, -, -, sibling, outer⟩ := around
    simp only [pathNodes_cons, List.mem_cons, List.mem_append, not_or]
    exact ⟨real.symm, sibling.sentinel_notMem, outer.sentinel_notMem⟩

theorem Around.root_mem : ∀ {p : ν} {fs : List (Frame ν)}, m.Around p fs → fs ≠ [] →
    m.root ∈ pathNodes fs
  | _, [], _, inner => absurd rfl inner
  | p, [f], around, _ => by
    obtain ⟨-, -, -, -, -, outer⟩ := around
    rw [pathNodes_cons, show m.root = f.x from outer]
    exact List.mem_cons_self
  | p, f :: g :: fs, around, _ => by
    obtain ⟨-, -, -, -, -, outer⟩ := around
    have member := outer.root_mem (List.cons_ne_nil g fs)
    rw [pathNodes_cons]
    exact List.mem_cons_of_mem _ (List.mem_append_right _ member)

/-- A path none of whose nodes is stored to. -/
theorem Around.congr {xs : List ν} (within : Within m m' xs) (root : m'.root = m.root) :
    ∀ {p : ν} {fs : List (Frame ν)}, m.Around p fs → (pathNodes fs).Nodup →
    (∀ v ∈ pathNodes fs, v ∉ xs) → m'.Around p fs
  | _, [], around, _, _ => root.trans around
  | p, f :: fs, around, distinct, apart => by
    obtain ⟨link, real, paint, parent, sibling, outer⟩ := around
    rw [pathNodes_cons] at distinct apart
    obtain ⟨_, rest⟩ := List.nodup_cons.mp distinct
    have fresh : f.x ∉ xs := apart f.x List.mem_cons_self
    refine ⟨?_, within.sentinel ▸ real, (within.color f.x fresh).trans paint, ?_, ?_, ?_⟩
    · rw [within.child f.x fresh]
      exact link
    · rw [within.parent f.x fresh]
      exact parent
    · rw [within.child f.x fresh]
      exact sibling.congr rest.of_append_left within fun v member =>
        apart v (List.mem_cons_of_mem _ (List.mem_append_left _ member))
    · exact Around.congr within root outer rest.of_append_right fun v member =>
        apart v (List.mem_cons_of_mem _ (List.mem_append_right _ member))

/-- The whole tree, none of whose nodes is stored to. -/
theorem At.congr {xs : List ν} (view : m.At p t fs) (within : Within m m' xs)
    (root : m'.root = m.root) (apart : ∀ v ∈ t.nodes ++ pathNodes fs, v ∉ xs)
    (real : m.sentinel ∉ xs) : m'.At p t fs := by
  obtain ⟨focus, outer, distinct, sentinel⟩ := view
  have inner : ∀ v ∈ t.nodes, v ∉ xs := fun v member => apart v (List.mem_append_left _ member)
  have parent : m'.parent p = m.parent p := by
    obtain ended | member := focus.pointer_mem
    · exact within.parent p (ended ▸ real)
    · exact within.parent p (inner p member)
  refine ⟨?_, ?_, distinct, ?_⟩
  · rw [parent]
    exact focus.congr distinct.of_append_left within inner
  · exact outer.congr within root distinct.of_append_right fun v member =>
      apart v (List.mem_append_right _ member)
  · rw [within.sentinel, within.color m.sentinel real]
    exact sentinel

theorem At.link (view : m.At p t (f :: fs)) : m.child f.side f.x = p := view.around.1

theorem At.up (view : m.At p t (f :: fs)) : m.At f.x (f.fill t) fs := by
  obtain ⟨focus, ⟨link, real, paint, parent, sibling, outer⟩, distinct, sentinel⟩ := view
  refine ⟨?_, outer, ?_, sentinel⟩
  · obtain ⟨side, c, x, s⟩ := f
    rw [← link] at focus
    cases side with
    | left => exact ⟨rfl, real, paint, parent, focus, sibling⟩
    | right => exact ⟨rfl, real, paint, parent, sibling, focus⟩
  · have perm := (f.perm_fill (t := t)).append_right (pathNodes fs)
    rw [List.append_assoc] at perm
    exact perm.nodup_iff.mpr distinct

theorem At.down (view : m.At p (f.fill t) fs) :
    p = f.x ∧ m.At (m.child f.side f.x) t (f :: fs) := by
  obtain ⟨focus, outer, distinct, sentinel⟩ := view
  have unfolded : p = f.x ∧ f.x ≠ m.sentinel ∧ m.color f.x = f.color ∧
      m.parent f.x = upper fs (m.parent p) ∧ m.Holds f.x (m.child f.side f.x) t ∧
      m.Holds f.x (m.child f.side.other f.x) f.sibling := by
    obtain ⟨side, c, x, s⟩ := f
    cases side with
    | left =>
      obtain ⟨same, real, paint, parent, inner, sibling⟩ := focus
      exact ⟨same, real, paint, parent, inner, sibling⟩
    | right =>
      obtain ⟨same, real, paint, parent, sibling, inner⟩ := focus
      exact ⟨same, real, paint, parent, inner, sibling⟩
  obtain ⟨rfl, real, paint, parent, inner, sibling⟩ := unfolded
  refine ⟨rfl, inner, ⟨rfl, real, paint, parent, sibling, outer⟩, ?_, sentinel⟩
  have perm := (f.perm_fill (t := t)).append_right (pathNodes fs)
  rw [List.append_assoc] at perm
  exact perm.nodup_iff.mp distinct

/-- The other subtree below the same node. -/
theorem At.cross {s : Rbt ν} (view : m.At p t (⟨side, c, x, s⟩ :: fs)) :
    m.At (m.child side.other x) s (⟨side.other, c, x, t⟩ :: fs) := by
  have whole := view.up
  rw [← Frame.fill_cross] at whole
  exact whole.down.2

/-- The tree, seen from the root. -/
theorem At.close : ∀ {p : ν} {t : Rbt ν} {fs : List (Frame ν)}, m.At p t fs →
    m.At m.root (plug t fs) []
  | p, t, [], view => by
    rw [show m.root = p from view.around]
    exact view
  | p, t, f :: fs, view => view.up.close

theorem At.upward (gs : List (Frame ν)) : ∀ (fs : List (Frame ν)) {p : ν} {t : Rbt ν},
    m.At p t (fs ++ gs) → ∃ q, m.At q (plug t fs) gs
  | [], p, _, view => ⟨p, view⟩
  | _ :: fs, _, _, view => At.upward gs fs view.up

/-- The tree, seen from any place in it. -/
theorem At.open (gs : List (Frame ν)) : ∀ (fs : List (Frame ν)) {p : ν} {t : Rbt ν},
    m.At p (plug t fs) gs → ∃ q, m.At q t (fs ++ gs)
  | [], p, _, view => ⟨p, view⟩
  | f :: fs, p, t, view => by
    obtain ⟨q, inner⟩ := At.open gs fs view
    exact ⟨_, inner.down.2⟩

theorem At.pointer (view : m.At p (.node c l x r) fs) : p = x := view.focus.pointer

theorem At.real (view : m.At p (.node c l x r) fs) : x ≠ m.sentinel := view.focus.2.1

theorem At.color (view : m.At p t fs) : m.color p = t.color := view.focus.color view.sentinel

theorem At.parent (view : m.At p (.node c l x r) (f :: fs)) : m.parent p = f.x :=
  view.focus.parent

theorem At.sentinel_notMem (view : m.At p t fs) : m.sentinel ∉ t.nodes ++ pathNodes fs := by
  rw [List.mem_append, not_or]
  exact ⟨view.focus.sentinel_notMem, view.around.sentinel_notMem⟩

theorem At.eq_leaf_iff (view : m.At p t fs) : p = m.sentinel ↔ t = .leaf :=
  view.focus.eq_leaf_iff

theorem At.ne_root (view : m.At p t fs) (inner : fs ≠ []) : p ≠ m.root := by
  have root : m.root ∈ pathNodes fs := view.around.root_mem inner
  intro same
  obtain ended | member := view.focus.pointer_mem
  · exact view.around.sentinel_notMem (ended ▸ same ▸ root)
  · exact (List.nodup_append.mp view.distinct).2.2 p member m.root root same

/-- Two memories that hold the same subtree have the same pointer to it. -/
theorem At.same_pointer {gs : List (Frame ν)} (view : m.At p t fs) (view' : m'.At q t gs)
    (sentinel : m'.sentinel = m.sentinel) : q = p := by
  cases t with
  | leaf =>
    have ended : p = m.sentinel := view.focus
    have ended' : q = m'.sentinel := view'.focus
    rw [ended, ended', sentinel]
  | node c l x r => exact view'.pointer.trans view.pointer.symm

/-- Of the two subtrees of a node at most one is empty, so their pointers differ. -/
theorem At.ne_sibling (view : m.At p t (f :: fs)) (inner : t ≠ .leaf ∨ f.sibling ≠ .leaf) :
    p ≠ m.child f.side.other f.x := by
  obtain ⟨_, -, -, -, sibling, -⟩ := view.around
  intro same
  have real : p ≠ m.sentinel := by
    intro ended
    obtain inner | inner := inner
    · exact inner (view.eq_leaf_iff.mp ended)
    · exact inner (sibling.eq_leaf_iff.mp (same ▸ ended))
  have member : p ∈ f.sibling.nodes :=
    same ▸ sibling.pointer_mem.resolve_left (same ▸ real)
  have apart := (List.nodup_append.mp view.distinct).2.2 p
    (view.focus.pointer_mem.resolve_left real)
  refine apart p ?_ rfl
  rw [pathNodes_cons]
  exact List.mem_cons_of_mem _ (List.mem_append_left _ member)

/-- The nodes of the two frames above a subtree and those of the three subtrees are different, and
none of them is further up. -/
theorem At.apart {side' : Side} {c' : Color} {a b d : Rbt ν}
    (view : m.At p b (⟨side, c', y, d⟩ :: ⟨side', c, x, a⟩ :: fs)) :
    y ≠ x ∧ (∀ v ∈ b.nodes, v ≠ x ∧ v ≠ y ∧ v ∉ pathNodes fs) ∧
      (∀ v ∈ d.nodes, v ≠ x ∧ v ≠ y ∧ v ∉ b.nodes ∧ v ∉ pathNodes fs) ∧
      (∀ v ∈ a.nodes, v ≠ x ∧ v ≠ y ∧ v ∉ b.nodes ∧ v ∉ pathNodes fs) ∧
      x ∉ pathNodes fs ∧ y ∉ pathNodes fs := by
  have distinct := view.distinct
  simp only [pathNodes_cons, List.nodup_append, List.nodup_cons, List.mem_append, List.mem_cons,
    ne_eq, not_or] at distinct
  obtain ⟨_, ⟨⟨freshD, yx, freshA, yfs⟩, _, ⟨⟨freshA', xfs⟩, _, _, across⟩, beyond⟩, middle⟩ := distinct
  refine ⟨yx, ?_, ?_, ?_, xfs, yfs⟩
  · intro v inside
    refine ⟨middle v inside x (by simp), middle v inside y (by simp), ?_⟩
    exact fun member => middle v inside v (by simp [member]) rfl
  · intro v inside
    refine ⟨beyond v inside x (by simp), fun same => freshD (same ▸ inside), ?_, ?_⟩
    · exact fun member => middle v member v (by simp [inside]) rfl
    · exact fun member => beyond v inside v (by simp [member]) rfl
  · intro v inside
    refine ⟨fun same => freshA' (same ▸ inside), fun same => freshA (same ▸ inside), ?_, ?_⟩
    · exact fun member => middle v member v (by simp [inside]) rfl
    · exact fun member => across v inside v member rfl

def pair : Rbtree (Fin 5) where
  root := 2
  sentinel := 0
  null := 1
  key v := if v = 3 then 7 else 5
  child side v := if side = .right ∧ v = 2 then 3 else 0
  parent v := if v = 3 then 2 else 1
  color v := if v = 3 then .red else .black

theorem pair_represents : pair.Represents [2, 3] := by
  refine ⟨.node .black .leaf 2 (.node .red .leaf 3 .leaf), ⟨?_, rfl, by decide, rfl⟩, ⟨rfl, 1, ?_⟩, rfl⟩
  · exact ⟨rfl, by decide, rfl, rfl, rfl, rfl, by decide, rfl, rfl, rfl, rfl⟩
  · exact .black .leaf (.red .leaf .leaf rfl rfl)

variable [DecidableEq ν]

section Stores

@[simp] theorem root_setChild : (m.setChild side x y).root = m.root := rfl

@[simp] theorem sentinel_setChild : (m.setChild side x y).sentinel = m.sentinel := rfl

@[simp] theorem parent_setChild : (m.setChild side x y).parent = m.parent := rfl

@[simp] theorem color_setChild : (m.setChild side x y).color = m.color := rfl

@[simp] theorem root_setParent : (m.setParent x y).root = m.root := rfl

@[simp] theorem sentinel_setParent : (m.setParent x y).sentinel = m.sentinel := rfl

@[simp] theorem child_setParent : (m.setParent x y).child = m.child := rfl

@[simp] theorem color_setParent : (m.setParent x y).color = m.color := rfl

@[simp] theorem root_setColor : (m.setColor x c).root = m.root := rfl

@[simp] theorem sentinel_setColor : (m.setColor x c).sentinel = m.sentinel := rfl

@[simp] theorem child_setColor : (m.setColor x c).child = m.child := rfl

@[simp] theorem parent_setColor : (m.setColor x c).parent = m.parent := rfl

@[simp] theorem child_setChild_self : (m.setChild side x y).child side x = y := by
  simp [setChild]

theorem child_setChild_of_ne {v : ν} (other : v ≠ x) (s : Side) :
    (m.setChild side x y).child s v = m.child s v := by
  by_cases same : s = side
  · subst same
    simp [setChild, other]
  · simp [setChild, same]

theorem child_setChild_of_side {s : Side} (other : s ≠ side) (v : ν) :
    (m.setChild side x y).child s v = m.child s v := by
  simp [setChild, other]

@[simp] theorem parent_setParent_self : (m.setParent x y).parent x = y := by
  simp [setParent]

theorem parent_setParent_of_ne {v : ν} (other : v ≠ x) :
    (m.setParent x y).parent v = m.parent v := by
  simp [setParent, other]

@[simp] theorem color_setColor_self : (m.setColor x c).color x = c := by
  simp [setColor]

theorem color_setColor_of_ne {v : ν} (other : v ≠ x) :
    (m.setColor x c).color v = m.color v := by
  simp [setColor, other]

theorem setChild_within {xs : List ν} (member : x ∈ xs) : Within m (m.setChild side x y) xs where
  key := rfl
  sentinel := rfl
  null := rfl
  child _ fresh := child_setChild_of_ne (ne_of_mem_of_not_mem member fresh).symm
  parent _ _ := rfl
  color _ _ := rfl

theorem setParent_within {xs : List ν} (member : x ∈ xs) : Within m (m.setParent x y) xs where
  key := rfl
  sentinel := rfl
  null := rfl
  child _ _ _ := rfl
  parent _ fresh := parent_setParent_of_ne (ne_of_mem_of_not_mem member fresh).symm
  color _ _ := rfl

theorem setColor_within {xs : List ν} (member : x ∈ xs) : Within m (m.setColor x c) xs where
  key := rfl
  sentinel := rfl
  null := rfl
  child _ _ _ := rfl
  parent _ _ := rfl
  color _ fresh := color_setColor_of_ne (ne_of_mem_of_not_mem member fresh).symm

def lead (fs : List (Frame ν)) (y : ν) (m : Rbtree ν) : Rbtree ν :=
  match fs with
  | [] => { m with root := y }
  | f :: _ => m.setChild f.side f.x y

@[simp] theorem parent_lead : (m.lead fs y).parent = m.parent := by
  cases fs <;> rfl

@[simp] theorem color_lead : (m.lead fs y).color = m.color := by
  cases fs <;> rfl

@[simp] theorem sentinel_lead : (m.lead fs y).sentinel = m.sentinel := by
  cases fs <;> rfl

theorem rbtreeInit_represents (s : ν) (m : Rbtree ν) : (rbtreeInit s m).Represents [] := by
  refine ⟨.leaf, ⟨rfl, rfl, List.nodup_nil, ?_⟩, ⟨rfl, 0, .leaf⟩, rfl⟩
  exact color_setColor_self

theorem root_lead : (m.lead fs y).root = if fs = [] then y else m.root := by
  cases fs <;> rfl

theorem lead_within : Within m (m.lead fs y) (pathNodes fs) := by
  cases fs with
  | nil => exact ⟨rfl, rfl, rfl, fun _ _ _ => rfl, fun _ _ => rfl, fun _ _ => rfl⟩
  | cons f fs => exact setChild_within List.mem_cons_self

theorem Around.lead (around : m.Around p fs) (distinct : (pathNodes fs).Nodup) :
    (m.lead fs y).Around y fs := by
  cases fs with
  | nil => rfl
  | cons f fs =>
    obtain ⟨_, real, paint, parent, sibling, outer⟩ := around
    rw [pathNodes_cons] at distinct
    obtain ⟨fresh, rest⟩ := List.nodup_cons.mp distinct
    rw [List.mem_append, not_or] at fresh
    have within : Within m (m.setChild f.side f.x y) [f.x] := setChild_within List.mem_cons_self
    refine ⟨child_setChild_self, real, paint, parent, ?_, ?_⟩
    · rw [Rbtree.lead, child_setChild_of_side f.side.other_ne]
      refine sibling.congr rest.of_append_left within fun v member same => fresh.1 ?_
      exact List.mem_singleton.mp same ▸ member
    · refine outer.congr within rfl rest.of_append_right fun v member same => fresh.2 ?_
      exact List.mem_singleton.mp same ▸ member

theorem replaceChild_eq (side : Side) (around : m.Around p fs) (inner : fs ≠ [])
    (real : p ≠ m.sentinel) (parent : m.parent p = upper fs (m.parent p))
    (fresh : p ∉ pathNodes fs) : replaceChild side p y m = m.lead fs y := by
  cases fs with
  | nil => exact absurd rfl inner
  | cons f fs =>
    have parent : m.parent p = f.x := parent
    obtain ⟨link, -, -, -, sibling, -⟩ := around
    have apart : p ≠ m.child f.side.other f.x := by
      intro same
      obtain ended | member := sibling.pointer_mem
      · exact real (same.trans ended)
      · exact fresh (List.mem_cons_of_mem _ (List.mem_append_left _ (same ▸ member)))
    by_cases same : side = f.side
    · subst same
      rw [replaceChild, parent, if_pos link.symm, lead]
    · have flipped : side = f.side.other := Side.eq_other same
      subst flipped
      rw [replaceChild, parent, if_neg apart, lead, Side.other_other]

theorem replace_eq (side : Side) (around : m.Around p fs) (real : p ≠ m.sentinel)
    (parent : m.parent p = upper fs (m.parent p)) (fresh : p ∉ pathNodes fs) :
    replace side p y m = m.lead fs y := by
  cases fs with
  | nil => exact if_pos (Eq.symm around)
  | cons f fs =>
    have inner : p ≠ m.root := by
      intro same
      exact fresh (same ▸ around.root_mem (List.cons_ne_nil f fs))
    rw [replace, if_neg inner]
    exact replaceChild_eq side around (List.cons_ne_nil f fs) real parent fresh

end Stores

theorem At.repaint (view : m.At p (.node c l x r) fs) (c' : Color) :
    (m.setColor x c').At p (.node c' l x r) fs := by
  obtain ⟨⟨same, real, _, parent, left, right⟩, outer, distinct, sentinel⟩ := view
  have within : Within m (m.setColor x c') [x] := setColor_within List.mem_cons_self
  obtain ⟨inner, beyond, apart⟩ := List.nodup_append.mp distinct
  rw [Rbt.nodes_node] at inner
  obtain ⟨leftDistinct, rest, cross⟩ := List.nodup_append.mp inner
  obtain ⟨fresh, rightDistinct⟩ := List.nodup_cons.mp rest
  refine ⟨⟨same, real, color_setColor_self, parent, ?_, ?_⟩, ?_, distinct, ?_⟩
  · refine left.congr leftDistinct within fun v member => ?_
    simpa using cross v member x (by simp)
  · refine right.congr rightDistinct within fun v member => ?_
    simpa using ne_of_mem_of_not_mem member fresh
  · refine outer.congr within rfl beyond fun v member => ?_
    simpa using (apart x (by simp) v member).symm
  · exact (color_setColor_of_ne real.symm).trans sentinel

/-- The node above the place is painted. -/
theorem At.repaint_above (view : m.At p t (f :: fs)) (c' : Color) :
    (m.setColor f.x c').At p t ({ f with color := c' } :: fs) := by
  obtain ⟨side, c, x, s⟩ := f
  have link := view.link
  have whole := view.up
  cases side with
  | left =>
    have painted := (whole.repaint c').down (f := ⟨.left, c', x, s⟩)
    rw [← link]
    exact painted.2
  | right =>
    have painted := (whole.repaint c').down (f := ⟨.right, c', x, s⟩)
    rw [← link]
    exact painted.2

/-- The node two steps above the place is painted. -/
theorem At.repaint_above₂ (view : m.At p t (f :: g :: fs)) (c' : Color) :
    (m.setColor g.x c').At p t (f :: { g with color := c' } :: fs) := by
  have painted := (view.up.repaint_above c').down.2
  have link : (m.setColor g.x c').child f.side f.x = p := view.link
  rw [link] at painted
  exact painted

/-- The node on the other side of the node above the place is painted. -/
theorem At.repaint_sibling {sc : Color} {sx : ν}
    (view : m.At p t (⟨side, c, x, .node sc l sx r⟩ :: fs)) (c' : Color) :
    (m.setColor sx c').At p t (⟨side, c, x, .node c' l sx r⟩ :: fs) := by
  have painted := (view.cross.repaint c').cross
  have link : (m.setColor sx c').child side.other.other x = p := by
    rw [Side.other_other]
    exact view.link
  rw [link] at painted
  simpa only [Side.other_other] using painted

theorem At.repaint_beside {u : Rbt ν} (view : m.At p t (⟨side, c, x, g.fill u⟩ :: fs))
    (c' : Color) : (m.setColor g.x c').At p t
      (⟨side, c, x, Frame.fill { g with color := c' } u⟩ :: fs) := by
  obtain ⟨gside, gc, gx, gs⟩ := g
  cases gside with
  | left => exact At.repaint_sibling view c'
  | right => exact At.repaint_sibling view c'

section Rotation

variable {a b d : Rbt ν} {c' : Color}

theorem Within.lead {xs : List ν} (within : Within m m' xs) :
    Within (m.lead fs y) (m'.lead fs y) xs := by
  cases fs with
  | nil => exact ⟨within.key, within.sentinel, within.null, within.child, within.parent, within.color⟩
  | cons f fs =>
    refine ⟨within.key, within.sentinel, within.null, ?_, within.parent, within.color⟩
    intro v fresh side
    by_cases same : v = f.x
    · subst same
      by_cases same : side = f.side
      · subst same
        simp [Rbtree.lead]
      · simp only [Rbtree.lead, child_setChild_of_side same]
        exact within.child f.x fresh side
    · simp only [Rbtree.lead, child_setChild_of_ne same]
      exact within.child v fresh side

/-- What the rotation of `x` has stored before the link to its place is led to `y`, where `p` is
the subtree in the middle. -/
def lowered (side : Side) (x y p : ν) (m : Rbtree ν) : Rbtree ν :=
  let m₁ := m.setChild side.other x p
  let m₂ := if p ≠ m.sentinel then m₁.setParent p x else m₁
  m₂.setParent y (m.parent x)

def rotated (side : Side) (fs : List (Frame ν)) (x y p : ν) (m : Rbtree ν) : Rbtree ν :=
  (((lowered side x y p m).lead fs y).setChild side y x).setParent x y

theorem child_lowered {v : ν} (s : Side) :
    (lowered side x y p m).child s v = (m.setChild side.other x p).child s v := by
  rw [lowered, child_setParent]
  split <;> rfl

theorem parent_lowered {v : ν} (other : v ≠ y) :
    (lowered side x y p m).parent v = if v = p ∧ p ≠ m.sentinel then x else m.parent v := by
  rw [lowered, parent_setParent_of_ne other]
  by_cases real : p = m.sentinel
  · simp [real]
  · by_cases same : v = p
    · simp [real, same]
    · simp [real, same, parent_setParent_of_ne same]

theorem root_lowered : (lowered side x y p m).root = m.root := by
  rw [lowered]
  split <;> rfl

theorem color_lowered : (lowered side x y p m).color = m.color := by
  rw [lowered, color_setParent]
  split <;> rfl

theorem lowered_within {xs : List ν} (first : x ∈ xs) (second : y ∈ xs)
    (middle : p ≠ m.sentinel → p ∈ xs) : Within m (lowered side x y p m) xs := by
  have start : Within m (m.setChild side.other x p) xs := setChild_within first
  refine Within.trans ?_ (setParent_within second)
  split
  case isTrue real => exact start.trans (setParent_within (middle real))
  case isFalse => exact start

theorem rotated_within {xs : List ν} (first : x ∈ xs) (second : y ∈ xs)
    (middle : p ≠ m.sentinel → p ∈ xs) : Within (m.lead fs y) (rotated side fs x y p m) xs :=
  ((lowered_within first second middle).lead.trans (setChild_within second)).trans
    (setParent_within first)

theorem child_rotated {v : ν} (fresh : v ∉ pathNodes fs) (s : Side) :
    (rotated side fs x y p m).child s v =
      ((m.setChild side.other x p).setChild side y x).child s v := by
  have lowest : ((lowered side x y p m).lead fs y).child s v = (m.setChild side.other x p).child s v :=
    (lead_within.child v fresh s).trans (child_lowered s)
  rw [rotated, child_setParent]
  by_cases same : v = y
  · subst same
    by_cases same : s = side
    · subst same
      simp only [child_setChild_self]
    · simp only [child_setChild_of_side same]
      exact lowest
  · simp only [child_setChild_of_ne same]
    exact lowest

theorem parent_rotated_lower : (rotated side fs x y p m).parent x = y := by
  rw [rotated, parent_setParent_self]

theorem parent_rotated_upper (distinct : y ≠ x) :
    (rotated side fs x y p m).parent y = m.parent x := by
  rw [rotated, parent_setParent_of_ne distinct, parent_setChild, parent_lead, lowered,
    parent_setParent_self]

theorem parent_rotated {v : ν} (first : v ≠ x) (second : v ≠ y) :
    (rotated side fs x y p m).parent v = if v = p ∧ p ≠ m.sentinel then x else m.parent v := by
  rw [rotated, parent_setParent_of_ne first, parent_setChild, parent_lead, parent_lowered second]

theorem color_rotated : (rotated side fs x y p m).color = m.color := by
  rw [rotated, color_setParent, color_setChild, color_lead, color_lowered]

theorem At.rotate_eq (view : m.At p b (⟨side, c', y, d⟩ :: ⟨side.other, c, x, a⟩ :: fs)) :
    rotate side x m = rotated side fs x y p m := by
  obtain ⟨yx, inB, _, _, xfs, yfs⟩ := view.apart
  have link : m.child side y = p := view.link
  have top : m.child side.other x = y := view.up.link
  have whole := view.up.up
  have distinct : (pathNodes fs).Nodup := whole.distinct.of_append_right
  have realX : x ≠ m.sentinel := view.up.around.2.1
  have inside : p ≠ m.sentinel → p ∈ b.nodes := fun real => view.focus.pointer_mem.resolve_left real
  have within : Within m (lowered side x y p m) (y :: x :: b.nodes) :=
    lowered_within (by simp) (by simp) fun real => by simp [inside real]
  have around : (lowered side x y p m).Around x fs := by
    refine Around.congr within root_lowered whole.around distinct fun v member => ?_
    simp only [List.mem_cons, not_or]
    refine ⟨?_, ?_, fun outside => (inB v outside).2.2 member⟩
    · exact ne_of_mem_of_not_mem member yfs
    · exact ne_of_mem_of_not_mem member xfs
  have parent : (lowered side x y p m).parent x = m.parent x := by
    rw [parent_lowered yx.symm, if_neg]
    intro same
    exact (inB p (inside same.2)).1 same.1.symm
  have replaced := replace_eq (y := y) side around (within.sentinel ▸ realX)
    (by rw [parent]; exact view.up.around.2.2.2.1) xfs
  rw [rotated, ← replaced]
  have early : (if p ≠ m.sentinel then (m.setChild side.other x p).setParent p x
      else m.setChild side.other x p).parent x = m.parent x :=
    (parent_setParent_of_ne yx.symm).symm.trans parent
  simp only [rotate, top, link, child_setChild_of_ne yx, sentinel_setChild, early]
  rfl

/-- The rotation exchanges the two nodes above the subtree in the middle. -/
theorem At.rotate (view : m.At p b (⟨side, c', y, d⟩ :: ⟨side.other, c, x, a⟩ :: fs)) :
    (rotate side x m).At p b (⟨side.other, c, x, a⟩ :: ⟨side, c', y, d⟩ :: fs) := by
  obtain ⟨yx, inB, inD, inA, xfs, yfs⟩ := view.apart
  rw [view.rotate_eq]
  obtain ⟨focus, ⟨link, realY, paintY, parentY, treeD, ⟨top, realX, paintX, parentX, treeA,
    outer⟩⟩, distinct, sentinel⟩ := view
  have inside : p ≠ m.sentinel → p ∈ b.nodes := fun real => focus.pointer_mem.resolve_left real
  have within : Within (m.lead fs y) (rotated side fs x y p m) (y :: x :: b.nodes) :=
    rotated_within (by simp) (by simp) fun real => by simp [inside real]
  have same : (rotated side fs x y p m).sentinel = m.sentinel := within.sentinel.trans sentinel_lead
  have color : (rotated side fs x y p m).color = m.color := color_rotated
  have child : ∀ v, v ≠ x → v ≠ y → v ∉ pathNodes fs → ∀ s,
      (rotated side fs x y p m).child s v = m.child s v := by
    intro v first second fresh s
    rw [child_rotated fresh, child_setChild_of_ne second, child_setChild_of_ne first]
  have parent : ∀ v, v ≠ x → v ≠ y → v ∉ b.nodes →
      (rotated side fs x y p m).parent v = m.parent v := by
    intro v first second fresh
    rw [parent_rotated first second, if_neg]
    rintro ⟨rfl, real⟩
    exact fresh (inside real)
  have nodups := distinct
  simp only [pathNodes_cons, List.nodup_append, List.nodup_cons, List.mem_append, List.mem_cons,
    ne_eq, not_or] at nodups
  obtain ⟨nodupB, ⟨_, nodupD, ⟨_, nodupA, nodupFs, _⟩, _⟩, _⟩ := nodups
  have away : ∀ {q r : ν} {t : Rbt ν}, m.Holds q r t → t.nodes.Nodup →
      (∀ v ∈ t.nodes, v ≠ x ∧ v ≠ y ∧ v ∉ b.nodes ∧ v ∉ pathNodes fs) →
      (rotated side fs x y p m).Holds q r t := by
    intro q r t holds nodup fresh
    refine holds.move nodup same ?_ (fun v _ => congrFun color v) ?_ ?_
    · intro v member
      obtain ⟨first, second, _, third⟩ := fresh v member
      exact child v first second third
    · intro v member _
      obtain ⟨first, second, third, _⟩ := fresh v member
      exact parent v first second third
    · intro real
      obtain ended | member := holds.pointer_mem
      · exact absurd ended real
      · obtain ⟨first, second, third, _⟩ := fresh r member
        rw [parent r first second third]
        exact match t, holds with | .node _ _ _ _, holds => holds.parent
  refine ⟨?_, ⟨?_, same ▸ realX, (congrFun color x).trans paintX, parent_rotated_lower, ?_,
    ⟨?_, same ▸ realY, (congrFun color y).trans paintY, ?_, ?_, ?_⟩⟩, ?_, ?_⟩
  · refine focus.move nodupB same ?_ (fun v _ => congrFun color v) ?_ ?_
    · intro v member
      obtain ⟨first, second, third⟩ := inB v member
      exact child v first second third
    · intro v member other
      obtain ⟨first, second, third⟩ := inB v member
      rw [parent_rotated first second, if_neg fun both => other both.1]
    · intro real
      obtain ⟨first, second, third⟩ := inB p (inside real)
      rw [parent_rotated first second, if_pos ⟨rfl, real⟩]
      rfl
  · rw [child_rotated xfs, child_setChild_of_ne yx.symm, child_setChild_self]
  · rw [child_rotated xfs, child_setChild_of_ne yx.symm,
      child_setChild_of_side side.other.other_ne]
    exact away treeA nodupA inA
  · rw [child_rotated yfs, child_setChild_self]
  · rw [parent_rotated_upper yx]
    exact parentX
  · rw [child_rotated yfs, child_setChild_of_side side.other_ne, child_setChild_of_ne yx]
    exact away treeD nodupD inD
  · refine Around.congr within ?_ (Around.lead outer nodupFs) nodupFs ?_
    · have rooted : (rotated side fs x y p m).root = ((lowered side x y p m).lead fs y).root := rfl
      rw [rooted, root_lead, root_lead, root_lowered]
    · intro v member
      simp only [List.mem_cons, not_or]
      exact ⟨ne_of_mem_of_not_mem member yfs, ne_of_mem_of_not_mem member xfs,
        fun other => (inB v other).2.2 member⟩
  · have exchanged : (pathNodes (⟨side.other, c, x, a⟩ :: ⟨side, c', y, d⟩ :: fs)).Perm
        (pathNodes (⟨side, c', y, d⟩ :: ⟨side.other, c, x, a⟩ :: fs)) :=
      List.perm_append_comm_assoc _ _ _
    exact (exchanged.append_left b.nodes).nodup_iff.mpr distinct
  · rw [same, color]
    exact sentinel

theorem At.rotate_within (view : m.At p b (⟨side, c', y, d⟩ :: ⟨side.other, c, x, a⟩ :: fs)) :
    Within m (Core.rotate side x m)
      (plug b (⟨side, c', y, d⟩ :: ⟨side.other, c, x, a⟩ :: fs)).nodes := by
  rw [view.rotate_eq]
  have middle : p ≠ m.sentinel → p ∈ b.nodes := fun real => view.focus.pointer_mem.resolve_left real
  have path : Within m (m.lead fs y)
      (plug b (⟨side, c', y, d⟩ :: ⟨side.other, c, x, a⟩ :: fs)).nodes := by
    refine lead_within.mono fun v member => mem_plug.mpr (.inr ?_)
    simp [pathNodes_cons, member]
  refine path.trans (rotated_within ?_ ?_ fun real => mem_plug.mpr (.inl (middle real)))
  · exact mem_plug.mpr (.inr (by simp [pathNodes_cons]))
  · exact mem_plug.mpr (.inr (by simp [pathNodes_cons]))

end Rotation

end Ngx.Core.Rbtree
