import Ngx.RbtreeInsert

/-! Deletion from the red-black tree, and the walk from node to node. -/
namespace Ngx.Core.Rbtree

open RedBlack

variable {ν : Type*} {m m' : Rbtree ν} {n p q x y z w : ν} {t l r near far u : Rbt ν} {c : Color}
  {side : Side} {f g : Frame ν} {fs gs : List (Frame ν)} {k h fuel : Nat}

/-- A place in the tree whose parent link is right even where the subtree is empty. -/
structure Hole (m : Rbtree ν) (p : ν) (t : Rbt ν) (fs : List (Frame ν)) : Prop where
  view : m.At p t fs
  parent : m.parent p = upper fs (m.parent p)

/-- A subtree that is one black node short of what its place needs, if it is black, or else will be
right once its root is black. -/
def Short (k : Nat) (t : Rbt ν) : Prop :=
  (t.color = .black → Levelled k t) ∧ (t.color = .red → Levelled (k + 1) t.blacken)

theorem At.hole (view : m.At p (.node c l x r) fs) : Hole m p (.node c l x r) fs where
  view := view
  parent := view.focus.parent

/-- The place below the same node, in a memory that differs at nodes of the tree only. -/
theorem Hole.keep {xs : List ν} (hole : Hole m p t (f :: fs)) (view : m'.At p t (g :: gs))
    (same : g.x = f.x) (within : Within m m' xs) (real : m.sentinel ∉ xs) :
    Hole m' p t (g :: gs) where
  view := view
  parent := by
    cases t with
    | leaf =>
      have ended : p = m.sentinel := hole.view.focus
      rw [ended, within.parent m.sentinel real, ← ended, hole.parent]
      exact same.symm
    | node c l x r => exact view.parent

theorem At.sentinel_notMem_plug (view : m.At p t fs) : m.sentinel ∉ (plug t fs).nodes := by
  intro member
  exact view.sentinel_notMem (List.mem_append.mpr (mem_plug.mp member))

def Settled (m : Rbtree ν) (t : Rbt ν) (m' : Rbtree ν) : Prop :=
  ∃ t', m'.At m'.root t' [] ∧ t'.nodes = t.nodes ∧ Valid t' ∧ Within m m' t.nodes

theorem Settled.after {t' : Rbt ν} {m'' : Rbtree ν} (rest : Settled m' t' m'')
    (same : t'.nodes = t.nodes) (within : Within m m' t.nodes) : Settled m t m'' := by
  obtain ⟨t'', view, nodes, valid, within'⟩ := rest
  exact ⟨t'', view, nodes.trans same, valid, within.trans (same ▸ within')⟩

/-- Where a pass has painted the sibling red, the node above is the short one, or red. -/
theorem Hole.short_above (hole : Hole m p t (⟨side, c, y, Frame.fill ⟨side, .red, w, far⟩ near⟩ :: fs))
    (balanced : Levelled k t) (nearBalanced : Levelled k near) (nearBlack : near.color = .black)
    (farBalanced : Levelled k far) (farBlack : far.color = .black) (fits : Fits (k + 1) (⟨side, c, y, u⟩ :: fs) h) :
    ∃ k', Hole m y (Frame.fill ⟨side, c, y, Frame.fill ⟨side, .red, w, far⟩ near⟩ t) fs ∧
      Short k' (Frame.fill ⟨side, c, y, Frame.fill ⟨side, .red, w, far⟩ near⟩ t) ∧
      Fits (k' + 1) fs h := by
  have sibling : Levelled k (Frame.fill ⟨side, .red, w, far⟩ near) :=
    Frame.balanced_red nearBalanced nearBlack farBalanced farBlack
  have parent : m.parent y = upper fs (m.parent y) := hole.view.around.2.2.2.1
  have whole : Levelled (k + 1) (Frame.fill ⟨side, .black, y, Frame.fill ⟨side, .red, w, far⟩ near⟩ t) :=
    Frame.balanced_black balanced sibling
  cases fits with
  | black _ fits =>
    exact ⟨k + 1, ⟨hole.view.up, parent⟩, ⟨fun _ => whole, fun red => by simp at red⟩, fits⟩
  | red _ _ _ fits =>
    refine ⟨k, ⟨hole.view.up, parent⟩, ⟨fun black => by simp at black, fun _ => ?_⟩, fits⟩
    rw [Frame.blacken_fill]
    exact whole

variable [DecidableEq ν]

/-- A red far child of a black sibling: one rotation, and nothing is short any more. -/
theorem Hole.fixupEnd {fl fr : Rbt ν} {fx : ν}
    (hole : Hole m p t (⟨side, c, y, Frame.fill ⟨side, .black, w, .node .red fl fx fr⟩ near⟩ :: fs))
    (balanced : Levelled k t) (nearBalanced : Levelled k near)
    (farBalanced : Levelled k (.node .red fl fx fr))
    (fits : Fits (k + 1) (⟨side, c, y, Frame.fill ⟨side, .black, w, .node .red fl fx fr⟩ near⟩ :: fs) h) :
    ∃ m', Core.fixupEnd side p w m = (m'.root, m') ∧ Settled m (plug t
      (⟨side, c, y, Frame.fill ⟨side, .black, w, .node .red fl fx fr⟩ near⟩ :: fs)) m' := by
  have parent : m.parent p = y := hole.parent
  have paint : m.color y = c := hole.view.around.2.2.1
  obtain ⟨_, view⟩ := hole.view.cross.down
  have farLink : m.child side.other w = fx := view.cross.pointer
  have painted := ((view.repaint_above c).repaint_above₂ .black).repaint_sibling .black
  refine ⟨Core.rotate side y (((m.setColor w c).setColor y .black).setColor fx .black), ?_,
    plug near (⟨side.other, .black, y, t⟩ :: ⟨side, c, w, .node .black fl fx fr⟩ :: fs), ?_, ?_, ?_, ?_⟩
  · simp only [Core.fixupEnd, parent, paint, parent_setColor, child_setColor, farLink]
  · exact painted.rotate.close
  · rw [nodes_plug, nodes_plug]
    cases side <;> simp [before, after, Frame.before, Frame.after, Frame.fill, Side.other]
  · have inner : Levelled (k + 1) (Frame.fill ⟨side.other, .black, y, t⟩ near) :=
      Frame.balanced_black nearBalanced balanced
    have outer : Levelled (k + 1) (.node .black fl fx fr) := farBalanced.blacken rfl
    cases fits with
    | black _ fits => exact fits.valid (Frame.balanced_black inner outer) (by simp)
    | red _ _ top fits =>
      exact fits.valid (Frame.balanced_red inner Frame.color_fill outer rfl) fun _ => top
  · refine Within.trans (((setColor_within ?_).trans (setColor_within ?_)).trans
      (setColor_within ?_)) (painted.rotate_within.mono fun v member => ?_)
    all_goals
      simp only [mem_plug, pathNodes_cons, List.mem_cons, List.mem_append, Frame.mem_fill,
        Rbt.nodes_node] at *
      tauto

/-- A red near child of a black sibling: one rotation puts it in the sibling's place, with a red far
child. -/
theorem Hole.turn {nl nr : Rbt ν} {nx : ν}
    (hole : Hole m p t (⟨side, c, y, Frame.fill ⟨side, .black, w, far⟩ (.node .red nl nx nr)⟩ :: fs)) :
    ∃ n₁ n₂, Rbt.node .red nl nx nr = Frame.fill ⟨side.other, .red, nx, n₁⟩ n₂ ∧
      Hole (Core.rotate side.other w ((m.setColor nx .black).setColor w .red)) p t
        (⟨side, c, y, Frame.fill ⟨side, .black, nx, Frame.fill ⟨side, .red, w, far⟩ n₂⟩ n₁⟩ :: fs) ∧
      Within m (Core.rotate side.other w ((m.setColor nx .black).setColor w .red)) (plug t
        (⟨side, c, y, Frame.fill ⟨side, .black, w, far⟩ (.node .red nl nx nr)⟩ :: fs)).nodes := by
  obtain ⟨n₂, n₁, filled⟩ := node_eq_fill side.other .red nl nr nx
  let m₁ := (m.setColor nx .black).setColor w .red
  obtain ⟨_, view⟩ := hole.view.cross.down
  rw [filled] at view
  have low := view.down.2
  have painted : m₁.At (m.child side.other nx) n₂ (⟨side.other, .black, nx, n₁⟩ ::
      ⟨side.other.other, .red, w, far⟩ :: ⟨side.other, c, y, t⟩ :: fs) := by
    rw [Side.other_other]
    exact (low.repaint_above .black).repaint_above₂ .red
  have back := painted.rotate.up.up.cross
  simp only [Side.other_other, Frame.fill_cross] at back
  have within : Within m (Core.rotate side.other w m₁) (plug t (⟨side, c, y,
      Frame.fill ⟨side, .black, w, far⟩ (.node .red nl nx nr)⟩ :: fs)).nodes := by
    rw [filled]
    refine Within.trans ((setColor_within ?_).trans (setColor_within ?_))
      (painted.rotate_within.mono fun v member => ?_)
    all_goals
      simp only [mem_plug, pathNodes_cons, List.mem_cons, List.mem_append, Frame.mem_fill] at *
      tauto
  rw [hole.view.same_pointer back within.sentinel] at back
  exact ⟨n₁, n₂, filled, hole.keep back rfl within hole.view.sentinel_notMem_plug, within⟩

/-- A pass below a black sibling: either the tree is whole again, or the sibling has become red and
the node above is the short one. -/
theorem Hole.fixupBlack
    (hole : Hole m p t (⟨side, c, y, Frame.fill ⟨side, .black, w, far⟩ near⟩ :: fs))
    (balanced : Levelled k t) (nearBalanced : Levelled k near) (farBalanced : Levelled k far)
    (fits : Fits (k + 1) (⟨side, c, y, Frame.fill ⟨side, .black, w, far⟩ near⟩ :: fs) h) :
    (∃ m', Core.fixupBlack side p w m = (m'.root, m') ∧
      Settled m (plug t (⟨side, c, y, Frame.fill ⟨side, .black, w, far⟩ near⟩ :: fs)) m') ∨
    near.color = .black ∧ far.color = .black ∧
      Core.fixupBlack side p w m = (y, m.setColor w .red) ∧
      Hole (m.setColor w .red) p t (⟨side, c, y, Frame.fill ⟨side, .red, w, far⟩ near⟩ :: fs) := by
  have parent : m.parent p = y := hole.parent
  obtain ⟨_, view⟩ := hole.view.cross.down
  have nearColor : m.color (m.child side w) = near.color := view.color
  have farColor : m.color (m.child side.other w) = far.color := view.cross.color
  have both : m.color (m.left w) = .black ∧ m.color (m.right w) = .black ↔
      near.color = .black ∧ far.color = .black := by
    rw [← nearColor, ← farColor]
    cases side with
    | left => exact Iff.rfl
    | right => exact And.comm
  cases farPaint : far.color with
  | red =>
    left
    obtain ⟨fl, fx, fr, rfl⟩ := eq_node_of_red farPaint
    rw [Core.fixupBlack, if_neg (by simp [both]), if_neg (by simp [farColor])]
    exact hole.fixupEnd balanced nearBalanced farBalanced fits
  | black =>
    cases nearPaint : near.color with
    | black =>
      right
      refine ⟨rfl, rfl, ?_, ?_⟩
      · rw [Core.fixupBlack, if_pos (both.mpr ⟨nearPaint, farPaint⟩), parent]
      · have within : Within m (m.setColor w .red) [w] := setColor_within List.mem_cons_self
        refine hole.keep (hole.view.repaint_beside .red) rfl within ?_
        simpa using (view.around.2.1).symm
    | red =>
      left
      obtain ⟨nl, nx, nr, rfl⟩ := eq_node_of_red nearPaint
      have pointer : m.child side w = nx := view.pointer
      obtain ⟨n₁, n₂, filled, turned, within⟩ := hole.turn
      rw [filled] at nearBalanced
      obtain ⟨second, first, secondBlack, _⟩ := Frame.of_balanced_red nearBalanced
      have farRed : Levelled k (Frame.fill ⟨side, .red, w, far⟩ n₂) :=
        Frame.balanced_red second secondBlack farBalanced farPaint
      have whole : Levelled (k + 1) (Frame.fill ⟨side, .black, nx, Frame.fill ⟨side, .red, w, far⟩ n₂⟩
          n₁) := Frame.balanced_black first farRed
      have fits' := fits.beside whole Frame.color_fill
      have link := turned.view.cross.down.1
      obtain ⟨fl, fx, fr, farNode⟩ := eq_node_of_red (t := Frame.fill ⟨side, .red, w, far⟩ n₂)
        Frame.color_fill
      rw [farNode] at turned farRed fits'
      rw [Core.fixupBlack, if_neg (by simp [both, nearPaint]), if_pos (farColor.trans farPaint),
        pointer]
      obtain ⟨m', ended, settled⟩ := turned.fixupEnd balanced first farRed fits'
      refine ⟨m', ?_, settled.after ?_ within⟩
      · simp only [turned.parent, upper, link]
        exact ended
      · rw [← farNode, filled, nodes_plug, nodes_plug]
        cases side <;> simp [before, after, Frame.before, Frame.after, Frame.fill, Side.other]

/-- A red sibling: one rotation gives the short subtree a black sibling and a red parent. -/
theorem Hole.lift
    (hole : Hole m p t (⟨side, .black, y, Frame.fill ⟨side, .red, w, far⟩ near⟩ :: fs)) :
    Hole (Core.rotate side y ((m.setColor w .black).setColor y .red)) p t
        (⟨side, .red, y, near⟩ :: ⟨side, .black, w, far⟩ :: fs) ∧
      Within m (Core.rotate side y ((m.setColor w .black).setColor y .red)) (plug t
        (⟨side, .black, y, Frame.fill ⟨side, .red, w, far⟩ near⟩ :: fs)).nodes := by
  obtain ⟨_, view⟩ := hole.view.cross.down
  have painted := (view.repaint_above .black).repaint_above₂ .red
  have back := painted.rotate.cross
  simp only [Side.other_other] at back
  have within : Within m (Core.rotate side y ((m.setColor w .black).setColor y .red)) (plug t
      (⟨side, .black, y, Frame.fill ⟨side, .red, w, far⟩ near⟩ :: fs)).nodes := by
    refine Within.trans ((setColor_within ?_).trans (setColor_within ?_))
      (painted.rotate_within.mono fun v member => ?_)
    all_goals
      simp only [mem_plug, pathNodes_cons, List.mem_cons, List.mem_append, Frame.mem_fill] at *
      tauto
  rw [hole.view.same_pointer back within.sentinel] at back
  exact ⟨hole.keep back rfl within hole.view.sentinel_notMem_plug, within⟩

theorem At.blacken (view : m.At p t fs) : (m.setColor p .black).At p t.blacken fs := by
  cases t with
  | leaf =>
    have black : m.color p = .black := view.color
    rw [setColor_same black]
    exact view
  | node c l x r =>
    obtain rfl := view.pointer
    exact view.repaint .black

/-- Below the root, or at a red node, the loop ends by painting the place black. -/
theorem At.fixup_done (view : m.At p t fs) (ends : p = m.root ∨ t.color = .red)
    (valid : Valid (plug t.blacken fs)) (fuel : Nat) :
    ∃ m', fixup (fuel + 1) p m = some m' ∧ Settled m (plug t fs) m' := by
  have painted := view.blacken
  refine ⟨m.setColor p .black, ?_, plug t.blacken fs, painted.close,
    nodes_plug_congr (Rbt.nodes_blacken t), valid, ?_⟩
  · rw [fixup, if_neg]
    rintro ⟨inner, black⟩
    obtain root | red := ends
    · exact inner root
    · rw [view.color, red] at black
      cases black
  · obtain ended | member := view.focus.pointer_mem
    · rw [ended, setColor_same view.sentinel]
      exact .refl m _
    · exact setColor_within (mem_plug.mpr (.inl member))

theorem Settled.fixup (settled : Settled m t m') (fuel : Nat) :
    fixup (fuel + 1) m'.root m' = some m' := by
  obtain ⟨t', view, _, valid, _⟩ := settled
  rw [Core.fixup, if_neg fun both => both.1 rfl, view.blacken_root valid]

/-- The loop makes the short place good, in one pass for every step up and one more. -/
theorem Hole.fixup : ∀ (fuel : Nat) {m : Rbtree ν} {p : ν} {t : Rbt ν} {fs : List (Frame ν)}
    {k h : Nat}, Hole m p t fs → Short k t → Fits (k + 1) fs h → fs.length + 1 ≤ fuel →
    ∃ m', Core.fixup fuel p m = some m' ∧ Settled m (plug t fs) m'
  | 0, _, _, _, _, _, _, _, _, _, enough => absurd enough (by omega)
  | fuel + 1, m, p, t, [], k, _, hole, short, fits, _ => by
    have valid : Valid (plug t.blacken []) := by
      refine ⟨Rbt.color_blacken t, ?_⟩
      cases color : t.color with
      | black =>
        rw [Rbt.blacken_of_black color]
        exact ⟨k, short.1 color⟩
      | red => exact ⟨k + 1, short.2 color⟩
    exact hole.view.fixup_done (.inl (Eq.symm hole.view.around)) valid fuel
  | fuel + 1, m, p, t, ⟨side, c, y, s⟩ :: fs, k, h, hole, short, fits, enough => by
    cases color : t.color with
    | red =>
      have valid := fits.valid (short.2 color) (by simp)
      exact hole.view.fixup_done (.inr color) valid fuel
    | black =>
      obtain ⟨fuel, rfl⟩ : ∃ n, fuel = n + 1 := ⟨fuel - 1, by simp at enough; omega⟩
      have balanced : Levelled k t := short.1 color
      have parent : m.parent p = y := hole.parent
      have tall : Levelled (k + 1) s := by
        cases fits with
        | black sibling _ => exact sibling
        | red sibling _ _ _ => exact sibling
      obtain ⟨sc, sl, w, sr, sibling⟩ := tall.nonleaf
      have inner : s ≠ .leaf := by
        rintro rfl
        cases sibling
      have step : Core.fixup (fuel + 1 + 1) p m =
          Core.fixup (fuel + 1) (fixupStep side p m).1 (fixupStep side p m).2 := by
        rw [Core.fixup, if_pos ⟨hole.view.ne_root (by simp), hole.view.color.trans color⟩, parent,
          hole.view.seen_side (.inr inner) fun s => fixupStep s p m]
      rw [step]
      obtain ⟨near, far, filled⟩ := node_eq_fill side sc sl sr w
      obtain rfl : s = Frame.fill ⟨side, sc, w, far⟩ near := sibling.trans filled
      have link : m.child side.other y = w := hole.view.cross.down.1
      have paint : m.color w = sc := by
        rw [← link]
        exact hole.view.cross.color.trans Frame.color_fill
      -- a pass below a black sibling, at this place or one step further down
      have pass : ∀ {m₁ : Rbtree ν} {c₁ : Color} {w₁ : ν} {near₁ far₁ : Rbt ν}
          {fs₁ : List (Frame ν)}, Hole m₁ p t
            (⟨side, c₁, y, Frame.fill ⟨side, .black, w₁, far₁⟩ near₁⟩ :: fs₁) →
          Levelled k near₁ → Levelled k far₁ →
          Fits (k + 1) (⟨side, c₁, y, Frame.fill ⟨side, .black, w₁, far₁⟩ near₁⟩ :: fs₁) h →
          c₁ = .red ∨ fs₁.length ≤ fuel →
          ∃ m', Core.fixup (fuel + 1) (Core.fixupBlack side p w₁ m₁).1
              (Core.fixupBlack side p w₁ m₁).2 = some m' ∧
            Settled m₁ (plug t
              (⟨side, c₁, y, Frame.fill ⟨side, .black, w₁, far₁⟩ near₁⟩ :: fs₁)) m' := by
        intro m₁ c₁ w₁ near₁ far₁ fs₁ hole₁ nearBalanced farBalanced fits₁ bound
        obtain ⟨m', ended, settled⟩ | ⟨nearBlack, farBlack, ended, again⟩ :=
          hole₁.fixupBlack balanced nearBalanced farBalanced fits₁
        · rw [ended]
          exact ⟨m', settled.fixup fuel, settled⟩
        · rw [ended]
          obtain ⟨k', up, short', fits'⟩ :=
            again.short_above balanced nearBalanced nearBlack farBalanced farBlack fits₁
          have within : Within m₁ (m₁.setColor w₁ .red) (plug t
              (⟨side, c₁, y, Frame.fill ⟨side, .black, w₁, far₁⟩ near₁⟩ :: fs₁)).nodes :=
            setColor_within (mem_plug.mpr (.inr (by simp [pathNodes_cons, Frame.mem_fill])))
          have same : (plug (Frame.fill ⟨side, c₁, y, Frame.fill ⟨side, .red, w₁, far₁⟩ near₁⟩ t)
              fs₁).nodes = (plug t
                (⟨side, c₁, y, Frame.fill ⟨side, .black, w₁, far₁⟩ near₁⟩ :: fs₁)).nodes :=
            nodes_plug_congr (by simp [Frame.nodes_fill, Frame.before, Frame.after])
          obtain rfl | bound := bound
          · have valid := fits'.valid (short'.2 Frame.color_fill) (by simp)
            obtain ⟨m', done, settled⟩ := up.view.fixup_done (.inr Frame.color_fill) valid fuel
            exact ⟨m', done, settled.after same within⟩
          · obtain ⟨m', done, settled⟩ := Hole.fixup (fuel + 1) up short' fits' (by omega)
            exact ⟨m', done, settled.after same within⟩
      cases sc with
      | black =>
        obtain ⟨nearBalanced, farBalanced⟩ := Frame.of_balanced_black tall
        rw [fixupStep, parent, link, paint, if_neg (by simp)]
        exact pass hole nearBalanced farBalanced fits (.inr (by simp at enough; omega))
      | red =>
        obtain ⟨nearBalanced, farBalanced, nearBlack, farBlack⟩ := Frame.of_balanced_red tall
        cases fits with
        | red _ siblingBlack _ _ => simp at siblingBlack
        | black _ fits =>
          obtain ⟨lifted, within⟩ := hole.lift
          obtain ⟨nc, nl, nx, nr, rfl⟩ := nearBalanced.nonleaf
          obtain rfl : nc = .black := nearBlack
          obtain ⟨n₁, n₂, nearFilled⟩ := node_eq_fill side .black nl nr nx
          rw [nearFilled] at lifted nearBalanced within
          obtain ⟨first, second⟩ := Frame.of_balanced_black nearBalanced
          have link' := lifted.view.cross.down.1
          have fits' : Fits (k + 1) (⟨side, .red, y, Frame.fill ⟨side, .black, nx, n₂⟩ n₁⟩ ::
              ⟨side, .black, w, far⟩ :: fs) h :=
            .red nearBalanced Frame.color_fill rfl (.black farBalanced fits)
          obtain ⟨m', done, settled⟩ := pass lifted first second fits' (.inl rfl)
          refine ⟨m', ?_, settled.after ?_ ?_⟩
          · rw [fixupStep, parent, link, paint, if_pos rfl]
            have above : (Core.rotate side y ((m.setColor w .black).setColor y .red)).parent p = y :=
              lifted.parent
            simp only [parent_setColor, parent, above, link']
            exact done
          · rw [nearFilled, nodes_plug, nodes_plug]
            cases side <;> simp [before, after, Frame.before, Frame.after, Frame.fill]
          · rw [nearFilled]
            exact within

/-- The links of a node with one empty subtree now lead past it. -/
theorem At.bypass {s : ν} {sc : Color} (view : m.At q u (⟨side, sc, s, .leaf⟩ :: fs)) (v : ν) :
    ((m.lead fs q).setParent q v).Around q fs ∧
      ((m.lead fs q).setParent q v).Holds v q u := by
  have distinct := view.distinct
  simp only [pathNodes_cons, Rbt.nodes_leaf, List.nil_append] at distinct
  obtain ⟨inner, rest, apart⟩ := List.nodup_append.mp distinct
  obtain ⟨fresh, outer⟩ := List.nodup_cons.mp rest
  have around := view.up.around
  have within : Within (m.lead fs q) ((m.lead fs q).setParent q v) [q] :=
    setParent_within List.mem_cons_self
  have beyond : q ∉ pathNodes fs := by
    intro member
    obtain ended | inside := view.focus.pointer_mem
    · exact around.sentinel_notMem (ended ▸ member)
    · exact apart q inside q (List.mem_cons_of_mem _ member) rfl
  constructor
  · refine (around.lead outer).congr within rfl outer fun w member same => beyond ?_
    exact List.mem_singleton.mp same ▸ member
  · refine view.focus.move inner (sentinel_lead) ?_ ?_ ?_ fun _ => parent_setParent_self
    · intro w member side
      rw [child_setParent]
      exact lead_within.child w (fun outside => apart w member w (List.mem_cons_of_mem _ outside) rfl) side
    · intro w _
      rw [color_setParent, color_lead]
    · intro w _ other
      rw [parent_setParent_of_ne other, parent_lead]

def adopt (v s : ν) (m : Rbtree ν) : Rbtree ν :=
  if v ≠ m.sentinel then m.setParent v s else m

theorem adopt_within {s v : ν} {xs : List ν} (member : v ≠ m.sentinel → v ∈ xs) :
    Within m (adopt v s m) xs := by
  rw [adopt]
  split
  case isTrue real => exact setParent_within (member real)
  case isFalse => exact .refl m xs

theorem parent_adopt {s v : ν} : (adopt v s m).parent x =
    if x = v ∧ v ≠ m.sentinel then s else m.parent x := by
  by_cases real : v = m.sentinel
  · simp [adopt, real]
  · by_cases same : x = v
    · simp [adopt, real, same]
    · simp [adopt, real, same, parent_setParent_of_ne same]

@[simp] theorem child_adopt {s v : ν} : (adopt v s m).child = m.child := by
  rw [adopt]
  split <;> rfl

@[simp] theorem color_adopt {s v : ν} : (adopt v s m).color = m.color := by
  rw [adopt]
  split <;> rfl

@[simp] theorem root_adopt {s v : ν} : (adopt v s m).root = m.root := by
  rw [adopt]
  split <;> rfl

@[simp] theorem sentinel_adopt {s v : ν} : (adopt v s m).sentinel = m.sentinel := by
  rw [adopt]
  split <;> rfl

section TakePlace

variable {s pl pr ql qr : ν}

def dressed (s pl pr q : ν) (c : Color) (m : Rbtree ν) : Rbtree ν :=
  (((m.setChild .left s pl).setChild .right s pr).setParent s q).setColor s c

theorem dressed_within : Within m (dressed s pl pr q c m) [s] :=
  (((setChild_within List.mem_cons_self).trans (setChild_within List.mem_cons_self)).trans
    (setParent_within List.mem_cons_self)).trans (setColor_within List.mem_cons_self)

theorem takePlace_eq (around : m.Around x fs) (real : x ≠ m.sentinel)
    (parent : m.parent x = upper fs (m.parent x)) (distinct : (x :: pathNodes fs).Nodup)
    (other : x ≠ s) (fresh : s ∉ pathNodes fs) : takePlace x s m =
      adopt (m.right x) s (adopt (m.left x) s
        ((dressed s (m.left x) (m.right x) (m.parent x) (m.color x) m).lead fs s)) := by
  obtain ⟨beyond, path⟩ := List.nodup_cons.mp distinct
  generalize dress : dressed s (m.left x) (m.right x) (m.parent x) (m.color x) m = d
  have within : Within m d [s] := dress ▸ dressed_within
  have around' : d.Around x fs := by
    refine around.congr within (dress ▸ rfl) path fun v member => ?_
    simpa using ne_of_mem_of_not_mem member fresh
  have parent' : d.parent x = upper fs (d.parent x) := by
    rw [within.parent x (by simpa using other)]
    exact parent
  have replaced : replace .left x s d = d.lead fs s :=
    replace_eq .left around' (within.sentinel ▸ real) parent' beyond
  have left : (d.lead fs s).left s = m.left x := by
    rw [Rbtree.left, lead_within.child s fresh, ← dress, dressed, child_setColor, child_setParent,
      child_setChild_of_side Side.noConfusion, child_setChild_self]
  have right : (d.lead fs s).right s = m.right x := by
    rw [Rbtree.right, lead_within.child s fresh, ← dress, dressed, child_setColor, child_setParent,
      child_setChild_self]
  have stores : takePlace x s m = adopt ((adopt ((replace .left x s d).left s) s
      (replace .left x s d)).right s) s
        (adopt ((replace .left x s d).left s) s (replace .left x s d)) := by
    rw [takePlace, ← dress]
    simp only [dressed, Rbtree.right, Rbtree.left, child_setChild_of_ne other, parent_setChild,
      color_setParent, color_setChild]
    rfl
  rw [stores, replaced, left, Rbtree.right, child_adopt]
  exact congrArg (fun v => adopt v s _) right

/-- The node `s`, which is in no subtree, takes the place of `x` over its two subtrees. Whatever
these have for their parents, they get the new one. -/
theorem Around.takePlace {c : Color} (around : m.Around x fs) (left : m.Holds ql (m.left x) l)
    (right : m.Holds qr (m.right x) r) (real : x ≠ m.sentinel) (real' : s ≠ m.sentinel)
    (parent : m.parent x = upper fs (m.parent x)) (paint : m.color x = c)
    (black : m.color m.sentinel = .black)
    (distinct : (s :: x :: (l.nodes ++ (r.nodes ++ pathNodes fs))).Nodup) :
    (Core.takePlace x s m).At s (.node c l s r) fs ∧
      Within m (Core.takePlace x s m) (s :: (l.nodes ++ (r.nodes ++ pathNodes fs))) := by
  have without : (s :: (l.nodes ++ (r.nodes ++ pathNodes fs))).Nodup :=
    distinct.sublist ((List.sublist_cons_self x _).cons_cons s)
  simp only [List.nodup_cons, List.nodup_append, List.mem_cons, List.mem_append, not_or]
    at distinct
  obtain ⟨⟨other, freshL, freshR, freshFs⟩, ⟨xl, xr, xfs⟩, nodupL, ⟨nodupR, path, apartR⟩, apartL⟩ :=
    distinct
  have stores := takePlace_eq around real parent (List.nodup_cons.mpr ⟨xfs, path⟩)
    (Ne.symm other) freshFs
  rw [paint] at stores
  have inL : m.left x ≠ m.sentinel → m.left x ∈ l.nodes := left.pointer_mem.resolve_left
  have inR : m.right x ≠ m.sentinel → m.right x ∈ r.nodes := right.pointer_mem.resolve_left
  generalize dress : dressed s (m.left x) (m.right x) (m.parent x) c m = d at stores
  have first : Within m d [s] := dress ▸ dressed_within
  have second : Within d (d.lead fs s) (pathNodes fs) := lead_within
  have same : (d.lead fs s).sentinel = m.sentinel := second.sentinel.trans first.sentinel
  have third : Within (d.lead fs s) (Core.takePlace x s m) (l.nodes ++ r.nodes) := by
    rw [stores]
    refine (adopt_within fun real => ?_).trans (adopt_within fun real => ?_)
    · exact List.mem_append_left _ (inL (same ▸ real))
    · rw [sentinel_adopt, same] at real
      exact List.mem_append_right _ (inR real)
  have sentinel : (Core.takePlace x s m).sentinel = m.sentinel := third.sentinel.trans same
  have child : ∀ v, v ∉ pathNodes fs → ∀ side,
      (Core.takePlace x s m).child side v = d.child side v := by
    intro v fresh side
    rw [stores, child_adopt, child_adopt]
    exact second.child v fresh side
  have color : (Core.takePlace x s m).color = d.color := by
    rw [stores, color_adopt, color_adopt, color_lead]
  have parents : ∀ v, (Core.takePlace x s m).parent v =
      if v = m.right x ∧ m.right x ≠ m.sentinel then s
      else if v = m.left x ∧ m.left x ≠ m.sentinel then s else d.parent v := by
    intro v
    rw [stores, parent_adopt, parent_adopt, sentinel_adopt, parent_lead, same]
  have dressLeft : d.left s = m.left x := by
    rw [← dress, dressed, Rbtree.left, child_setColor, child_setParent,
      child_setChild_of_side Side.noConfusion, child_setChild_self]
  have dressRight : d.right s = m.right x := by
    rw [← dress, dressed, Rbtree.right, child_setColor, child_setParent, child_setChild_self]
  have dressParent : d.parent s = m.parent x := by
    rw [← dress, dressed, parent_setColor, parent_setParent_self]
  have dressColor : d.color s = c := by
    rw [← dress, dressed, color_setColor_self]
  have notS : ∀ {v : ν}, v ≠ s → v ∉ [s] := fun other => by simpa using other
  have parentS : (Core.takePlace x s m).parent s = m.parent x := by
    rw [parents, if_neg, if_neg, dressParent]
    · rintro ⟨rfl, real⟩
      exact freshL (inL real)
    · rintro ⟨rfl, real⟩
      exact freshR (inR real)
  have around' : d.Around x fs := by
    refine around.congr first (dress ▸ rfl) path fun v member => ?_
    exact notS (ne_of_mem_of_not_mem member freshFs)
  refine ⟨⟨⟨rfl, sentinel ▸ real', ?_, ?_, ?_, ?_⟩, ?_, ?_, ?_⟩, ?_⟩
  · rw [color]
    exact dressColor
  · rw [parentS]
    exact parent
  · rw [show (Core.takePlace x s m).left s = m.left x from (child s freshFs .left).trans dressLeft]
    refine left.move nodupL sentinel ?_ ?_ ?_ ?_
    · intro v member side
      have fresh : v ∉ pathNodes fs := fun outside => apartL v member v (.inr outside) rfl
      rw [child v fresh, first.child v (notS (ne_of_mem_of_not_mem member freshL))]
    · intro v member
      rw [color, first.color v (notS (ne_of_mem_of_not_mem member freshL))]
    · intro v member upper
      rw [parents, if_neg, if_neg fun both => upper both.1,
        first.parent v (notS (ne_of_mem_of_not_mem member freshL))]
      rintro ⟨rfl, real⟩
      exact apartL _ member _ (.inl (inR real)) rfl
    · intro real
      rw [parents]
      simp [real]
  · rw [show (Core.takePlace x s m).right s = m.right x from
      (child s freshFs .right).trans dressRight]
    refine right.move nodupR sentinel ?_ ?_ ?_ ?_
    · intro v member side
      have fresh : v ∉ pathNodes fs := fun outside => apartR v member v outside rfl
      rw [child v fresh, first.child v (notS (ne_of_mem_of_not_mem member freshR))]
    · intro v member
      rw [color, first.color v (notS (ne_of_mem_of_not_mem member freshR))]
    · intro v member upper
      rw [parents, if_neg fun both => upper both.1, if_neg,
        first.parent v (notS (ne_of_mem_of_not_mem member freshR))]
      rintro ⟨rfl, real⟩
      exact apartL _ (inL real) _ (.inl member) rfl
    · intro real
      rw [parents, if_pos ⟨rfl, real⟩]
  · refine (around'.lead path).congr third ?_ path fun v member => ?_
    · rw [stores, root_adopt, root_adopt]
    · rw [List.mem_append, not_or]
      exact ⟨fun inside => apartL v inside v (.inr member) rfl,
        fun inside => apartR v inside v member rfl⟩
  · have listed : ((Rbt.node c l s r).nodes ++ pathNodes fs).Perm
        (s :: (l.nodes ++ (r.nodes ++ pathNodes fs))) := by
      rw [Rbt.nodes_node, List.append_assoc, List.cons_append]
      exact List.perm_middle
    exact listed.nodup_iff.mpr without
  · rw [sentinel, color, first.color _ (notS real'.symm)]
    exact black
  · refine ((first.mono ?_).trans (second.mono ?_)).trans (third.mono ?_)
    all_goals
      intro v member
      simp only [List.mem_cons, List.mem_append, List.not_mem_nil, or_false] at *
      tauto

end TakePlace

/-- Nothing but links and colors of the given nodes has changed, the parent of the sentinel and all
of the deleted node, which no longer leads anywhere. -/
structure Removed (m m' : Rbtree ν) (x : ν) (xs : List ν) : Prop where
  within : Within (m.setKey x 0) m' (m.sentinel :: x :: xs)
  child : ∀ side, m'.child side x = m.null
  parent : m'.parent x = m.null

theorem Holds.setKey {key : UInt64} : ∀ {t : Rbt ν} {q p : ν}, m.Holds q p t →
    (m.setKey n key).Holds q p t
  | .leaf, _, _, holds => holds
  | .node _ _ _ _, _, _, ⟨same, real, paint, parent, left, right⟩ =>
    ⟨same, real, paint, parent, left.setKey, right.setKey⟩

theorem Around.setKey {key : UInt64} : ∀ {fs : List (Frame ν)} {p : ν}, m.Around p fs →
    (m.setKey n key).Around p fs
  | [], _, around => around
  | _ :: _, _, ⟨link, real, paint, parent, sibling, outer⟩ =>
    ⟨link, real, paint, parent, sibling.setKey, outer.setKey⟩

theorem At.setKey {key : UInt64} (view : m.At p t fs) : (m.setKey n key).At p t fs :=
  ⟨view.focus.setKey, view.around.setKey, view.distinct, view.sentinel⟩

theorem Represents.setKey {key : UInt64} {xs : List ν} (tree : m.Represents xs) :
    (m.setKey n key).Represents xs := by
  obtain ⟨t, view, valid, nodes⟩ := tree
  exact ⟨t, view.setKey, valid, nodes⟩

theorem Within.setKey {key : UInt64} {xs : List ν} (within : Within m m' xs) :
    Within (m.setKey n key) (m'.setKey n key) xs where
  key := by rw [Rbtree.setKey, Rbtree.setKey, within.key]
  sentinel := within.sentinel
  null := within.null
  child := within.child
  parent := within.parent
  color := within.color

def cut (x : ν) (m : Rbtree ν) : Rbtree ν :=
  ((m.setChild .left x m.null).setChild .right x m.null).setParent x m.null

theorem cut_within : Within m (cut x m) [x] :=
  ((setChild_within List.mem_cons_self).trans (setChild_within List.mem_cons_self)).trans
    (setParent_within List.mem_cons_self)

theorem child_clear (side : Side) : (clear x m).child side x = m.null := by
  have other : Side.left ≠ .right := Side.noConfusion
  cases side with
  | left =>
    change (cut x m).child .left x = m.null
    rw [cut, child_setParent, child_setChild_of_side other, child_setChild_self]
  | right =>
    change (cut x m).child .right x = m.null
    rw [cut, child_setParent, child_setChild_self]

theorem parent_clear : (clear x m).parent x = m.null := by
  change (cut x m).parent x = m.null
  rw [cut, parent_setParent_self]

theorem Hole.clear (hole : Hole m q u fs) (fresh : x ∉ u.nodes ++ pathNodes fs)
    (real : x ≠ m.sentinel) : Hole (clear x m) q u fs where
  view := (hole.view.congr cut_within rfl
    (fun v member => by simpa using ne_of_mem_of_not_mem member fresh)
    (by simpa using real.symm)).setKey
  parent := by
    have other : q ≠ x := by
      rintro rfl
      obtain ended | member := hole.view.focus.pointer_mem
      · exact real ended
      · exact fresh (List.mem_append_left _ member)
    have same : (Core.clear x m).parent q = m.parent q := cut_within.parent q (by simpa using other)
    rw [same]
    exact hole.parent

/-- What the deletion is to give back, once the node is out of the tree. -/
theorem Removed.settle {m₁ m₂ : Rbtree ν} {xs : List ν} (within : Within m m₁ (m.sentinel :: x :: xs))
    (settled : Settled (Core.clear x m₁) t m₂) (inside : t.nodes ⊆ xs) (fresh : x ∉ t.nodes) :
    Removed m m₂ x xs := by
  obtain ⟨t', _, nodes, _, later⟩ := settled
  have cleared : Within (m.setKey x 0) (Core.clear x m₁) (m.sentinel :: x :: xs) :=
    within.setKey.trans ((cut_within.setKey).mono (by simp))
  refine ⟨cleared.trans (later.mono fun v member => by simp [inside member]), ?_, ?_⟩
  · intro side
    rw [later.child x fresh, child_clear, within.null]
  · rw [later.parent x fresh, parent_clear, within.null]

/-- After the node is out, the tree is in order or the loop makes it so. -/
theorem Hole.finish {sc : Color} {s : ν} (hole : Hole m q u fs)
    (balanced : Levelled k (Frame.fill ⟨side, sc, s, .leaf⟩ u)) (fits : Fits k fs h)
    (enough : fs.length + 1 ≤ fuel) : ∃ m', (if sc = .red then some m else Core.fixup fuel q m) = some m' ∧
      Settled m (plug u fs) m' := by
  cases sc with
  | red =>
    obtain ⟨inner, _, black, _⟩ := Frame.of_balanced_red balanced
    have valid := fits.valid inner fun red => by simp [black] at red
    exact ⟨m, if_pos rfl, plug u fs, hole.view.close, rfl, valid, .refl m _⟩
  | black =>
    cases k with
    | zero =>
      have none := balanced.leaf_of_black Frame.color_fill
      exact absurd none Frame.fill_ne_leaf
    | succ k =>
      obtain ⟨inner, _⟩ := Frame.of_balanced_black balanced
      rw [if_neg (by simp)]
      exact hole.fixup fuel ⟨fun _ => inner, inner.blacken⟩ fits enough

/-- What the deletion of `x` is to give back, where `t` is the tree without `x`. -/
def Deleted (m : Rbtree ν) (x : ν) (t : Rbt ν) (result : Option (Rbtree ν)) : Prop :=
  ∃ m', result = some m' ∧ m'.Represents t.nodes ∧ Removed m m' x t.nodes

theorem Settled.deleted {m₁ m₂ : Rbtree ν} (settled : Settled (Core.clear x m₁) t m₂)
    (within : Within m m₁ (m.sentinel :: x :: t.nodes)) (fresh : x ∉ t.nodes) :
    Deleted m x t (some m₂) := by
  have removed := Removed.settle within settled (fun _ member => member) fresh
  obtain ⟨t', view, nodes, valid, _⟩ := settled
  exact ⟨m₂, rfl, ⟨t', view, valid, nodes⟩, removed⟩

/-- A node with an empty subtree is bypassed. -/
theorem At.delete_one {sc : Color} (view : m.At q u (⟨side, sc, x, .leaf⟩ :: fs))
    (valid : Valid (plug u (⟨side, sc, x, .leaf⟩ :: fs))) (enough : fs.length + 1 ≤ fuel) :
    Deleted m x (plug u fs) (deleteAt fuel x x q m) := by
  have whole := view.up
  have real : x ≠ m.sentinel := view.around.2.1
  have paint : m.color x = sc := view.around.2.2.1
  have parent : m.parent x = upper fs (m.parent x) := view.around.2.2.2.1
  have distinct := view.distinct
  simp only [pathNodes_cons, Rbt.nodes_leaf, List.nil_append] at distinct
  have without : (u.nodes ++ pathNodes fs).Nodup :=
    distinct.sublist ((List.sublist_cons_self x _).append_left u.nodes)
  have fresh : x ∉ u.nodes ++ pathNodes fs := by
    obtain ⟨_, rest, apart⟩ := List.nodup_append.mp distinct
    rw [List.mem_append, not_or]
    exact ⟨fun member => apart x member x List.mem_cons_self rfl, (List.nodup_cons.mp rest).1⟩
  have place : q ∈ m.sentinel :: x :: (plug u fs).nodes := by
    obtain ended | member := view.focus.pointer_mem
    · rw [ended]
      exact List.mem_cons_self
    · exact List.mem_cons_of_mem _ (List.mem_cons_of_mem _ (mem_plug.mpr (.inl member)))
  have led : Within m (m.lead fs q) (m.sentinel :: x :: (plug u fs).nodes) :=
    lead_within.mono fun v member =>
      List.mem_cons_of_mem _ (List.mem_cons_of_mem _ (mem_plug.mpr (.inr member)))
  have absent : x ∉ (plug u fs).nodes := fun member => fresh (List.mem_append.mpr (mem_plug.mp member))
  have black : (m.lead fs q).color (m.lead fs q).sentinel = .black := by
    rw [color_lead, sentinel_lead]
    exact view.sentinel
  obtain ⟨k, h, fits, balanced, _⟩ := Valid.fits fs (t := Frame.fill ⟨side, sc, x, .leaf⟩ u) valid
  cases fs with
  | nil =>
    obtain ⟨_, focus⟩ := view.bypass (m.parent q)
    have same : (m.lead [] q).setParent q (m.parent q) = m.lead [] q := by
      rw [setParent, parent_lead, Function.update_eq_self]
      rfl
    rw [same] at focus
    have rooted : (m.lead [] q).At q u [] := ⟨focus, rfl, without, black⟩
    have painted : Hole ((m.lead [] q).setColor q .black) q u.blacken [] := ⟨rooted.blacken, rfl⟩
    have cleared := painted.clear (x := x) (by rwa [Rbt.nodes_blacken]) (by simpa using real)
    have done : Settled (Core.clear x ((m.lead [] q).setColor q .black)) u
        (Core.clear x ((m.lead [] q).setColor q .black)) := by
      obtain ⟨_, _, _, inner, _⟩ := Valid.fits [⟨side, sc, x, .leaf⟩] valid
      exact ⟨u.blacken, cleared.view, Rbt.nodes_blacken u,
        ⟨Rbt.color_blacken u, inner.exists_blacken⟩, .refl _ _⟩
    have root : x = m.root := Eq.symm whole.around
    rw [deleteAt, if_pos root]
    exact done.deleted (led.trans (setColor_within place)) absent
  | cons f fs =>
    have inner : x ≠ m.root := whole.ne_root (List.cons_ne_nil f fs)
    obtain ⟨around, focus⟩ := view.bypass (m.parent x)
    have hole : Hole ((m.lead (f :: fs) q).setParent q (m.parent x)) q u (f :: fs) := by
      refine ⟨⟨?_, around, without, black⟩, ?_⟩
      · have above : m.parent x = f.x := parent
        rw [above] at focus ⊢
        exact focus
      · rw [parent_setParent_self]
        exact parent
    obtain ⟨m', ended, settled⟩ := (hole.clear fresh (by simpa using real)).finish balanced fits enough
    have replaced : replaceChild .left x q m = m.lead (f :: fs) q :=
      replaceChild_eq .left whole.around (List.cons_ne_nil f fs) real parent
        fun member => fresh (List.mem_append_right _ member)
    rw [deleteAt, if_neg inner]
    simp only [replaced, parent_lead, paint, if_true]
    rw [ended]
    exact settled.deleted (led.trans (setParent_within place)) absent

section Two

variable {s : ν} {sc : Color}

/-- Where the node that takes the place of `x` was a child of `x`, the subtree it leaves behind gets
that node for its parent. -/
def heir (x s : ν) (m : Rbtree ν) : ν := if m.parent s = x then s else m.parent s

/-- The lowest node right of `x` has left its place, and the two subtrees of `x` are as before. -/
theorem At.leave (view : m.At q u (⟨side, sc, s, .leaf⟩ :: (gs ++ ⟨.right, c, x, l⟩ :: fs)))
    (m₁ : Rbtree ν) (left : m₁ = (m.lead (gs ++ ⟨.right, c, x, l⟩ :: fs) q).setParent q (heir x s m)) :
    heir x s m = upper (gs ++ ⟨.right, c, s, l⟩ :: fs) (heir x s m) ∧
      m₁.Around x fs ∧ m₁.Holds x (m₁.left x) l ∧ (∃ qr, m₁.Holds qr (m₁.right x) (plug u gs)) ∧
      x ≠ m₁.sentinel ∧ m₁.parent x = upper fs (m₁.parent x) ∧ m₁.color x = c := by
  have parent : m.parent s = upper (gs ++ ⟨.right, c, x, l⟩ :: fs) (m.parent s) := view.around.2.2.2.1
  have bypassed := view.bypass (heir x s m)
  rw [← left] at bypassed
  obtain ⟨around, focus⟩ := bypassed
  cases gs with
  | nil =>
    have above : m.parent s = x := parent
    have same : heir x s m = s := if_pos above
    obtain ⟨link, real, paint, upward, sibling, outer⟩ := around
    have link : m₁.right x = q := link
    exact ⟨same, outer, sibling, ⟨heir x s m, link ▸ focus⟩, real, upward, paint⟩
  | cons g gs =>
    have above : m.parent s = g.x := parent
    have apart : g.x ≠ x := by
      intro same
      have distinct := view.distinct.of_append_right
      rw [pathNodes_cons] at distinct
      have rest := (List.nodup_cons.mp distinct).2.of_append_right
      rw [List.cons_append, pathNodes_cons, same] at rest
      refine (List.nodup_cons.mp rest).1 (List.mem_append_right _ ?_)
      simp [pathNodes, Frame.nodes]
    have same : heir x s m = m.parent s := if_neg (above ▸ apart)
    have value : heir x s m = g.x := same.trans above
    have without : (u.nodes ++ pathNodes (g :: gs ++ ⟨.right, c, x, l⟩ :: fs)).Nodup := by
      have distinct := view.distinct
      rw [pathNodes_cons, Rbt.nodes_leaf, List.nil_append] at distinct
      exact distinct.sublist ((List.sublist_cons_self s _).append_left u.nodes)
    have black : m₁.color m₁.sentinel = .black := by
      rw [left, color_setParent, color_lead, sentinel_setParent, sentinel_lead]
      exact view.sentinel
    rw [value] at focus
    obtain ⟨qr, up⟩ := At.upward (⟨.right, c, x, l⟩ :: fs) (g :: gs) ⟨focus, around, without, black⟩
    obtain ⟨link, real, paint, upward, sibling, outer⟩ := up.around
    have link : m₁.right x = qr := link
    exact ⟨value, outer, sibling, ⟨x, link ▸ up.focus⟩, real, upward, paint⟩

/-- The lowest node right of `x` leaves its place and takes that of `x`. -/
theorem At.succeed (view : m.At q u (⟨side, sc, s, .leaf⟩ :: (gs ++ ⟨.right, c, x, l⟩ :: fs)))
    (m₁ : Rbtree ν) (left : m₁ = (m.lead (gs ++ ⟨.right, c, x, l⟩ :: fs) q).setParent q (heir x s m)) :
    Hole (takePlace x s m₁) q u (gs ++ ⟨.right, c, s, l⟩ :: fs) ∧
      Within m (takePlace x s m₁)
        (m.sentinel :: x :: (plug u (gs ++ ⟨.right, c, s, l⟩ :: fs)).nodes) := by
  obtain ⟨value, outer, treeL, ⟨qr, treeR⟩, real, upward, paint⟩ := view.leave m₁ left
  have sentinel : m₁.sentinel = m.sentinel := by
    rw [left, sentinel_setParent, sentinel_lead]
  have real' : s ≠ m₁.sentinel := sentinel ▸ view.around.2.1
  have black : m₁.color m₁.sentinel = .black := by
    rw [sentinel, left, color_setParent, color_lead]
    exact view.sentinel
  have arranged : (s :: x :: (l.nodes ++ ((plug u gs).nodes ++ pathNodes fs))).Perm
      (u.nodes ++ pathNodes (⟨side, sc, s, .leaf⟩ :: (gs ++ ⟨.right, c, x, l⟩ :: fs))) := by
    refine List.perm_iff_count.mpr fun v => ?_
    rw [pathNodes_cons, pathNodes_append, pathNodes_cons]
    simp only [List.count_cons, List.count_append, (perm_plug u gs).count_eq, Rbt.nodes_leaf,
      List.nil_append]
    omega
  obtain ⟨whole, within⟩ := outer.takePlace treeL treeR real real' upward paint black
    (arranged.nodup_iff.mpr view.distinct)
  obtain ⟨q', low⟩ := At.open (⟨.right, c, s, l⟩ :: fs) gs
    (At.down (f := ⟨.right, c, s, l⟩) whole).2
  have same := view.same_pointer low (within.sentinel.trans sentinel)
  subst same
  have first : Within m m₁ (m.sentinel :: x :: (plug u (gs ++ ⟨.right, c, s, l⟩ :: fs)).nodes) := by
    rw [left]
    refine (lead_within.mono fun v member => ?_).trans (setParent_within ?_)
    · simp only [List.mem_cons, List.mem_append, mem_plug, pathNodes_append, pathNodes_cons] at *
      tauto
    · obtain ended | member := view.focus.pointer_mem
      · rw [ended]
        exact List.mem_cons_self
      · exact List.mem_cons_of_mem _ (List.mem_cons_of_mem _ (mem_plug.mpr (.inl member)))
  refine ⟨⟨low, ?_⟩, first.trans (within.mono fun v member => ?_)⟩
  · cases u with
    | leaf =>
      have ended : q' = m.sentinel := view.focus
      have absent : m.sentinel ∉ s :: x :: (l.nodes ++ ((plug .leaf gs).nodes ++ pathNodes fs)) :=
        fun member => view.sentinel_notMem (arranged.mem_iff.mp member)
      have kept : (takePlace x s m₁).parent q' = heir x s m := by
        rw [within.parent q' ?_, left, parent_setParent_self]
        intro member
        rw [ended] at member
        simp only [List.mem_cons] at member absent
        tauto
      rw [kept]
      exact value
    | node uc ul ux ur => exact low.focus.parent
  · simp only [List.mem_cons, List.mem_append, mem_plug, pathNodes_append, pathNodes_cons] at *
    tauto

theorem At.delete_two (view : m.At q u (⟨side, sc, s, .leaf⟩ :: (gs ++ ⟨.right, c, x, l⟩ :: fs)))
    (valid : Valid (plug u (⟨side, sc, s, .leaf⟩ :: (gs ++ ⟨.right, c, x, l⟩ :: fs))))
    (enough : (gs ++ ⟨.right, c, x, l⟩ :: fs).length + 1 ≤ fuel) :
    Deleted m x (plug u (gs ++ ⟨.right, c, s, l⟩ :: fs)) (deleteAt fuel x s q m) := by
  have one := List.nodup_iff_count_le_one.mp view.distinct x
  rw [pathNodes_cons, pathNodes_append, pathNodes_cons] at one
  simp only [List.count_append, List.count_cons, Rbt.nodes_leaf, List.nil_append, beq_self_eq_true,
    if_true] at one
  have other : s ≠ x := by
    rintro rfl
    simp at one
    omega
  have absent : x ∉ (plug u (gs ++ ⟨.right, c, s, l⟩ :: fs)).nodes := by
    rw [← List.count_eq_zero, (perm_plug _ _).count_eq, pathNodes_append, pathNodes_cons]
    simp only [List.count_append, List.count_cons_of_ne other]
    omega
  have real : x ≠ m.sentinel := by
    intro same
    refine view.sentinel_notMem (List.mem_append_right _ ?_)
    rw [← same, pathNodes_cons, pathNodes_append, pathNodes_cons]
    simp
  have inner : gs ++ ⟨.right, c, x, l⟩ :: fs ≠ [] := by simp
  have root : s ≠ m.root := view.up.ne_root inner
  have paint : m.color s = sc := view.around.2.2.1
  have fresh : s ∉ pathNodes (gs ++ ⟨.right, c, x, l⟩ :: fs) := by
    have apart := view.distinct.of_append_right
    rw [pathNodes_cons, Rbt.nodes_leaf, List.nil_append] at apart
    exact (List.nodup_cons.mp apart).1
  have replaced : replaceChild .left s q m = m.lead (gs ++ ⟨.right, c, x, l⟩ :: fs) q :=
    replaceChild_eq .left view.up.around inner view.around.2.1 view.around.2.2.2.1 fresh
  obtain ⟨hole, within⟩ := view.succeed _ rfl
  have shown : x ∉ u.nodes ++ pathNodes (gs ++ ⟨.right, c, s, l⟩ :: fs) := fun member =>
    absent (mem_plug.mpr (List.mem_append.mp member))
  obtain ⟨k, h, fits, balanced, _⟩ := Valid.fits (gs ++ ⟨.right, c, x, l⟩ :: fs)
    (t := Frame.fill ⟨side, sc, s, .leaf⟩ u) valid
  obtain ⟨m', ended, settled⟩ := (hole.clear shown (within.sentinel ▸ real)).finish balanced
    fits.rename (by simpa using enough)
  have chosen : ∀ m₁ : Rbtree ν, (if m.parent s = x then takePlace x s (m₁.setParent q s)
      else takePlace x s (m₁.setParent q (m.parent s))) = takePlace x s (m₁.setParent q (heir x s m)) := by
    intro m₁
    rw [heir]
    split <;> rfl
  rw [deleteAt, if_neg root]
  simp only [replaced, parent_lead, paint, if_neg other, chosen]
  rw [ended]
  exact settled.deleted within absent

end Two

/-- The leftmost node of a subtree. -/
theorem At.rbtreeMin : ∀ (fuel : Nat) {p : ν} {t : Rbt ν} {fs : List (Frame ν)}, m.At p t fs →
    t ≠ .leaf → t.depth ≤ fuel → ∃ s c r gs, Core.rbtreeMin m m.sentinel fuel p = some s ∧
      t = plug (.node c .leaf s r) gs ∧ before gs = []
  | _, _, .leaf, _, _, inner, _ => absurd rfl inner
  | 0, _, .node _ _ _ _, _, _, _, deep => absurd deep (by simp [Rbt.depth])
  | fuel + 1, p, .node c l x r, fs, view, _, deep => by
    have low := (At.down (f := ⟨.left, c, x, r⟩) view).2
    have pointer : p = x := view.pointer
    subst pointer
    cases l with
    | leaf =>
      have ended : m.left p = m.sentinel := low.focus
      refine ⟨p, c, r, [], ?_, rfl, rfl⟩
      rw [Core.rbtreeMin, if_neg (not_not.mpr ended)]
    | node lc ll lx lr =>
      have going : m.left p ≠ m.sentinel := fun same => absurd (low.eq_leaf_iff.mp same) (by simp)
      have shallow : (Rbt.node lc ll lx lr).depth ≤ fuel :=
        (Nat.le_max_left _ _).trans (Nat.le_of_succ_le_succ deep)
      obtain ⟨s, c', r', gs, found, shape, first⟩ := At.rbtreeMin fuel low (by simp) shallow
      refine ⟨s, c', r', gs ++ [⟨.left, c, p, r⟩], ?_, ?_, ?_⟩
      · rw [Core.rbtreeMin, if_pos going]
        exact found
      · rw [plug_append, ← shape]
        rfl
      · rw [before_append, first]
        rfl

/-- The deletion takes exactly the one node out, and both its loops end within twice the logarithm of
the number of nodes. -/
theorem Represents.delete {xs ys : List ν} (tree : m.Represents (xs ++ x :: ys))
    (enough : 2 * Nat.log 2 ((xs ++ x :: ys).length + 1) + 2 ≤ fuel) :
    ∃ m', rbtreeDelete fuel x m = some m' ∧ m'.Represents (xs ++ ys) ∧
      Removed m m' x (xs ++ ys) := by
  obtain ⟨t, view, valid, nodes⟩ := tree
  have deep := valid.depth_le
  rw [nodes] at deep
  obtain ⟨fs, c, l, r, rfl, low, high⟩ := locate t xs ys nodes
  obtain ⟨p, view⟩ := At.open [] fs view
  rw [List.append_nil] at view
  obtain rfl := view.pointer
  have whole : ∀ (u : Rbt ν) (gs : List (Frame ν)), (plug u gs).nodes = xs ++ ys →
      Deleted m p (plug u gs) (rbtreeDelete fuel p m) → ∃ m', rbtreeDelete fuel p m = some m' ∧
        m'.Represents (xs ++ ys) ∧ Removed m m' p (xs ++ ys) := by
    intro u gs same deleted
    rw [Deleted, same] at deleted
    exact deleted
  have path := depth_plug (.node c l p r) fs
  have tall : 1 ≤ (Rbt.node c l p r).depth := Nat.succ_le_succ (Nat.zero_le _)
  have left := (At.down (f := ⟨.left, c, p, r⟩) view).2
  have right := (At.down (f := ⟨.right, c, p, l⟩) view).2
  by_cases leftEmpty : m.left p = m.sentinel
  · obtain rfl : l = .leaf := left.eq_leaf_iff.mp leftEmpty
    refine whole r fs ?_ ?_
    · rw [nodes_plug, low, high]
      simp
    · rw [rbtreeDelete, if_pos leftEmpty]
      exact right.delete_one valid (by omega)
  by_cases rightEmpty : m.right p = m.sentinel
  · obtain rfl : r = .leaf := right.eq_leaf_iff.mp rightEmpty
    refine whole l fs ?_ ?_
    · rw [nodes_plug, low, high]
      simp
    · rw [rbtreeDelete, if_neg leftEmpty, if_pos rightEmpty]
      exact left.delete_one valid (by omega)
  have inner : r ≠ .leaf := fun same => rightEmpty (right.eq_leaf_iff.mpr same)
  have shallow : r.depth < (Rbt.node c l p r).depth := Nat.lt_succ_of_le (Nat.le_max_right _ _)
  obtain ⟨s, sc, u, gs, found, rfl, first⟩ := right.rbtreeMin fuel inner (by omega)
  obtain ⟨ps, lowest⟩ := At.open (⟨.right, c, p, l⟩ :: fs) gs right
  obtain rfl := lowest.pointer
  have beside := (At.down (f := ⟨.right, sc, ps, .leaf⟩) lowest).2
  have ended : m.left ps = m.sentinel := (At.down (f := ⟨.left, sc, ps, u⟩) lowest).2.focus
  have placed : plug (.node c l p (plug (.node sc .leaf ps u) gs)) fs =
      plug u (⟨.right, sc, ps, .leaf⟩ :: (gs ++ ⟨.right, c, p, l⟩ :: fs)) := by
    rw [plug_cons, plug_append]
    rfl
  rw [placed] at valid deep
  have climb : (Rbt.node sc .leaf ps u).depth + (gs ++ ⟨.right, c, p, l⟩ :: fs).length ≤
      (plug u (⟨.right, sc, ps, .leaf⟩ :: (gs ++ ⟨.right, c, p, l⟩ :: fs))).depth :=
    depth_plug (.node sc .leaf ps u) (gs ++ ⟨.right, c, p, l⟩ :: fs)
  have high' : 1 ≤ (Rbt.node sc .leaf ps u).depth := Nat.succ_le_succ (Nat.zero_le _)
  refine whole u (gs ++ ⟨.right, c, ps, l⟩ :: fs) ?_ ?_
  · rw [nodes_plug, before_append, after_append, low, high, nodes_plug, first]
    simp [before, after, Frame.before, Frame.after]
  · rw [rbtreeDelete, if_neg leftEmpty, if_neg rightEmpty, found]
    simp only [Option.bind_some, ended, ne_eq, not_true_eq_false, if_false]
    exact beside.delete_two valid (by omega)

theorem Represents.min {xs : List ν} (tree : m.Represents (x :: xs))
    (enough : 2 * Nat.log 2 ((x :: xs).length + 1) ≤ fuel) :
    Core.rbtreeMin m m.sentinel fuel m.root = some x := by
  obtain ⟨t, view, valid, nodes⟩ := tree
  have deep := valid.depth_le
  rw [nodes] at deep
  have inner : t ≠ .leaf := by
    rintro rfl
    cases nodes
  obtain ⟨s, c, r, gs, found, rfl, first⟩ := view.rbtreeMin fuel inner (by omega)
  rw [nodes_plug, first, Rbt.nodes_node] at nodes
  rw [found]
  exact congrArg some (List.cons.inj nodes).1

/-- Going up, the next node is the first one reached from its left. -/
theorem At.nextUp : ∀ (fs : List (Frame ν)) {fuel : Nat} {p : ν} {t : Rbt ν}, m.At p t fs →
    t ≠ .leaf → fs.length + 1 ≤ fuel →
    Core.nextUp m m.root fuel p = some ((after fs).headD m.null)
  | _, 0, _, _, _, _, enough => absurd enough (by omega)
  | [], fuel + 1, p, t, view, _, _ => by
    have root : p = m.root := Eq.symm view.around
    rw [Core.nextUp, if_pos root]
    rfl
  | f :: fs, fuel + 1, p, t, view, inner, enough => by
    have parent : m.parent p = f.x := by
      cases t with
      | leaf => exact absurd rfl inner
      | node c l x r => exact view.parent
    have up := At.nextUp fs view.up Frame.fill_ne_leaf (show fs.length + 1 ≤ fuel by simpa using enough)
    rw [Core.nextUp, if_neg (view.ne_root (List.cons_ne_nil f fs)), parent]
    have chosen := view.seen_side (.inl inner) fun side =>
      if side = .left then some f.x else Core.nextUp m m.root fuel f.x
    simp only [if_true, reduceCtorEq, if_false] at chosen
    refine chosen.trans ?_
    obtain ⟨side, c, x, s⟩ := f
    cases side with
    | left => rfl
    | right => simpa [after, Frame.after] using up

/-- From every node the walk goes on to the next one in the order of the tree, and from the last to
`NULL`. -/
theorem Represents.next {xs ys : List ν} (tree : m.Represents (xs ++ x :: ys))
    (enough : 2 * Nat.log 2 ((xs ++ x :: ys).length + 1) ≤ fuel) :
    rbtreeNext fuel x m = some (ys.headD m.null) := by
  obtain ⟨t, view, valid, nodes⟩ := tree
  have deep := valid.depth_le
  rw [nodes] at deep
  obtain ⟨fs, c, l, r, rfl, low, high⟩ := locate t xs ys nodes
  obtain ⟨p, view⟩ := At.open [] fs view
  rw [List.append_nil] at view
  obtain rfl := view.pointer
  have path := depth_plug (.node c l p r) fs
  have right := (At.down (f := ⟨.right, c, p, l⟩) view).2
  have shallow : r.depth < (Rbt.node c l p r).depth := Nat.lt_succ_of_le (Nat.le_max_right _ _)
  by_cases empty : m.right p = m.sentinel
  · obtain rfl : r = .leaf := right.eq_leaf_iff.mp empty
    rw [rbtreeNext, if_neg (not_not.mpr empty), high]
    exact view.nextUp fs (by simp) (by omega)
  · have inner : r ≠ .leaf := fun same => empty (right.eq_leaf_iff.mpr same)
    obtain ⟨s, sc, u, gs, found, rfl, first⟩ := right.rbtreeMin fuel inner (by omega)
    rw [rbtreeNext, if_pos empty, high, nodes_plug, first]
    exact found

end Ngx.Core.Rbtree
