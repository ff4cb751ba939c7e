import Ngx.RbtreeDelete

/-! The red-black tree over whole runs of its callers. -/
namespace Ngx.Core.Rbtree

open RedBlack

variable {ν : Type*}

/-- What a tree is for: the keys in ascending order with their nodes, equal keys in the order in
which they came. -/
abbrev Entries (ν : Type*) := List (UInt64 × ν)

def Entries.nodes (es : Entries ν) : List ν := es.map Prod.snd

structure Keeps (m : Rbtree ν) (es : Entries ν) : Prop where
  tree : m.Represents es.nodes
  key : ∀ e ∈ es, m.key e.2 = e.1
  sorted : es.Pairwise fun a b => a.1 ≤ b.1

variable {m : Rbtree ν} {es : Entries ν} {fuel : Nat}

theorem sorted_nodes (key : ∀ e ∈ es, m.key e.2 = e.1) :
    Sorted UInt64.toNat m es.nodes ↔ es.Pairwise fun a b => a.1 ≤ b.1 := by
  rw [Sorted, Entries.nodes, List.pairwise_map]
  refine List.Pairwise.iff_of_mem fun {a b} memberA memberB => ?_
  rw [key a memberA, key b memberB, UInt64.le_iff_toNat_le]

theorem Keeps.nodup (keeps : Keeps m es) : es.nodes.Nodup := by
  obtain ⟨tree, view, _, nodes⟩ := keeps.tree
  rw [← nodes]
  exact view.distinct.of_append_left

inductive RbtreeOp (ν : Type*)
  | insert (node : ν) (key : UInt64)
  | delete (node : ν)

variable [DecidableEq ν]

def runOp (fuel : Nat) (m : Rbtree ν) : RbtreeOp ν → Option (Rbtree ν)
  | .insert node key => rbtreeInsert fuel rbtreeInsertValue node (m.setKey node key)
  | .delete node => rbtreeDelete fuel node m

def runOps (fuel : Nat) : List (RbtreeOp ν) → Rbtree ν → Option (Rbtree ν)
  | [], m => some m
  | op :: ops, m => (runOp fuel m op).bind (runOps fuel ops)

def walkFrom (fuel : Nat) (m : Rbtree ν) : Nat → ν → Option (List ν)
  | 0, _ => none
  | rounds + 1, node =>
    if node = m.null then some []
    else ((rbtreeNext fuel node m).bind (walkFrom fuel m rounds)).map (node :: ·)

/-- The nodes in the order in which the loop of `ngx_event_no_timers_left` comes to them. -/
def walk (fuel rounds : Nat) (m : Rbtree ν) : Option (List ν) :=
  if m.root = m.sentinel then some []
  else (rbtreeMin m m.sentinel fuel m.root).bind (walkFrom fuel m rounds)

def RbtreeOp.apply (es : Entries ν) : RbtreeOp ν → Entries ν
  | .insert node key => es.orderedInsert (fun a b => a.1 < b.1) (key, node)
  | .delete node => es.filter fun e => e.2 ≠ node

def RbtreeOp.Legal (sentinel : ν) (es : Entries ν) : RbtreeOp ν → Prop
  | .insert node _ => node ≠ sentinel ∧ node ∉ es.nodes
  | .delete node => node ∈ es.nodes

def LegalRun (sentinel : ν) : List (RbtreeOp ν) → Entries ν → Prop
  | [], _ => True
  | op :: ops, es => op.Legal sentinel es ∧ LegalRun sentinel ops (op.apply es)

/-- The loops of every operation may take two passes more than twice the logarithm of the number of
nodes there are then. -/
def EnoughRun (fuel : Nat) : List (RbtreeOp ν) → Entries ν → Prop
  | [], _ => True
  | op :: ops, es => 2 * Nat.log 2 (es.length + 1) + 2 ≤ fuel ∧ EnoughRun fuel ops (op.apply es)

theorem Keeps.insert {node : ν} {key : UInt64} (keeps : Keeps m es) (real : node ≠ m.sentinel)
    (fresh : node ∉ es.nodes) (enough : 2 * Nat.log 2 (es.length + 1) + 2 ≤ fuel) :
    ∃ m', runOp fuel m (.insert node key) = some m' ∧
      Keeps m' ((RbtreeOp.insert node key).apply es) ∧
      m'.sentinel = m.sentinel ∧ m'.null = m.null := by
  have other : ∀ e ∈ es, e.2 ≠ node := fun e member same =>
    fresh (same ▸ List.mem_map_of_mem member)
  have own : (m.setKey node key).key node = key := Function.update_self _ _ _
  have kept : ∀ e ∈ es, (m.setKey node key).key e.2 = e.1 := fun e member =>
    (Function.update_of_ne (other e member) _ _).trans (keeps.key e member)
  have keyed : (m.setKey node key).Represents es.nodes := keeps.tree.setKey
  obtain ⟨m', inserted, tree, ordered, within⟩ := keyed.insert_sorted valueLess UInt64.toNat
    ((sorted_nodes kept).mpr keeps.sorted) (fun _ _ => valueLess_eq _ _) real fresh
    (by simpa [Entries.nodes] using enough)
  have shape : ((RbtreeOp.insert node key).apply es).nodes =
      placed UInt64.toNat (m.setKey node key) node es.nodes := by
    refine List.map_orderedInsert _ _ Prod.snd es (key, node) ?_ ?_
    · intro e member
      rw [own, kept e member, UInt64.lt_iff_toNat_lt]
    · intro e member
      rw [own, kept e member, UInt64.lt_iff_toNat_lt]
  have keys : ∀ e ∈ (RbtreeOp.insert node key).apply es, m'.key e.2 = e.1 := by
    intro e member
    rw [within.key]
    obtain rfl | inside := (List.mem_orderedInsert _).mp member
    · exact own
    · exact kept e inside
  have same : placed UInt64.toNat m' node es.nodes =
      placed UInt64.toNat (m.setKey node key) node es.nodes := by
    rw [placed, placed, within.key]
  exact ⟨m', inserted, ⟨shape ▸ tree, keys, (sorted_nodes keys).mp (shape ▸ ordered)⟩,
    within.sentinel, within.null⟩

theorem Keeps.delete {node : ν} (keeps : Keeps m es) (member : node ∈ es.nodes)
    (enough : 2 * Nat.log 2 (es.length + 1) + 2 ≤ fuel) :
    ∃ m', runOp fuel m (.delete node) = some m' ∧ Keeps m' ((RbtreeOp.delete node).apply es) ∧
      m'.sentinel = m.sentinel ∧ m'.null = m.null := by
  obtain ⟨before, after, split⟩ := List.append_of_mem member
  have distinct := keeps.nodup
  rw [split] at distinct
  obtain ⟨absent, _⟩ := List.nodup_cons.mp (List.nodup_middle.mp distinct)
  have length : (before ++ node :: after).length = es.length := by
    rw [← split, Entries.nodes, List.length_map]
  have tree := keeps.tree
  rw [split] at tree
  obtain ⟨m', deleted, tree', removed⟩ := tree.delete (length.symm ▸ enough)
  have shape : ((RbtreeOp.delete node).apply es).nodes = before ++ after := by
    have passed : ∀ xs : List ν, node ∉ xs → xs.filter (fun x => decide (x ≠ node)) = xs := by
      intro xs outside
      refine List.filter_eq_self.mpr fun x inside => decide_eq_true ?_
      rintro rfl
      exact outside inside
    calc ((RbtreeOp.delete node).apply es).nodes
        = es.nodes.filter fun x => decide (x ≠ node) := by
          rw [Entries.nodes, Entries.nodes, List.filter_map]
          rfl
      _ = before ++ after := by
          rw [split, List.filter_append, List.filter_cons_of_neg (by simp),
            passed before fun inside => absent (List.mem_append_left _ inside),
            passed after fun inside => absent (List.mem_append_right _ inside)]
  refine ⟨m', deleted, ⟨shape ▸ tree', ?_, keeps.sorted.filter _⟩, removed.within.sentinel,
    removed.within.null⟩
  intro e inside
  obtain ⟨inside, apart⟩ := List.mem_filter.mp inside
  rw [removed.within.key]
  exact (Function.update_of_ne (of_decide_eq_true apart) _ _).trans (keeps.key e inside)

theorem Keeps.op (keeps : Keeps m es) (op : RbtreeOp ν) (legal : op.Legal m.sentinel es)
    (enough : 2 * Nat.log 2 (es.length + 1) + 2 ≤ fuel) :
    ∃ m', runOp fuel m op = some m' ∧ Keeps m' (op.apply es) ∧
      m'.sentinel = m.sentinel ∧ m'.null = m.null :=
  match op, legal with
  | .insert _ _, ⟨real, fresh⟩ => keeps.insert real fresh enough
  | .delete _, member => keeps.delete member enough

theorem Keeps.run : ∀ (ops : List (RbtreeOp ν)) {m : Rbtree ν} {es : Entries ν}, Keeps m es →
    LegalRun m.sentinel ops es → EnoughRun fuel ops es →
    ∃ m', runOps fuel ops m = some m' ∧ Keeps m' (ops.foldl RbtreeOp.apply es)
  | [], m, _, keeps, _, _ => ⟨m, rfl, keeps⟩
  | op :: ops, m, es, keeps, ⟨legal, later⟩, ⟨enough, more⟩ => by
    obtain ⟨m₁, ran, keeps₁, sentinel, _⟩ := keeps.op op legal enough
    obtain ⟨m₂, rest, keeps₂⟩ := Keeps.run ops keeps₁ (sentinel ▸ later) more
    refine ⟨m₂, ?_, keeps₂⟩
    rw [runOps, ran]
    exact rest

theorem Represents.walkFrom {xs : List ν} (tree : m.Represents xs) (outside : m.null ∉ xs)
    (enough : 2 * Nat.log 2 (xs.length + 1) ≤ fuel) :
    ∀ (ys zs : List ν) (rounds : Nat), xs = ys ++ zs → zs.length < rounds →
      Rbtree.walkFrom fuel m rounds (zs.headD m.null) = some zs
  | _, _, 0, _, short => absurd short (by omega)
  | ys, [], rounds + 1, _, _ => by simp [Rbtree.walkFrom]
  | ys, x :: zs, rounds + 1, split, short => by
    have inside : x ≠ m.null := by
      rintro rfl
      exact outside (by simp [split])
    have whole : m.Represents (ys ++ x :: zs) := split ▸ tree
    have next : rbtreeNext fuel x m = some (zs.headD m.null) := whole.next (split ▸ enough)
    have rest := tree.walkFrom outside enough (ys ++ [x]) zs rounds (by simp [split])
      (by simpa using short)
    rw [List.headD_cons, Rbtree.walkFrom, if_neg inside, next, Option.bind_some, rest]
    rfl

/-- The tree of a run is a red-black tree of the entries the abstract run has, and no operation takes
more passes through its loops than twice the logarithm of the number of nodes allows. -/
theorem rbtree_run_refines (s : ν) (m : Rbtree ν) (ops : List (RbtreeOp ν)) (legal : LegalRun s ops [])
    (enough : EnoughRun fuel ops []) :
    ∃ m', runOps fuel ops (rbtreeInit s m) = some m' ∧ Keeps m' (ops.foldl RbtreeOp.apply []) := by
  have start : Keeps (rbtreeInit s m) [] :=
    ⟨rbtreeInit_represents s m, fun _ member => absurd member List.not_mem_nil, .nil⟩
  exact start.run ops legal enough

theorem rbtree_run_refines_three : ∃ m', runOps 4 [.insert 2 7, .insert 3 5, .delete 2, .insert 1 7]
    (rbtreeInit 0 pair) = some m' ∧ Keeps m' [(5, 3), (7, 1)] :=
  rbtree_run_refines 0 pair [.insert 2 7, .insert 3 5, .delete 2, .insert 1 7]
    (by simp [LegalRun, RbtreeOp.Legal, RbtreeOp.apply, Entries.nodes]) ⟨by decide, by decide,
      by decide, by decide, trivial⟩

/-- The loop over a tree comes to every node once, in the order of the keys, and ends. -/
theorem rbtree_walk_visits {xs : List ν} (tree : m.Represents xs) (outside : m.null ∉ xs)
    (enough : 2 * Nat.log 2 (xs.length + 1) ≤ fuel) {rounds : Nat} (long : xs.length < rounds) :
    walk fuel rounds m = some xs ∧ xs.Nodup := by
  obtain ⟨t, view, valid, nodes⟩ := id tree
  refine ⟨?_, nodes ▸ view.distinct.of_append_left⟩
  cases xs with
  | nil =>
    have leaf : t = .leaf := by
      cases t with
      | leaf => rfl
      | node c l x r => simp at nodes
    rw [walk, if_pos (view.eq_leaf_iff.mpr leaf)]
  | cons x xs =>
    have inner : m.root ≠ m.sentinel := by
      intro same
      rw [view.eq_leaf_iff.mp same] at nodes
      cases nodes
    rw [walk, if_neg inner, tree.min enough, Option.bind_some]
    exact tree.walkFrom outside enough [] (x :: xs) rounds rfl long

theorem rbtree_walk_visits_pair : walk 8 3 pair = some [2, 3] ∧ ([2, 3] : List (Fin 5)).Nodup :=
  rbtree_walk_visits pair_represents (by decide) (by decide) (by decide)

end Ngx.Core.Rbtree
