import Ngx.RedBlack

/-! The red-black tree of the timers, store by store. -/
namespace Ngx.Core

open RedBlack

/-- `ngx_rbtree_t` with the nodes, one map for each field. `child` stands for `left` and `right`,
and `null` is the address no node has. -/
structure Rbtree (ν : Type*) where
  root : ν
  sentinel : ν
  null : ν
  key : ν → UInt64
  child : Side → ν → ν
  parent : ν → ν
  color : ν → Color

variable {ν : Type*} [DecidableEq ν]

namespace Rbtree

abbrev left (m : Rbtree ν) : ν → ν := m.child .left

abbrev right (m : Rbtree ν) : ν → ν := m.child .right

def setChild (side : Side) (node y : ν) (m : Rbtree ν) : Rbtree ν :=
  { m with child := Function.update m.child side (Function.update (m.child side) node y) }

def setParent (node y : ν) (m : Rbtree ν) : Rbtree ν :=
  { m with parent := Function.update m.parent node y }

def setColor (node : ν) (c : Color) (m : Rbtree ν) : Rbtree ν :=
  { m with color := Function.update m.color node c }

def setKey (node : ν) (key : UInt64) (m : Rbtree ν) : Rbtree ν :=
  { m with key := Function.update m.key node key }

end Rbtree

def rbtreeInit (s : ν) (m : Rbtree ν) : Rbtree ν :=
  { m.setColor s .black with root := s, sentinel := s }

/-- `temp` takes the place of a node that is no root below its parent. -/
def replaceChild (side : Side) (node temp : ν) (m : Rbtree ν) : Rbtree ν :=
  if node = m.child side (m.parent node) then m.setChild side (m.parent node) temp
  else m.setChild side.other (m.parent node) temp

def replace (side : Side) (node temp : ν) (m : Rbtree ν) : Rbtree ν :=
  if node = m.root then { m with root := temp } else replaceChild side node temp m

def rotate (side : Side) (node : ν) (m : Rbtree ν) : Rbtree ν :=
  let temp := m.child side.other node
  let m := m.setChild side.other node (m.child side temp)
  let m := if m.child side temp ≠ m.sentinel then m.setParent (m.child side temp) node else m
  let m := m.setParent temp (m.parent node)
  let m := replace side node temp m
  let m := m.setChild side temp node
  m.setParent node temp

def leftRotate (node : ν) (m : Rbtree ν) : Rbtree ν := rotate .left node m

def rightRotate (node : ν) (m : Rbtree ν) : Rbtree ν := rotate .right node m

def rbtreeMin (m : Rbtree ν) (sentinel : ν) : Nat → ν → Option ν
  | 0, _ => none
  | fuel + 1, node =>
    if m.left node ≠ sentinel then rbtreeMin m sentinel fuel (m.left node) else some node

/-- The loop of `ngx_rbtree_insert_value` and `ngx_rbtree_insert_timer_value`, which only compare
differently. -/
def insertBy (less : UInt64 → UInt64 → Bool) (node sentinel : ν) (m : Rbtree ν) :
    Nat → ν → Option (Rbtree ν)
  | 0, _ => none
  | fuel + 1, temp =>
    let side := if less (m.key node) (m.key temp) then .left else .right
    if m.child side temp = sentinel then
      let m := m.setChild side temp node
      let m := m.setParent node temp
      let m := m.setChild .left node sentinel
      let m := m.setChild .right node sentinel
      some (m.setColor node .red)
    else insertBy less node sentinel m fuel (m.child side temp)

def valueLess (a b : UInt64) : Bool := decide (a < b)

def timerLess (a b : UInt64) : Bool := decide ((a - b).toInt64 < 0)

def rbtreeInsertValue (fuel : Nat) (temp node sentinel : ν) (m : Rbtree ν) : Option (Rbtree ν) :=
  insertBy valueLess node sentinel m fuel temp

def rbtreeInsertTimerValue (fuel : Nat) (temp node sentinel : ν) (m : Rbtree ν) :
    Option (Rbtree ν) :=
  insertBy timerLess node sentinel m fuel temp

/-- The end of a pass that does not go on with the grandparent. -/
def rebalanceEnd (side : Side) (node : ν) (m : Rbtree ν) : ν × Rbtree ν :=
  let m := m.setColor (m.parent node) .black
  let m := m.setColor (m.parent (m.parent node)) .red
  (node, rotate side.other (m.parent (m.parent node)) m)

/-- One pass of the loop that re-balances after an insertion, the parent being a child of its own
parent on the given side. -/
def rebalanceStep (side : Side) (node : ν) (m : Rbtree ν) : ν × Rbtree ν :=
  let temp := m.child side.other (m.parent (m.parent node))
  if m.color temp = .red then
    let m := m.setColor (m.parent node) .black
    let m := m.setColor temp .black
    let m := m.setColor (m.parent (m.parent node)) .red
    (m.parent (m.parent node), m)
  else if node = m.child side.other (m.parent node) then
    rebalanceEnd side (m.parent node) (rotate side (m.parent node) m)
  else rebalanceEnd side node m

def rebalance : Nat → ν → Rbtree ν → Option (Rbtree ν)
  | 0, _, _ => none
  | fuel + 1, node, m =>
    if node ≠ m.root ∧ m.color (m.parent node) = .red then
      let (node, m) :=
        if m.parent node = m.left (m.parent (m.parent node)) then rebalanceStep .left node m
        else rebalanceStep .right node m
      rebalance fuel node m
    else some (m.setColor m.root .black)

/-- `ngx_rbtree_insert`, with the function the tree was given for `insert`. -/
def rbtreeInsert (fuel : Nat) (insert : Nat → ν → ν → ν → Rbtree ν → Option (Rbtree ν)) (node : ν)
    (m : Rbtree ν) : Option (Rbtree ν) :=
  if m.root = m.sentinel then
    let m := m.setParent node m.null
    let m := m.setChild .left node m.sentinel
    let m := m.setChild .right node m.sentinel
    let m := m.setColor node .black
    some { m with root := node }
  else (insert fuel m.root node m.sentinel m).bind (rebalance fuel node)

/-- The end of a pass of the loop of `ngx_rbtree_delete` below a red far child of `w`. -/
def fixupEnd (side : Side) (temp w : ν) (m : Rbtree ν) : ν × Rbtree ν :=
  let m := m.setColor w (m.color (m.parent temp))
  let m := m.setColor (m.parent temp) .black
  let m := m.setColor (m.child side.other w) .black
  let m := rotate side (m.parent temp) m
  (m.root, m)

def fixupBlack (side : Side) (temp w : ν) (m : Rbtree ν) : ν × Rbtree ν :=
  if m.color (m.left w) = .black ∧ m.color (m.right w) = .black then
    (m.parent temp, m.setColor w .red)
  else if m.color (m.child side.other w) = .black then
    let m := m.setColor (m.child side w) .black
    let m := m.setColor w .red
    let m := rotate side.other w m
    fixupEnd side temp (m.child side.other (m.parent temp)) m
  else fixupEnd side temp w m

/-- One pass of the loop of `ngx_rbtree_delete`, `temp` being the child on the given side. -/
def fixupStep (side : Side) (temp : ν) (m : Rbtree ν) : ν × Rbtree ν :=
  let w := m.child side.other (m.parent temp)
  if m.color w = .red then
    let m := m.setColor w .black
    let m := m.setColor (m.parent temp) .red
    let m := rotate side (m.parent temp) m
    fixupBlack side temp (m.child side.other (m.parent temp)) m
  else fixupBlack side temp w m

def fixup : Nat → ν → Rbtree ν → Option (Rbtree ν)
  | 0, _, _ => none
  | fuel + 1, temp, m =>
    if temp ≠ m.root ∧ m.color temp = .black then
      let (temp, m) :=
        if temp = m.left (m.parent temp) then fixupStep .left temp m
        else fixupStep .right temp m
      fixup fuel temp m
    else some (m.setColor temp .black)

def clear (node : ν) (m : Rbtree ν) : Rbtree ν :=
  let m := m.setChild .left node m.null
  let m := m.setChild .right node m.null
  let m := m.setParent node m.null
  m.setKey node 0

/-- The part of `ngx_rbtree_delete` that gives `subst` the links and the color of `node`. -/
def takePlace (node subst : ν) (m : Rbtree ν) : Rbtree ν :=
  let m := m.setChild .left subst (m.left node)
  let m := m.setChild .right subst (m.right node)
  let m := m.setParent subst (m.parent node)
  let m := m.setColor subst (m.color node)
  let m := replace .left node subst m
  let m := if m.left subst ≠ m.sentinel then m.setParent (m.left subst) subst else m
  if m.right subst ≠ m.sentinel then m.setParent (m.right subst) subst else m

/-- `ngx_rbtree_delete` once `subst` and `temp` are chosen. -/
def deleteAt (fuel : Nat) (node subst temp : ν) (m : Rbtree ν) : Option (Rbtree ν) :=
  if subst = m.root then
    let m := { m with root := temp }
    let m := m.setColor temp .black
    some (clear node m)
  else
    let substColor := m.color subst
    let m := replaceChild .left subst temp m
    let m :=
      if subst = node then m.setParent temp (m.parent subst)
      else if m.parent subst = node then takePlace node subst (m.setParent temp subst)
      else takePlace node subst (m.setParent temp (m.parent subst))
    let m := clear node m
    if substColor = .red then some m else fixup fuel temp m

def rbtreeDelete (fuel : Nat) (node : ν) (m : Rbtree ν) : Option (Rbtree ν) :=
  if m.left node = m.sentinel then deleteAt fuel node node (m.right node) m
  else if m.right node = m.sentinel then deleteAt fuel node node (m.left node) m
  else
    (rbtreeMin m m.sentinel fuel (m.right node)).bind fun subst =>
      let temp := if m.left subst ≠ m.sentinel then m.left subst else m.right subst
      deleteAt fuel node subst temp m

def nextUp (m : Rbtree ν) (root : ν) : Nat → ν → Option ν
  | 0, _ => none
  | fuel + 1, node =>
    let parent := m.parent node
    if node = root then some m.null
    else if node = m.left parent then some parent
    else nextUp m root fuel parent

def rbtreeNext (fuel : Nat) (node : ν) (m : Rbtree ν) : Option ν :=
  if m.right node ≠ m.sentinel then rbtreeMin m m.sentinel fuel (m.right node)
  else nextUp m m.root fuel node

end Ngx.Core
