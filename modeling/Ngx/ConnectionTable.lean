import Ngx.LinkedStack
import Ngx.Queue
import Mathlib.Data.Fintype.Basic

/-! The table of connections in `ngx_cycle_t`. The free list runs through `c->data`, the queue of
reusable connections through `c->queue`. -/
namespace Ngx.Cycle

open LinkedRing

/-- What a queue link can lead to: nowhere, to `reusable_connections_queue`, or to the `queue` of
a connection. -/
inductive Node (n : ℕ) where
  | null
  | head
  | queue (c : Fin n)
  deriving DecidableEq

structure Event where
  instanceBit : Bool
  active : Bool
  deriving DecidableEq

structure Connection (n : ℕ) where
  data : Option (Fin n)
  read : Event
  write : Event
  fd : ℤ
  close : Bool
  reusable : Bool
  deriving DecidableEq

/-- `files` is the optional table from descriptors to connections. Neither count is ever asked
to go below zero, so the two are plain integers. -/
structure Table (n : ℕ) where
  connections : Fin n → Connection n
  links : Links (Node n)
  freeConnections : Option (Fin n)
  freeConnectionN : ℤ
  reusableConnectionsN : ℤ
  files : Option (ℤ → Option (Fin n))

variable {n : ℕ}

def Table.modify (c : Fin n) (f : Connection n → Connection n) (t : Table n) : Table n :=
  { t with connections := Function.update t.connections c (f (t.connections c)) }

/-- The `do` loop of `ngx_event_process_init`, with `i` connections still to come. It runs at
least once, so the source needs `connection_n` to be positive. -/
def initLoop : (i : ℕ) → i ≤ n → Option (Fin n) → (Fin n → Connection n) →
    (Fin n → Connection n) × Option (Fin n)
  | 0, _, next, connections => (connections, next)
  | i + 1, bound, next, connections =>
    let c : Fin n := ⟨i, bound⟩
    initLoop i (Nat.le_of_succ_le bound) (some c)
      (Function.update connections c { connections c with data := next, fd := -1 })

/-- The tables of `ngx_event_process_init` in memory that holds anything. The queue was
initialised with the cycle. -/
def eventProcessInit (memory : Fin n → Connection n) (links : Links (Node n))
    (files : Option (ℤ → Option (Fin n))) : Table n :=
  let events c := { memory c with read := { (memory c).read with instanceBit := true } }
  let built := initLoop n le_rfl none events
  { connections := built.1
    links := queueInit .head links
    freeConnections := built.2
    freeConnectionN := n
    reusableConnectionsN := 0
    files := files }

def reusableConnection (c : Fin n) (reusable : Bool) (t : Table n) : Table n :=
  let t :=
    if (t.connections c).reusable then
      { t with
        links := queueRemove (.queue c) t.links
        reusableConnectionsN := t.reusableConnectionsN - 1 }
    else t
  let t := t.modify c fun x => { x with reusable := reusable }
  if reusable then
    { t with
      links := queueInsertHead .head (.queue c) t.links
      reusableConnectionsN := t.reusableConnectionsN + 1 }
  else t

def freeConnection (c : Fin n) (t : Table n) : Table n :=
  let fd := (t.connections c).fd
  let t := t.modify c fun x => { x with data := t.freeConnections }
  { t with
    freeConnections := some c
    freeConnectionN := t.freeConnectionN + 1
    files := t.files.map fun files =>
      if files fd = some c then Function.update files fd none else files }

def closeConnection (c : Fin n) (t : Table n) : Table n :=
  if (t.connections c).fd = -1 then t
  else
    (freeConnection c (reusableConnection c false t)).modify c fun x => { x with fd := -1 }

/-- The connection on top of the free list as `ngx_get_connection` hands it out. Zeroing the
object clears the link of its queue too. -/
def takeConnection (s : ℤ) (c : Fin n) (t : Table n) : Table n :=
  let event : Event := ⟨!(t.connections c).read.instanceBit, false⟩
  { connections := Function.update t.connections c ⟨none, event, event, s, false, false⟩
    links := setPrev (.queue c) .null (setNext (.queue c) .null t.links)
    freeConnections := (t.connections c).data
    freeConnectionN := t.freeConnectionN - 1
    reusableConnectionsN := t.reusableConnectionsN
    files := t.files.map fun files =>
      if files s = none then Function.update files s (some c) else files }

structure World (n : ℕ) (κ : Type*) where
  table : Table n
  rest : κ

variable {κ : Type*}

/-- `c->close = 1`. -/
def World.select (c : Fin n) (w : World n κ) : World n κ :=
  { w with table := w.table.modify c fun x => { x with close := true } }

def Table.lastReusable (t : Table n) : Option (Fin n) :=
  match t.links.prev .head with
  | .queue c => some c
  | .head | .null => none

/-- The loop of `ngx_drain_connections` with some rounds left, from round `i` on. The read handler
of the connection picked in round `i` is an input; it has no result when it does not return. -/
def drainLoop (handler : ℕ → Fin n → World n κ → Option (World n κ)) :
    ℕ → ℕ → World n κ → Option (World n κ)
  | 0, _, w => some w
  | rounds + 1, i, w =>
    match w.table.lastReusable with
    | none => some w
    | some c =>
      match handler i c (w.select c) with
      | none => none
      | some w' => drainLoop handler rounds (i + 1) w'

/-- `ngx_max(ngx_min(32, cycle->reusable_connections_n / 8), 1)`. -/
def Table.drainRounds (t : Table n) : ℕ := max (min 32 (t.reusableConnectionsN.toNat / 8)) 1

def drainConnections (handler : ℕ → Fin n → World n κ → Option (World n κ)) (w : World n κ) :
    Option (World n κ) :=
  drainLoop handler w.table.drainRounds 0 w

/-- `ngx_get_connection` for the descriptor `s`: the connection, or none, and what it leaves. -/
def getConnection (handler : ℕ → Fin n → World n κ → Option (World n κ)) (s : ℤ)
    (w : World n κ) : Option (Option (Fin n) × World n κ) :=
  match (if w.table.freeConnections = none then drainConnections handler w else some w) with
  | none => none
  | some w =>
    match w.table.freeConnections with
    | none => some (none, w)
    | some c => some (some c, { w with table := takeConnection s c w.table })

end Ngx.Cycle
