import Ngx.ConnectionTable
import Mathlib.Data.Finset.Card
import Mathlib.Data.Fintype.Card

/-! The connection table over any sequence of calls, those of the read handlers inside
`ngx_drain_connections` among them. -/
namespace Ngx.Cycle

open LinkedRing LinkedStack

/-- Which connections have been handed out and not been freed since, and how often each has been
handed out. -/
structure Ledger (n : ℕ) where
  held : Finset (Fin n)
  uses : Fin n → ℕ

/-- Calls that do not obtain a connection. The last two are a store to `c->data`, which the owner
of a connection uses as it likes, and adding or deleting its events. -/
inductive Call (n : ℕ) where
  | close (c : Fin n)
  | free (c : Fin n)
  | reusable (c : Fin n) (mark : Bool)
  | store (c : Fin n) (data : Option (Fin n))
  | activate (c : Fin n) (read write : Bool)

variable {n : ℕ}

def Call.freed (t : Table n) : Call n → Finset (Fin n)
  | .close c => if (t.connections c).fd = -1 then ∅ else {c}
  | .free c => {c}
  | .reusable _ _ | .store _ _ | .activate _ _ _ => ∅

def Call.table (t : Table n) : Call n → Table n
  | .close c => closeConnection c t
  | .free c => freeConnection c t
  | .reusable c mark => reusableConnection c mark t
  | .store c data => t.modify c fun x => { x with data := data }
  | .activate c read write => t.modify c fun x =>
    { x with read := { x.read with active := read }, write := { x.write with active := write } }

def Call.run (call : Call n) (w : World n (Ledger n)) : World n (Ledger n) where
  table := call.table w.table
  rest := { w.rest with held := w.rest.held \ call.freed w.table }

def receive : Option (Fin n) → World n (Ledger n) → World n (Ledger n)
  | none, w => w
  | some c, w =>
    { w with rest := ⟨insert c w.rest.held, Function.update w.rest.uses c (w.rest.uses c + 1)⟩ }

/-- Sequences of calls, each permitted where it is made. A read handler that
`ngx_drain_connections` runs may do whatever a sequence of calls does. -/
inductive Runs (permitted : Call n → World n (Ledger n) → Prop) :
    World n (Ledger n) → World n (Ledger n) → Prop where
  | done (w) : Runs permitted w w
  | call {w w'} {call : Call n} : Runs permitted w w' → permitted call w' →
      Runs permitted w (call.run w')
  | get {w w' w'' handler s c} : Runs permitted w w' →
      (∀ i c v v', handler i c v = some v' → Runs permitted v v') →
      getConnection handler s w' = some (c, w'') → Runs permitted w (receive c w'')

/-- A held connection may be closed and made reusable or not, and one that is not reusable may be
freed; a connection that has been closed may be closed again. -/
def Permitted (w : World n (Ledger n)) : Call n → Prop
  | .close c => c ∈ w.rest.held ∨ (w.table.connections c).fd = -1
  | .free c => c ∈ w.rest.held ∧ (w.table.connections c).reusable = false
  | .reusable c _ => c ∈ w.rest.held
  | .store c _ => c ∈ w.rest.held
  | .activate c _ _ => c ∈ w.rest.held

def initial (memory : Fin n → Connection n) (links : Links (Node n))
    (files : Option (ℤ → Option (Fin n))) : World n (Ledger n) :=
  ⟨eventProcessInit memory links files, ⟨∅, fun _ => 0⟩⟩

structure Linked (w : World n (Ledger n)) (free queue : List (Fin n)) : Prop where
  chain : Chain (fun c => (w.table.connections c).data) w.table.freeConnections free
  distinct : free.Nodup
  freeN : w.table.freeConnectionN = free.length
  parted : ∀ c, c ∈ free ↔ c ∉ w.rest.held
  ring : Ring w.table.links .head (queue.map .queue)
  members : ∀ c, c ∈ queue ↔ c ∈ w.rest.held ∧ (w.table.connections c).reusable = true
  reusableN : w.table.reusableConnectionsN = queue.length

def TableInvariant (w : World n (Ledger n)) : Prop := ∃ free queue, Linked w free queue

@[simp] theorem Table.modify_self (c : Fin n) (f : Connection n → Connection n) (t : Table n) :
    (t.modify c f).connections c = f (t.connections c) := Function.update_self _ _ _

@[simp] theorem Table.modify_of_ne {c d : Fin n} (other : d ≠ c)
    (f : Connection n → Connection n) (t : Table n) :
    (t.modify c f).connections d = t.connections d := Function.update_of_ne other _ _

section Steps

variable {w : World n (Ledger n)} {free queue : List (Fin n)} {c : Fin n}

def World.put {κ : Type*} (t : Table n) (w : World n κ) : World n κ := { w with table := t }

theorem Linked.held_of_queued (linked : Linked w free queue) (member : c ∈ queue) :
    c ∈ w.rest.held := ((linked.members c).mp member).1

theorem Linked.apart (linked : Linked w free queue) (member : c ∈ free) : c ∉ queue :=
  fun queued => (linked.parted c).mp member (linked.held_of_queued queued)

/-- A store that leaves `reusable` alone, and `data` unless the connection is held. -/
theorem Linked.modify {f : Connection n → Connection n} (linked : Linked w free queue)
    (reusable : (f (w.table.connections c)).reusable = (w.table.connections c).reusable)
    (data : c ∈ w.rest.held ∨ (f (w.table.connections c)).data = (w.table.connections c).data) :
    Linked (w.put (w.table.modify c f)) free queue where
  chain := by
    apply linked.chain.congr
    intro d member
    by_cases same : d = c
    · subst same
      have kept := data.resolve_left ((linked.parted d).mp member)
      simpa [World.put] using kept
    · simp [World.put, same]
  distinct := linked.distinct
  freeN := linked.freeN
  parted := linked.parted
  ring := linked.ring
  members d := by
    rw [linked.members]
    by_cases same : d = c
    · subst same
      simp [World.put, reusable]
    · simp [World.put, same]
  reusableN := linked.reusableN

def dequeue (c : Fin n) (t : Table n) : Table n :=
  { t.modify c fun x => { x with reusable := false } with
    links := queueRemove (.queue c) t.links
    reusableConnectionsN := t.reusableConnectionsN - 1 }

def enqueue (c : Fin n) (t : Table n) : Table n :=
  { t.modify c fun x => { x with reusable := true } with
    links := queueInsertHead .head (.queue c) t.links
    reusableConnectionsN := t.reusableConnectionsN + 1 }

theorem reusable_false_eq (t : Table n) : reusableConnection c false t =
    if (t.connections c).reusable then dequeue c t else t := by
  rw [reusableConnection]
  by_cases reusable : (t.connections c).reusable = true
  · simp [reusable, dequeue, Table.modify]
  · have same : { t.connections c with reusable := false } = t.connections c := by
      rw [← Bool.eq_false_iff.mpr reusable]
    simp [reusable, Table.modify, same]

theorem reusable_true_eq (t : Table n) : reusableConnection c true t =
    enqueue c (reusableConnection c false t) := by
  by_cases reusable : (t.connections c).reusable = true
  · simp [reusableConnection, enqueue, Table.modify, reusable]
  · simp [reusableConnection, enqueue, Table.modify, reusable]

theorem Linked.nodup (linked : Linked w free queue) : queue.Nodup :=
  (List.nodup_cons.mp linked.ring.distinct).2.of_map _

theorem Linked.dequeue (linked : Linked w free queue) (queued : c ∈ queue) :
    Linked (w.put (dequeue c w.table)) free (queue.erase c) := by
  have count : ((queue.erase c).length : ℤ) = queue.length - 1 := by
    have := List.length_erase_add_one queued
    omega
  refine ⟨?_, linked.distinct, linked.freeN, linked.parted, ?_, ?_, ?_⟩
  · apply linked.chain.congr
    intro d _
    by_cases same : d = c
    · subst same
      simp [World.put, Cycle.dequeue]
    · simp [World.put, Cycle.dequeue, same]
  · obtain ⟨xs, ys, missing, here, removed⟩ := List.exists_erase_eq queued
    have ring := linked.ring
    rw [here, List.map_append, List.map_cons] at ring
    rw [removed, List.map_append]
    exact queueRemove_ring ring
  · intro d
    rw [linked.nodup.mem_erase_iff]
    by_cases same : d = c
    · subst same
      simp [World.put, Cycle.dequeue]
    · simp [World.put, Cycle.dequeue, same, linked.members d]
  · rw [count, ← linked.reusableN]
    rfl

theorem Linked.enqueue (linked : Linked w free queue)
    (reusable : (w.table.connections c).reusable = false) (held : c ∈ w.rest.held) :
    Linked (w.put (enqueue c w.table)) free (c :: queue) := by
  have fresh : c ∉ queue := by
    intro member
    rw [((linked.members c).mp member).2] at reusable
    cases reusable
  refine ⟨?_, linked.distinct, linked.freeN, linked.parted, ?_, ?_, ?_⟩
  · apply linked.chain.congr
    intro d _
    by_cases same : d = c
    · subst same
      simp [World.put, Cycle.enqueue]
    · simp [World.put, Cycle.enqueue, same]
  · rw [List.map_cons]
    apply queueInsertHead_ring linked.ring
    simpa using fresh
  · intro d
    by_cases same : d = c
    · subst same
      simp [World.put, Cycle.enqueue, held]
    · simp [World.put, Cycle.enqueue, same, linked.members d]
  · simp [World.put, Cycle.enqueue, linked.reusableN]

theorem Linked.unmark (linked : Linked w free queue) (held : c ∈ w.rest.held) :
    Linked (w.put (reusableConnection c false w.table)) free (queue.erase c) := by
  rw [reusable_false_eq]
  split
  next reusable => exact linked.dequeue ((linked.members c).mpr ⟨held, reusable⟩)
  next idle =>
    have absent : c ∉ queue := fun queued => idle ((linked.members c).mp queued).2
    rw [List.erase_of_not_mem absent]
    exact linked

theorem reusableConnection_self (t : Table n) (mark : Bool) :
    (reusableConnection c mark t).connections c = { t.connections c with reusable := mark } := by
  cases mark with
  | false =>
    rw [reusable_false_eq]
    split
    · simp [Cycle.dequeue]
    next idle => rw [← Bool.eq_false_iff.mpr idle]
  | true =>
    rw [reusable_true_eq, reusable_false_eq]
    split <;> simp [Cycle.dequeue, Cycle.enqueue]

theorem reusableConnection_other {d : Fin n} (other : d ≠ c) (t : Table n) (mark : Bool) :
    (reusableConnection c mark t).connections d = t.connections d := by
  cases mark with
  | false =>
    rw [reusable_false_eq]
    split <;> simp [Cycle.dequeue, other]
  | true =>
    rw [reusable_true_eq, reusable_false_eq]
    split <;> simp [Cycle.dequeue, Cycle.enqueue, other]

theorem closeConnection_other {d : Fin n} (other : d ≠ c) (t : Table n) :
    (closeConnection c t).connections d = t.connections d := by
  rw [closeConnection]
  split
  · rfl
  · simp [other, freeConnection, reusableConnection_other other]

theorem takeConnection_self (s : ℤ) (t : Table n) :
    (takeConnection s c t).connections c = ⟨none, ⟨!(t.connections c).read.instanceBit, false⟩,
      ⟨!(t.connections c).read.instanceBit, false⟩, s, false, false⟩ :=
  Function.update_self _ _ _

theorem takeConnection_other {d : Fin n} (other : d ≠ c) (s : ℤ) (t : Table n) :
    (takeConnection s c t).connections d = t.connections d := Function.update_of_ne other _ _

theorem unmark_reusable (t : Table n) :
    ((reusableConnection c false t).connections c).reusable = false := by
  rw [reusableConnection_self]

theorem Linked.mark (linked : Linked w free queue) (held : c ∈ w.rest.held) :
    Linked (w.put (reusableConnection c true w.table)) free (c :: queue.erase c) := by
  rw [reusable_true_eq]
  exact (linked.unmark held).enqueue (unmark_reusable w.table) held

def World.release (c : Fin n) (w : World n (Ledger n)) : World n (Ledger n) :=
  ⟨freeConnection c w.table, { w.rest with held := w.rest.held \ {c} }⟩

theorem Linked.release (linked : Linked w free queue) (held : c ∈ w.rest.held)
    (reusable : (w.table.connections c).reusable = false) :
    Linked (w.release c) (c :: free) queue where
  chain := by
    have fresh : c ∉ free := fun member => (linked.parted c).mp member held
    have pushed := linked.chain.push fresh
    apply pushed.congr
    intro d _
    by_cases same : d = c
    · subst same
      simp [World.release, freeConnection]
    · simp [World.release, freeConnection, same]
  distinct := List.nodup_cons.mpr ⟨fun member => (linked.parted c).mp member held, linked.distinct⟩
  freeN := by simp [World.release, freeConnection, Table.modify, linked.freeN]
  parted d := by
    by_cases same : d = c
    · simp [World.release, same]
    · simp [World.release, same, linked.parted d]
  ring := linked.ring
  members d := by
    by_cases same : d = c
    · subst same
      simp [World.release, linked.members d, reusable]
    · simp [World.release, freeConnection, same, linked.members d]
  reusableN := linked.reusableN

theorem Linked.take (linked : Linked w free queue) (s : ℤ)
    (top : w.table.freeConnections = some c) :
    ∃ rest, Linked (receive (some c) (w.put (takeConnection s c w.table))) rest queue := by
  obtain ⟨rest, rfl, chain⟩ := (top ▸ linked.chain).pop
  obtain ⟨fresh, distinct⟩ := List.nodup_cons.mp linked.distinct
  have absent : c ∉ queue := linked.apart List.mem_cons_self
  have elsewhere (d : Fin n) (other : d ≠ c) := takeConnection_other other s w.table
  refine ⟨rest, ?_, distinct, ?_, ?_, ?_, ?_, linked.reusableN⟩
  · apply chain.congr
    intro d member
    have other : d ≠ c := fun same => fresh (same ▸ member)
    simp [receive, World.put, elsewhere d other]
  · simp [receive, World.put, takeConnection, linked.freeN]
  · intro d
    have before := linked.parted d
    by_cases same : d = c
    · simp [receive, same, fresh]
    · simpa [receive, World.put, same] using before
  · have untouched (v) (member : v ∈ Node.head :: queue.map Node.queue) : v ≠ .queue c := by
      rintro rfl
      simp [absent] at member
    apply linked.ring.congr
    · intro v member
      exact Function.update_of_ne (untouched v member) _ _
    · intro v member
      exact Function.update_of_ne (untouched v member) _ _
  · intro d
    by_cases same : d = c
    · subst same
      simp [receive, World.put, takeConnection, absent]
    · simp [receive, World.put, same, elsewhere d same, linked.members d]

theorem Linked.close (linked : Linked w free queue) (held : c ∈ w.rest.held)
    (opened : (w.table.connections c).fd ≠ -1) :
    Linked ⟨closeConnection c w.table, { w.rest with held := w.rest.held \ {c} }⟩ (c :: free)
      (queue.erase c) := by
  have released := (linked.unmark held).release held (unmark_reusable w.table)
  rw [closeConnection, if_neg opened]
  exact released.modify (c := c) (f := fun x => { x with fd := -1 }) rfl (.inr rfl)

theorem call_preserves {call : Call n} (linked : Linked w free queue)
    (permitted : Permitted w call) : TableInvariant (call.run w) := by
  cases call with
  | close c =>
    by_cases closed : (w.table.connections c).fd = -1
    · refine ⟨free, queue, ?_⟩
      simpa [Call.run, Call.table, Call.freed, closeConnection, closed] using linked
    · refine ⟨c :: free, queue.erase c, ?_⟩
      simpa [Call.run, Call.table, Call.freed, closed] using
        linked.close (permitted.resolve_right closed) closed
  | free c => exact ⟨c :: free, queue, linked.release permitted.1 permitted.2⟩
  | reusable c mark =>
    cases mark with
    | false =>
      refine ⟨free, queue.erase c, ?_⟩
      simpa [Call.run, Call.table, Call.freed, World.put] using linked.unmark permitted
    | true =>
      refine ⟨free, c :: queue.erase c, ?_⟩
      simpa [Call.run, Call.table, Call.freed, World.put] using linked.mark permitted
  | store c data =>
    have stored := linked.modify (f := fun x => { x with data := data }) rfl (.inl permitted)
    refine ⟨free, queue, ?_⟩
    simpa [Call.run, Call.table, Call.freed, World.put] using stored
  | activate c read write =>
    have activated := linked.modify (c := c) (f := fun x => { x with
      read := { x.read with active := read }
      write := { x.write with active := write } }) rfl (.inl permitted)
    refine ⟨free, queue, ?_⟩
    simpa [Call.run, Call.table, Call.freed, World.put] using activated

end Steps

section Runs

variable {κ : Type*} {P : World n κ → Prop} {handler : ℕ → Fin n → World n κ → Option (World n κ)}

theorem drainLoop_preserves (selects : ∀ c w, P w → P (w.select c))
    (handles : ∀ i c w w', handler i c w = some w' → P w → P w') :
    ∀ {rounds i w w'}, drainLoop handler rounds i w = some w' → P w → P w' := by
  intro rounds
  induction rounds with
  | zero =>
    intro i w w' drained inv
    cases drained
    exact inv
  | succ rounds ih =>
    intro i w w' drained inv
    rw [drainLoop] at drained
    cases last : w.table.lastReusable with
    | none =>
      rw [last] at drained
      cases drained
      exact inv
    | some c =>
      rw [last] at drained
      cases handled : handler i c (w.select c) with
      | none => simp [handled] at drained
      | some v =>
        simp only [handled] at drained
        exact ih drained (handles i c _ v handled (selects c w inv))

/-- A predicate that survives the drain is there when the top of the free list is taken. -/
theorem getConnection_cases (selects : ∀ c w, P w → P (w.select c))
    (handles : ∀ i c w w', handler i c w = some w' → P w → P w') {s : ℤ} {c : Option (Fin n)}
    {w w' : World n κ} (got : getConnection handler s w = some (c, w')) (inv : P w) :
    ∃ v, P v ∧ v.table.freeConnections = c ∧
      w' = c.elim v fun c => v.put (takeConnection s c v.table) := by
  rw [getConnection] at got
  have drained : ∀ v, (if w.table.freeConnections = none then drainConnections handler w
      else some w) = some v → P v := by
    intro v reached
    split at reached
    · exact drainLoop_preserves selects handles reached inv
    · cases reached
      exact inv
  cases reached : (if w.table.freeConnections = none then drainConnections handler w
      else some w) with
  | none => simp [reached] at got
  | some v =>
    simp only [reached] at got
    cases top : v.table.freeConnections with
    | none =>
      simp only [top] at got
      cases got
      exact ⟨_, drained _ reached, top, rfl⟩
    | some x =>
      simp only [top] at got
      cases got
      exact ⟨_, drained _ reached, top, rfl⟩

/-- What the calls, the choice of a connection to drain and the taking of a free one keep, every
run keeps. -/
theorem Runs.preserves {permitted : Call n → World n (Ledger n) → Prop}
    {P : World n (Ledger n) → Prop}
    (calls : ∀ call w, permitted call w → P w → P (call.run w))
    (selects : ∀ c w, P w → P (w.select c))
    (takes : ∀ s c w, w.table.freeConnections = some c → P w →
      P (receive (some c) (w.put (takeConnection s c w.table))))
    {w w' : World n (Ledger n)} (run : Runs permitted w w') : P w → P w' := by
  induction run with
  | done => exact id
  | call _ allowed ih =>
    intro inv
    exact calls _ _ allowed (ih inv)
  | get _ _ got ih handles =>
    intro inv
    obtain ⟨v, kept, rfl, rfl⟩ := getConnection_cases selects handles got (ih inv)
    cases top : v.table.freeConnections with
    | none => exact kept
    | some c => exact takes _ c v top kept

end Runs

theorem initLoop_chain : ∀ {i : ℕ} {bound : i ≤ n} {next : Option (Fin n)}
    {connections : Fin n → Connection n} {free : List (Fin n)},
    Chain (fun c => (connections c).data) next free → free.Nodup → (∀ c, c ∈ free ↔ i ≤ c.val) →
    ∃ all, Chain (fun c => ((initLoop i bound next connections).1 c).data)
      (initLoop i bound next connections).2 all ∧ all.Nodup ∧ ∀ c, c ∈ all
  | 0, _, _, _, free, chain, distinct, members =>
    ⟨free, chain, distinct, fun c => (members c).mpr (Nat.zero_le c)⟩
  | i + 1, bound, next, connections, free, chain, distinct, members => by
    let c : Fin n := ⟨i, bound⟩
    have fresh : c ∉ free := fun member => Nat.lt_irrefl i ((members c).mp member)
    have pushed : Chain (fun d => (Function.update connections c
        { connections c with data := next, fd := -1 } d).data) (some c) (c :: free) := by
      apply (chain.push fresh).congr
      intro d _
      by_cases same : d = c
      · rw [same, Function.update_self, Function.update_self]
      · rw [Function.update_of_ne same, Function.update_of_ne same]
    have longer (d : Fin n) : d ∈ c :: free ↔ i ≤ d.val := by
      rw [List.mem_cons, members]
      have same : d = c ↔ d.val = i := Fin.ext_iff
      omega
    rw [initLoop]
    exact initLoop_chain pushed (List.nodup_cons.mpr ⟨fresh, distinct⟩) longer

/-- A list of all connections, each once, has as many entries as there are connections. -/
theorem length_of_all {all : List (Fin n)} (distinct : all.Nodup) (members : ∀ c, c ∈ all) :
    all.length = n := by
  rw [← List.toFinset_card_of_nodup distinct]
  have full : all.toFinset = Finset.univ := by
    ext c
    simp [members c]
  rw [full, Finset.card_univ, Fintype.card_fin]

theorem initial_linked (memory : Fin n → Connection n) (links : Links (Node n))
    (files : Option (ℤ → Option (Fin n))) : TableInvariant (initial memory links files) := by
  have none_yet (c : Fin n) : c ∈ ([] : List (Fin n)) ↔ n ≤ c.val := by
    have := c.isLt
    simp
  have built : ∃ all, Chain (fun c => ((initial memory links files).table.connections c).data)
      (initial memory links files).table.freeConnections all ∧ all.Nodup ∧ ∀ c, c ∈ all :=
    initLoop_chain .nil List.nodup_nil none_yet
  obtain ⟨all, chain, distinct, members⟩ := built
  refine ⟨all, [], chain, distinct, ?_, ?_, queueInit_ring, ?_, rfl⟩
  · simp [initial, eventProcessInit, length_of_all distinct members]
  · simp [initial, members]
  · simp [initial]

theorem runs_linked {memory : Fin n → Connection n} {links : Links (Node n)}
    {files : Option (ℤ → Option (Fin n))} {w : World n (Ledger n)}
    (run : Runs (fun call w => Permitted w call) (initial memory links files) w) :
    TableInvariant w := by
  apply run.preserves ?_ ?_ ?_ (initial_linked memory links files)
  · intro call w permitted ⟨_, _, linked⟩
    exact call_preserves linked permitted
  · intro c w ⟨free, queue, linked⟩
    exact ⟨free, queue, linked.modify rfl (.inr rfl)⟩
  · intro s c w top ⟨_, queue, linked⟩
    obtain ⟨rest, taken⟩ := linked.take s top
    exact ⟨rest, queue, taken⟩

/-- The free list ends in a null pointer after `free_connection_n` distinct connections, and
these are the connections that are not held; the queue is a ring of the held connections with
`c->reusable` set, each once, and `reusable_connections_n` is its length. -/
theorem connection_table_invariant (memory : Fin n → Connection n) (links : Links (Node n))
    (files : Option (ℤ → Option (Fin n))) (w : World n (Ledger n))
    (run : Runs (fun call w => Permitted w call) (initial memory links files) w) :
    (∃ free : List (Fin n),
      Chain (fun c => (w.table.connections c).data) w.table.freeConnections free ∧ free.Nodup ∧
      (free.length : ℤ) = w.table.freeConnectionN ∧ ∀ c, c ∈ free ↔ c ∉ w.rest.held) ∧
    w.table.freeConnectionN + w.rest.held.card = n ∧
    ∃ queue : List (Fin n), Ring w.table.links .head (queue.map .queue) ∧ queue.Nodup ∧
      (∀ c, c ∈ queue ↔ c ∈ w.rest.held ∧ (w.table.connections c).reusable = true) ∧
      (queue.length : ℤ) = w.table.reusableConnectionsN := by
  obtain ⟨free, queue, linked⟩ := runs_linked run
  have others : free.toFinset = w.rest.heldᶜ := by
    ext c
    simp [linked.parted c]
  have count : free.length + w.rest.held.card = n := by
    rw [← List.toFinset_card_of_nodup linked.distinct, others, Finset.card_compl,
      Fintype.card_fin]
    have := w.rest.held.card_le_univ
    rw [Fintype.card_fin] at this
    omega
  refine ⟨⟨free, linked.chain, linked.distinct, linked.freeN.symm, linked.parted⟩, ?_,
    queue, linked.ring, linked.nodup, linked.members, linked.reusableN.symm⟩
  rw [linked.freeN]
  omega

/-- A caller takes what `ngx_get_connection` returns; nothing is said where it does not return. -/
def acquire (handler : ℕ → Fin n → World n (Ledger n) → Option (World n (Ledger n))) (s : ℤ)
    (w : World n (Ledger n)) : World n (Ledger n) :=
  match getConnection handler s w with
  | none => w
  | some (c, w') => receive c w'

theorem Runs.acquire {permitted : Call n → World n (Ledger n) → Prop}
    {handler : ℕ → Fin n → World n (Ledger n) → Option (World n (Ledger n))} {s : ℤ}
    {w w' : World n (Ledger n)} (run : Runs permitted w w')
    (handles : ∀ i c v v', handler i c v = some v' → Runs permitted v v') :
    Runs permitted w (acquire handler s w') := by
  rw [Cycle.acquire]
  split
  next => exact run
  next c v got => exact run.get handles got

def closing (_ : ℕ) (c : Fin n) (w : World n (Ledger n)) : Option (World n (Ledger n)) :=
  if c ∈ w.rest.held then some ((Call.close c).run w) else some w

theorem closing_runs {permitted : Call n → World n (Ledger n) → Prop}
    (closes : ∀ c w, c ∈ w.rest.held → permitted (.close c) w) (i : ℕ) (c : Fin n)
    (w w' : World n (Ledger n)) (handled : closing i c w = some w') : Runs permitted w w' := by
  rw [closing] at handled
  split at handled
  next held =>
    cases handled
    exact (Runs.done w).call (closes c w held)
  next =>
    cases handled
    exact .done w

def garbage : Fin 2 → Connection 2 := fun _ => ⟨some 1, ⟨false, true⟩, ⟨true, false⟩, 9, true, true⟩

def filled : World 2 (Ledger 2) :=
  acquire closing 6 (acquire closing 5 (initial garbage ⟨id, id⟩ none))

def refilled : World 2 (Ledger 2) := acquire closing 7 ((Call.reusable 0 true).run filled)

theorem refilled_run :
    Runs (fun call w => Permitted w call) (initial garbage ⟨id, id⟩ none) refilled := by
  have closed (i : ℕ) (c : Fin 2) (w w' : World 2 (Ledger 2)) :
      closing i c w = some w' → Runs (fun call w => Permitted w call) w w' :=
    closing_runs (fun _ _ => .inl) i c w w'
  have run : Runs (fun call w => Permitted w call) (initial garbage ⟨id, id⟩ none) filled :=
    ((Runs.done _).acquire closed).acquire closed
  have held : 0 ∈ filled.rest.held := by decide
  have marked : Runs (fun call w => Permitted w call) (initial garbage ⟨id, id⟩ none)
      ((Call.reusable 0 true).run filled) := run.call held
  exact marked.acquire closed

theorem connection_table_invariant_refilled :
    (∃ free : List (Fin 2),
      Chain (fun c => (refilled.table.connections c).data) refilled.table.freeConnections free ∧
      free.Nodup ∧ (free.length : ℤ) = refilled.table.freeConnectionN ∧
      ∀ c, c ∈ free ↔ c ∉ refilled.rest.held) ∧
    refilled.table.freeConnectionN + refilled.rest.held.card = 2 ∧
    ∃ queue : List (Fin 2), Ring refilled.table.links .head (queue.map .queue) ∧ queue.Nodup ∧
      (∀ c, c ∈ queue ↔
        c ∈ refilled.rest.held ∧ (refilled.table.connections c).reusable = true) ∧
      (queue.length : ℤ) = refilled.table.reusableConnectionsN :=
  connection_table_invariant garbage ⟨id, id⟩ none refilled refilled_run

end Ngx.Cycle
