import Ngx.HttpConnection
import Ngx.TableInvariant

/-! The connection table together with the clients whose connections are in it. A full table
makes `ngx_get_connection` call the read handlers of reusable connections with `c->close` set. -/
namespace Ngx.Cycle

open LinkedRing LinkedStack PartialRuns

/-- The table, and the client that owns a connection, where an accepted client does. -/
abbrev Server (n : ℕ) := World n (Fin n → Option Http.Connection)

variable {n : ℕ}

/-- Whether a call of `ngx_reusable_connection(c, 1)` lies on a path of the handler. -/
def requeues : Http.Handler → Bool
  | .none | .empty | .waitFrame => false
  | .waitRequest | .processRequestLine | .processRequestHeaders | .websocketRequest
  | .sendMessage => true

/-- What a handler that took the client from `x` to `x'` has done to the table. `again` says that
it has called `ngx_reusable_connection(c, 1)` although `c` was in the queue. -/
def follow (c : Fin n) (again : Bool) (x x' : Http.Connection) (t : Table n) : Table n :=
  if x'.isOpen = false then closeConnection c t
  else if x'.reusable = false then reusableConnection c false t
  else if x.reusable = false ∨ again = true then reusableConnection c true t
  else t

def visit (c : Fin n) (again : Http.Connection → Bool)
    (handler : Http.Connection → Option Http.Connection) (w : Server n) : Option (Server n) :=
  match w.rest c with
  | none => some w
  | some x =>
    match handler x with
    | none => none
    | some x' => some {
        table := follow c (again x) x x' w.table
        rest := Function.update w.rest c (if x'.isOpen then some x' else none) }

structure Round where
  io : Http.Io
  again : Bool

/-- `c->read->handler(c->read)` after `c->close = 1`. -/
def readHandler (rounds : ℕ → Round) (i : ℕ) (c : Fin n) : Server n → Option (Server n) :=
  visit c (fun x => requeues x.readHandler && (rounds i).again) fun x =>
    Http.runHandler false (rounds i).io { x with close := true } x.readHandler

def assign (c : Fin n) (x : Http.Connection) (w : Server n) : Server n :=
  { w with rest := Function.update w.rest c (some x) }

def closeAcceptedConnection (c : Fin n) (t : Table n) : Table n :=
  (freeConnection c t).modify c fun x => { x with fd := -1 }

/-- The environment of one turn of the loop in `ngx_event_accept`: the descriptor from `accept4`,
the drain, whether the pool, the address and the log can be had, and what
`ngx_http_init_connection` meets. -/
structure Accepted where
  s : ℕ
  rounds : ℕ → Round
  pool : Bool
  memory : Bool
  ready : Bool
  posted : Bool
  io : Http.Io

def accept (a : Accepted) (w : Server n) : Option (Server n) :=
  match getConnection (readHandler a.rounds) a.s w with
  | none => none
  | some (none, w) => some w
  | some (some c, w) =>
    if a.pool then
      visit c (fun _ => false) (Http.httpInitConnection a.memory a.ready a.posted a.io)
        (assign c .fresh w)
    else some { w with table := closeAcceptedConnection c w.table }

/-- What happens in a worker: a descriptor of its own gets a connection, a client is accepted, or
an event reaches a client. -/
inductive Occurrence (n : ℕ) where
  | listen (s : ℕ) (rounds : ℕ → Round)
  | accept (a : Accepted)
  | event (c : Fin n) (event : Http.Event) (again : Bool)

/-- Whether the event leads to a handler that can put its connection into the queue again. -/
def mayRequeue (x : Http.Connection) : Http.Event → Bool
  | .readable _ | .readTimedOut _ => requeues x.readHandler
  | .writable _ | .writeTimedOut _ => requeues x.writeHandler
  | .polled _ _ => true
  | .drained _ => false

/-- Connections are drained by `ngx_get_connection` alone. -/
def serve (w : Server n) : Occurrence n → Option (Server n)
  | .listen s rounds => (getConnection (readHandler rounds) s w).map Prod.snd
  | .accept a => accept a w
  | .event _ (.drained _) _ => some w
  | .event c event again =>
    visit c (fun x => mayRequeue x event && again) (fun x => Http.step x event) w

def start (memory : Fin n → Connection n) (links : Links (Node n))
    (files : Option (ℤ → Option (Fin n))) : Server n :=
  ⟨eventProcessInit memory links files, fun _ => none⟩

/-- The connections picked by a drain with some rounds left, from round `i` on. -/
def drainPicks {κ : Type*} (handler : ℕ → Fin n → World n κ → Option (World n κ)) :
    ℕ → ℕ → World n κ → List (Fin n)
  | 0, _, _ => []
  | rounds + 1, i, w =>
    match w.table.lastReusable with
    | none => []
    | some c =>
      match handler i c (w.select c) with
      | none => [c]
      | some w' => c :: drainPicks handler rounds (i + 1) w'

/-- Whatever the environment answers, `ngx_get_connection` returns one of the connections that
its drain picks, and none is picked twice. -/
def Progress (w : Server n) : Prop :=
  ∀ (s : ℕ) (rounds : ℕ → Round), ∃ c w',
    getConnection (readHandler rounds) s w = some (some c, w') ∧
      c ∈ drainPicks (readHandler rounds) w.table.drainRounds 0 w ∧
      (drainPicks (readHandler rounds) w.table.drainRounds 0 w).Nodup

/-- The client's read handler is the one that closes the connection when `c->close` is set. -/
def Waits (w : Server n) (c : Fin n) : Prop :=
  (w.rest c).map Http.Connection.readHandler = some .waitRequest

def Deaf (w : Server n) (c : Fin n) : Prop :=
  (w.rest c).map Http.Connection.readHandler = some .empty ∨
    (w.rest c).map Http.Connection.readHandler = some .waitFrame

instance (w : Server n) : DecidablePred (Waits w) :=
  fun c => inferInstanceAs (Decidable ((w.rest c).map Http.Connection.readHandler = _))

/-- A client's connection is held and open and carries the client's `reusable` flag, and only
clients are in the queue. -/
structure Tracked (w : Server n) (ledger : Ledger n) (free queue : List (Fin n)) : Prop where
  linked : Linked ⟨w.table, ledger⟩ free queue
  client : ∀ c x, w.rest c = some x → x.isOpen = true ∧ c ∈ ledger.held ∧
    (w.table.connections c).fd ≠ -1 ∧ (w.table.connections c).reusable = x.reusable
  queued : ∀ c ∈ queue, (w.rest c).isSome

section Steps

variable {w w' : Server n} {ledger : Ledger n} {free queue : List (Fin n)} {c : Fin n}
  {x x' : Http.Connection}

theorem Tracked.select (tracked : Tracked w ledger free queue) (c : Fin n) :
    Tracked (w.select c) ledger free queue where
  linked := tracked.linked.modify (f := fun x => { x with close := true }) rfl (.inr rfl)
  client d x owned := by
    obtain ⟨opened, held, fd, reusable⟩ := tracked.client d x owned
    refine ⟨opened, held, ?_, ?_⟩
    all_goals
      by_cases same : d = c
      · subst same
        simpa [World.select] using by assumption
      · simpa [World.select, same] using by assumption
  queued := tracked.queued

/-- The client of `c` leaves, and its connection is closed. -/
theorem Tracked.close (tracked : Tracked w ledger free queue) (owned : w.rest c = some x) :
    Tracked ⟨closeConnection c w.table, Function.update w.rest c none⟩
      { ledger with held := ledger.held \ {c} } (c :: free) (queue.erase c) where
  linked := tracked.linked.close (tracked.client c x owned).2.1 (tracked.client c x owned).2.2.1
  client d y owner := by
    have owner : Function.update w.rest c none d = some y := owner
    by_cases same : d = c
    · subst same
      rw [Function.update_self] at owner
      cases owner
    · rw [Function.update_of_ne same] at owner
      obtain ⟨opened, held, fd, reusable⟩ := tracked.client d y owner
      simp only [closeConnection_other same]
      exact ⟨opened, by simp [held, same], fd, reusable⟩
  queued d member := by
    obtain ⟨other, member⟩ := tracked.linked.nodup.mem_erase_iff.mp member
    show (Function.update w.rest c none d).isSome
    rw [Function.update_of_ne other]
    exact tracked.queued d member

/-- The client of `c` goes on, with the flag of the table following its own. -/
theorem Tracked.keep {t : Table n} {queue' : List (Fin n)} (tracked : Tracked w ledger free queue)
    (owned : w.rest c = some x) (linked : Linked ⟨t, ledger⟩ free queue')
    (here : t.connections c = { w.table.connections c with reusable := x'.reusable })
    (elsewhere : ∀ d ≠ c, t.connections d = w.table.connections d) (opened : x'.isOpen = true)
    (within : ∀ d ∈ queue', d = c ∨ d ∈ queue) :
    Tracked ⟨t, Function.update w.rest c (some x')⟩ ledger free queue' where
  linked := linked
  client d y owner := by
    have owner : Function.update w.rest c (some x') d = some y := owner
    by_cases same : d = c
    · subst same
      rw [Function.update_self] at owner
      cases owner
      obtain ⟨-, held, fd, -⟩ := tracked.client d x owned
      simp only [here]
      exact ⟨opened, held, fd, trivial⟩
    · rw [Function.update_of_ne same] at owner
      simp only [elsewhere d same]
      exact tracked.client d y owner
  queued d member := by
    show (Function.update w.rest c (some x') d).isSome
    by_cases same : d = c
    · subst same
      simp
    · rw [Function.update_of_ne same]
      exact tracked.queued d ((within d member).resolve_left same)

theorem Tracked.follow (tracked : Tracked w ledger free queue) (owned : w.rest c = some x)
    (again : Bool) (x' : Http.Connection) :
    ∃ ledger free queue, Tracked ⟨follow c again x x' w.table,
      Function.update w.rest c (if x'.isOpen then some x' else none)⟩ ledger free queue := by
  obtain ⟨-, held, -, flag⟩ := tracked.client c x owned
  have erased (d : Fin n) (member : d ∈ queue.erase c) : d = c ∨ d ∈ queue :=
    .inr (List.mem_of_mem_erase member)
  rw [Cycle.follow]
  by_cases opened : x'.isOpen = true
  · simp only [opened, if_true, Bool.true_eq_false, if_false]
    by_cases reusable : x'.reusable = true
    · simp only [reusable, Bool.true_eq_false, if_false]
      split
      · refine ⟨ledger, free, c :: queue.erase c, ?_⟩
        apply tracked.keep owned (tracked.linked.mark held) ?_ ?_ opened ?_
        · rw [reusableConnection_self, reusable]
        · exact fun d other => reusableConnection_other other _ _
        · intro d member
          exact (List.mem_cons.mp member).elim .inl (erased d)
      next stays =>
        refine ⟨ledger, free, queue, ?_⟩
        have already : x.reusable = true := by
          simpa using (not_or.mp stays).1
        apply tracked.keep owned tracked.linked ?_ (fun d _ => rfl) opened (fun d => .inr)
        rw [reusable, ← already, ← flag]
    · simp only [reusable, if_true]
      refine ⟨ledger, free, queue.erase c, ?_⟩
      apply tracked.keep owned (tracked.linked.unmark held) ?_ ?_ opened erased
      · rw [reusableConnection_self, Bool.eq_false_iff.mpr reusable]
      · exact fun d other => reusableConnection_other other _ _
  · simp only [opened, if_true, Bool.false_eq_true, if_false]
    exact ⟨_, _, _, tracked.close owned⟩

theorem Tracked.visit {again : Http.Connection → Bool}
    {handler : Http.Connection → Option Http.Connection} (tracked : Tracked w ledger free queue)
    (visited : visit c again handler w = some w') :
    ∃ ledger free queue, Tracked w' ledger free queue := by
  rw [Cycle.visit] at visited
  cases owned : w.rest c with
  | none =>
    simp only [owned] at visited
    cases visited
    exact ⟨ledger, free, queue, tracked⟩
  | some x =>
    cases handled : handler x with
    | none => simp [owned, handled] at visited
    | some x' =>
      simp only [owned, handled] at visited
      cases visited
      exact tracked.follow owned (again x) x'

/-- A connection from the free list has no client yet. -/
theorem Tracked.take (tracked : Tracked w ledger free queue)
    (top : w.table.freeConnections = some c) (s : ℤ) :
    ∃ ledger free, Tracked (w.put (takeConnection s c w.table)) ledger free queue ∧
      c ∈ ledger.held ∧ c ∉ queue ∧ w.rest c = none := by
  obtain ⟨rest, linked⟩ := tracked.linked.take s top
  obtain ⟨_, here, _⟩ := (top ▸ tracked.linked.chain).pop
  have member : c ∈ free := here ▸ List.mem_cons_self
  have unused : c ∉ ledger.held := (tracked.linked.parted c).mp member
  have fresh : w.rest c = none := by
    cases owned : w.rest c with
    | none => rfl
    | some x => exact (unused (tracked.client c x owned).2.1).elim
  refine ⟨_, rest, ⟨linked, ?_, tracked.queued⟩, Finset.mem_insert_self _ _,
    tracked.linked.apart member, fresh⟩
  intro d x owned
  have other : d ≠ c := by
    rintro rfl
    rw [World.put, fresh] at owned
    cases owned
  obtain ⟨opened, held, fd, reusable⟩ := tracked.client d x owned
  simp only [World.put, takeConnection_other other]
  exact ⟨opened, Finset.mem_insert_of_mem held, fd, reusable⟩

theorem Tracked.assign (tracked : Tracked w ledger free queue) (held : c ∈ ledger.held)
    (opened : (w.table.connections c).fd ≠ -1)
    (reusable : (w.table.connections c).reusable = false) :
    Tracked (assign c .fresh w) ledger free queue where
  linked := tracked.linked
  client d y owner := by
    have owner : Function.update w.rest c (some .fresh) d = some y := owner
    by_cases same : d = c
    · subst same
      rw [Function.update_self] at owner
      cases owner
      exact ⟨rfl, held, opened, reusable⟩
    · rw [Function.update_of_ne same] at owner
      exact tracked.client d y owner
  queued d member := by
    show (Function.update w.rest c (some .fresh) d).isSome
    by_cases same : d = c
    · subst same
      simp
    · rw [Function.update_of_ne same]
      exact tracked.queued d member

theorem Tracked.closeAccepted (tracked : Tracked w ledger free queue) (held : c ∈ ledger.held)
    (reusable : (w.table.connections c).reusable = false) (fresh : w.rest c = none) :
    Tracked (w.put (closeAcceptedConnection c w.table)) { ledger with held := ledger.held \ {c} }
      (c :: free) queue where
  linked :=
    (tracked.linked.release held reusable).modify (c := c) (f := fun x => { x with fd := -1 })
      rfl (.inr rfl)
  client d y owner := by
    have other : d ≠ c := by
      rintro rfl
      have absent : none = some y := fresh.symm.trans owner
      cases absent
    obtain ⟨opened, held, fd, flag⟩ := tracked.client d y owner
    simp only [World.put, closeAcceptedConnection, freeConnection, Table.modify_of_ne other]
    exact ⟨opened, by simp [held, other], fd, flag⟩
  queued := tracked.queued

def Owned (w : Server n) : Prop := ∃ ledger free queue, Tracked w ledger free queue

theorem getConnection_owned {rounds : ℕ → Round} {s : ℕ} {r : Option (Fin n)} (owned : Owned w)
    (got : getConnection (readHandler rounds) s w = some (r, w')) :
    ∃ v, Owned v ∧ v.table.freeConnections = r ∧
      w' = r.elim v fun c => v.put (takeConnection s c v.table) := by
  apply getConnection_cases ?_ ?_ got owned
  · intro c w ⟨ledger, free, queue, tracked⟩
    exact ⟨ledger, free, queue, tracked.select c⟩
  · intro i c w w' handled ⟨_, _, _, tracked⟩
    exact tracked.visit handled

theorem accept_owned {a : Accepted} (owned : Owned w) (accepted : accept a w = some w') :
    Owned w' := by
  rw [accept] at accepted
  cases got : getConnection (readHandler a.rounds) a.s w with
  | none => simp [got] at accepted
  | some result =>
    obtain ⟨r, u⟩ := result
    simp only [got] at accepted
    obtain ⟨v, ⟨_, _, _, tracked⟩, top, rfl⟩ := getConnection_owned owned got
    cases r with
    | none =>
      cases accepted
      exact ⟨_, _, _, tracked⟩
    | some c =>
      obtain ⟨_, _, taken, held, -, fresh⟩ := tracked.take top a.s
      have here := takeConnection_self (c := c) a.s v.table
      have opened : ((takeConnection a.s c v.table).connections c).fd ≠ -1 := by
        rw [here]
        simp only
        omega
      have reusable : ((takeConnection a.s c v.table).connections c).reusable = false := by
        rw [here]
      simp only [Option.elim_some] at accepted
      split at accepted
      · exact (taken.assign held opened reusable).visit accepted
      · cases accepted
        exact ⟨_, _, _, taken.closeAccepted held reusable fresh⟩

theorem serve_owned {occurrence : Occurrence n} (owned : Owned w)
    (served : serve w occurrence = some w') : Owned w' := by
  cases occurrence with
  | listen s rounds =>
    rw [serve, Option.map_eq_some_iff] at served
    obtain ⟨⟨r, u⟩, got, rfl⟩ := served
    obtain ⟨v, ⟨ledger, free, queue, tracked⟩, top, same⟩ := getConnection_owned owned got
    cases r with
    | none =>
      cases same
      exact ⟨ledger, free, queue, tracked⟩
    | some c =>
      cases same
      obtain ⟨_, _, taken, -⟩ := tracked.take top s
      exact ⟨_, _, _, taken⟩
  | accept a => exact accept_owned owned served
  | event c event again =>
    obtain ⟨ledger, free, queue, tracked⟩ := owned
    cases event with
    | drained io =>
      cases served
      exact ⟨ledger, free, queue, tracked⟩
    | readable io => exact tracked.visit served
    | writable io => exact tracked.visit served
    | readTimedOut io => exact tracked.visit served
    | writeTimedOut io => exact tracked.visit served
    | polled message reply => exact tracked.visit served

theorem start_owned (memory : Fin n → Connection n) (links : Links (Node n))
    (files : Option (ℤ → Option (Fin n))) : Owned (start memory links files) := by
  obtain ⟨free, queue, linked⟩ := initial_linked memory links files
  refine ⟨_, free, queue, linked, ?_, ?_⟩
  · intro c x owned
    cases owned
  · intro c member
    have held : c ∈ (∅ : Finset (Fin n)) := linked.held_of_queued member
    simp at held

theorem run_owned {memory : Fin n → Connection n} {links : Links (Node n)}
    {files : Option (ℤ → Option (Fin n))} {events : List (Occurrence n)}
    (ran : run serve (start memory links files) events = some w) : Owned w := by
  apply run_preserves ?_ ran (start_owned memory links files)
  exact fun _ _ _ served owned => serve_owned owned served

end Steps

section Drain

variable {w w' : Server n} {ledger : Ledger n} {free queue : List (Fin n)} {c : Fin n}
  {k i : ℕ}

theorem Tracked.last_nil (tracked : Tracked w ledger free []) : w.table.lastReusable = none := by
  have last : w.table.links.prev .head = .head := tracked.linked.ring.prev_head
  rw [Table.lastReusable, last]

theorem Tracked.last_concat (tracked : Tracked w ledger free (queue ++ [c])) :
    w.table.lastReusable = some c := by
  have last := tracked.linked.ring.prev_head
  rw [List.map_append, List.map_singleton, List.getLastD_concat] at last
  rw [Table.lastReusable]
  simp only at last
  rw [last]

theorem Tracked.last (tracked : Tracked w ledger free queue) :
    w.table.lastReusable = queue.reverse.head? := by
  rcases List.eq_nil_or_concat queue with rfl | ⟨queue, c, rfl⟩
  · exact tracked.last_nil
  · rw [List.concat_eq_append] at tracked ⊢
    rw [tracked.last_concat, List.reverse_append]
    rfl

theorem httpCloseConnection_isOpen (x : Http.Connection) :
    (Http.httpCloseConnection x).isOpen = false := by
  by_cases opened : x.isOpen = true
  · simp [Http.httpCloseConnection, Http.closeConnection, opened]
  · simp [Http.httpCloseConnection, Http.closeConnection, opened]

theorem Tracked.pick_waits (rounds : ℕ → Round) (i : ℕ)
    (tracked : Tracked w ledger free (queue ++ [c])) (waits : Waits w c) :
    ∃ w' ledger', readHandler rounds i c (w.select c) = some w' ∧
      Tracked w' ledger' (c :: free) queue ∧ w'.table.freeConnections = some c ∧
      ∀ d ≠ c, w'.rest d = w.rest d := by
  obtain ⟨x, owned, waits⟩ := Option.map_eq_some_iff.mp waits
  have closed := (tracked.select c).close owned
  have nodup := tracked.linked.nodup
  have absent : c ∉ queue := by
    intro member
    exact (List.nodup_append.mp nodup).2.2 c member c List.mem_cons_self rfl
  rw [List.erase_append_right _ absent, List.erase_cons_head, List.append_nil] at closed
  refine ⟨_, _, ?_, closed, ?_, ?_⟩
  · have stays : (w.select c).rest c = some x := owned
    have handled : Http.runHandler false (rounds i).io { x with close := true } x.readHandler =
        some (Http.httpCloseConnection { x with close := true }) := by
      rw [waits]
      simp [Http.runHandler, Http.httpWaitRequestHandler]
    rw [readHandler, Cycle.visit]
    simp only [stays, handled, Cycle.follow, httpCloseConnection_isOpen, if_true]
    rfl
  · exact closed.linked.chain.top
  · exact fun d other => Function.update_of_ne other _ _

theorem Tracked.pick_deaf (rounds : ℕ → Round) (i : ℕ)
    (tracked : Tracked w ledger free (queue ++ [c])) (deaf : Deaf w c) :
    ∃ w', readHandler rounds i c (w.select c) = some w' ∧
      Tracked w' ledger free (queue ++ [c]) ∧ Deaf w' c ∧
      w'.table.freeConnections = w.table.freeConnections := by
  obtain ⟨x, owned, silent⟩ : ∃ x, w.rest c = some x ∧
      (x.readHandler = .empty ∨ x.readHandler = .waitFrame) := by
    rcases deaf with deaf | deaf
    all_goals
      obtain ⟨x, owned, handler⟩ := Option.map_eq_some_iff.mp deaf
      exact ⟨x, owned, by simp [handler]⟩
  have member : c ∈ queue ++ [c] := List.mem_append_right queue List.mem_cons_self
  obtain ⟨opened, held, -, flag⟩ := tracked.client c x owned
  have reusable : x.reusable = true := flag.symm.trans ((tracked.linked.members c).mp member).2
  have stays : (w.select c).rest c = some x := owned
  have handled : Http.runHandler false (rounds i).io { x with close := true } x.readHandler =
      some { x with close := true } := by
    rcases silent with silent | silent <;> simp [silent, Http.runHandler]
  have quiet : (requeues x.readHandler && (rounds i).again) = false := by
    rcases silent with silent | silent <;> simp [silent, requeues]
  refine ⟨⟨(w.select c).table, Function.update w.rest c (some { x with close := true })⟩,
    ?_, ?_, ?_, rfl⟩
  · rw [readHandler, Cycle.visit]
    simp only [stays, handled]
    simp only [Cycle.follow, quiet, opened, reusable]
    rfl
  · refine (tracked.select c).keep owned (tracked.select c).linked ?_ (fun d _ => rfl) ?_
      fun d => .inr
    · simp [World.select, flag]
    · exact opened
  · rcases silent with silent | silent <;> simp [Deaf, silent]

/-- The picks of a drain whose queue is `cs`, read from its end, when the connections that do not
wait stay where they are. -/
def picks (waits : Fin n → Prop) [DecidablePred waits] : ℕ → List (Fin n) → List (Fin n)
  | 0, _ => []
  | _ + 1, [] => []
  | k + 1, c :: cs => if waits c then c :: picks waits k cs else List.replicate (k + 1) c

theorem Tracked.drain_deaf (rounds : ℕ → Round) :
    ∀ {k i : ℕ} {w : Server n}, Tracked w ledger free (queue ++ [c]) → Deaf w c →
    ∃ w', drainLoop (readHandler rounds) k i w = some w' ∧
      drainPicks (readHandler rounds) k i w = List.replicate k c ∧
      w'.table.freeConnections = w.table.freeConnections
  | 0, _, w, _, _ => ⟨w, rfl, rfl, rfl⟩
  | k + 1, i, w, tracked, deaf => by
    obtain ⟨v, handled, kept, still, same⟩ := tracked.pick_deaf rounds i deaf
    obtain ⟨w', drained, picked, free⟩ := kept.drain_deaf rounds still (k := k) (i := i + 1)
    refine ⟨w', ?_, ?_, free.trans same⟩
    · simp only [drainLoop, tracked.last_concat, handled, drained]
    · simp only [drainPicks, tracked.last_concat, handled, picked, List.replicate_succ]

/-- A drain of connections that wait or stay: a round that closes a connection puts it on top of
the free list. -/
theorem Tracked.drain (rounds : ℕ → Round) {waits : Fin n → Prop} [DecidablePred waits] :
    ∀ {k i : ℕ} {w : Server n} {ledger : Ledger n} {free cs : List (Fin n)},
    Tracked w ledger free cs.reverse →
    (∀ c ∈ cs.take k, waits c ∧ Waits w c ∨ ¬ waits c ∧ Deaf w c) →
    ∃ w', drainLoop (readHandler rounds) k i w = some w' ∧
      drainPicks (readHandler rounds) k i w = picks waits k cs ∧
      (w'.table.freeConnections = w.table.freeConnections ∧
          (∀ c, (picks waits k cs).head? = some c → ¬ waits c) ∨
        (∃ c ∈ picks waits k cs, w'.table.freeConnections = some c) ∧
          ∀ c, (picks waits k cs).head? = some c → waits c)
  | 0, _, w, _, _, _, _, _ => ⟨w, rfl, rfl, .inl ⟨rfl, by simp [picks]⟩⟩
  | k + 1, i, w, _, _, [], tracked, _ => by
    refine ⟨w, ?_, ?_, .inl ⟨rfl, by simp [picks]⟩⟩
    · simp only [drainLoop, tracked.last_nil]
    · simp only [drainPicks, tracked.last_nil, picks]
  | k + 1, i, w, ledger, free, c :: cs, tracked, kinds => by
    rw [List.reverse_cons] at tracked
    have absent : c ∉ cs := by
      have nodup := tracked.linked.nodup
      intro member
      exact (List.nodup_append.mp nodup).2.2 c (List.mem_reverse.mpr member) c
        List.mem_cons_self rfl
    rcases kinds c List.mem_cons_self with ⟨waits_c, closes⟩ | ⟨stays_c, deaf⟩
    · obtain ⟨v, ledger', handled, kept, top, same⟩ :=
        tracked.pick_waits rounds i closes
      have later : ∀ d ∈ cs.take k, waits d ∧ Waits v d ∨ ¬ waits d ∧ Deaf v d := by
        intro d member
        have other : d ≠ c := by
          rintro rfl
          exact absent (List.mem_of_mem_take member)
        have before := kinds d (List.mem_cons_of_mem c member)
        simpa only [Waits, Deaf, same d other] using before
      obtain ⟨w', drained, picked, freed⟩ := kept.drain rounds later (i := i + 1)
      refine ⟨w', ?_, ?_, .inr ?_⟩
      · simp only [drainLoop, tracked.last_concat, handled, drained]
      · simp only [drainPicks, tracked.last_concat, handled, picked, picks, if_pos waits_c]
      · rw [picks, if_pos waits_c]
        refine ⟨?_, ?_⟩
        · rcases freed with ⟨unchanged, -⟩ | ⟨⟨d, member, freed⟩, -⟩
          · exact ⟨c, List.mem_cons_self, unchanged.trans top⟩
          · exact ⟨d, List.mem_cons_of_mem c member, freed⟩
        · intro d head
          rw [List.head?_cons] at head
          cases head
          exact waits_c
    · obtain ⟨w', drained, picked, same⟩ :=
        tracked.drain_deaf rounds deaf (k := k + 1) (i := i)
      rw [picks, if_neg stays_c]
      refine ⟨w', drained, picked, .inl ⟨same, ?_⟩⟩
      intro d head
      rw [List.replicate_succ, List.head?_cons] at head
      cases head
      exact stays_c

theorem picks_subset {waits : Fin n → Prop} [DecidablePred waits] :
    ∀ {k : ℕ} {cs : List (Fin n)}, ∀ c ∈ picks waits k cs, c ∈ cs
  | 0, _, c, member => by simp [picks] at member
  | _ + 1, [], c, member => by simp [picks] at member
  | k + 1, d :: cs, c, member => by
    rw [picks] at member
    split at member
    · rcases List.mem_cons.mp member with rfl | member
      · exact List.mem_cons_self
      · exact List.mem_cons_of_mem d (picks_subset c member)
    · rw [List.eq_of_mem_replicate member]
      exact List.mem_cons_self

/-- A connection that stays is picked in every round from its first one on. -/
theorem picks_nodup_iff (waits : Fin n → Prop) [DecidablePred waits] :
    ∀ {k : ℕ} {cs : List (Fin n)}, cs.Nodup →
      ((picks waits k cs).Nodup ↔ ∀ c ∈ cs.take (k - 1), waits c)
  | 0, cs, _ => by simp [picks]
  | k + 1, [], _ => by simp [picks]
  | k + 1, c :: cs, distinct => by
    obtain ⟨absent, distinct⟩ := List.nodup_cons.mp distinct
    have fresh : c ∉ picks waits k cs := fun member => absent (picks_subset c member)
    have later := picks_nodup_iff waits (k := k) distinct
    cases k with
    | zero =>
      rw [picks]
      split <;> simp [picks]
    | succ k =>
      rw [picks]
      split
      next waits_c => simpa [fresh, waits_c] using later
      next stays => simp [List.nodup_replicate, stays]

theorem progress_iff {cs : List (Fin n)} (tracked : Tracked w ledger free (c :: cs).reverse)
    (full : w.table.freeConnections = none)
    (settled : ∀ d ∈ (c :: cs).take w.table.drainRounds, Waits w d ∨ Deaf w d) :
    Progress w ↔ ∀ d ∈ (c :: cs).take (max 1 (w.table.drainRounds - 1)), Waits w d := by
  have kinds : ∀ d ∈ (c :: cs).take w.table.drainRounds,
      Waits w d ∧ Waits w d ∨ ¬ Waits w d ∧ Deaf w d := by
    intro d member
    have kind := settled d member
    tauto
  obtain ⟨k, rounds_eq⟩ : ∃ k, w.table.drainRounds = k + 1 :=
    ⟨w.table.drainRounds - 1, by
      have : 1 ≤ w.table.drainRounds := le_max_right _ _
      omega⟩
  have distinct : (c :: cs).Nodup := List.nodup_reverse.mp tracked.linked.nodup
  have head : (picks (Waits w) w.table.drainRounds (c :: cs)).head? = some c := by
    rw [rounds_eq, picks]
    split <;> simp [List.replicate_succ]
  have nodup := picks_nodup_iff (Waits w) (k := w.table.drainRounds) distinct
  have first : (∀ d ∈ (c :: cs).take (max 1 (w.table.drainRounds - 1)), Waits w d) ↔
      Waits w c ∧ ∀ d ∈ (c :: cs).take (w.table.drainRounds - 1), Waits w d := by
    rw [rounds_eq, Nat.add_sub_cancel]
    cases k with
    | zero => simp
    | succ k => simp
  rw [first, ← nodup]
  constructor
  · intro progress
    obtain ⟨d, w', got, -, distinct⟩ := progress 0 fun _ => ⟨Http.quiet, false⟩
    obtain ⟨v, drained, picked, outcome⟩ :=
      tracked.drain (fun _ => ⟨Http.quiet, false⟩) kinds (i := 0)
    rw [picked] at distinct
    rcases outcome with ⟨unchanged, -⟩ | ⟨-, waits⟩
    · simp [getConnection, full, drainConnections, drained, unchanged] at got
    · exact ⟨waits c head, distinct⟩
  · rintro ⟨waits, distinct⟩ s rounds
    obtain ⟨v, drained, picked, outcome⟩ := tracked.drain rounds kinds (i := 0)
    rcases outcome with ⟨-, stays⟩ | ⟨⟨d, member, freed⟩, -⟩
    · exact (stays c head waits).elim
    · refine ⟨d, { v with table := takeConnection s d v.table }, ?_, ?_, ?_⟩
      · simp [getConnection, full, drainConnections, drained, freed]
      · exact picked ▸ member
      · exact picked ▸ distinct

end Drain

/-- In every state of a worker whose table is full, the drain makes progress if the connections it
looks at wait for a request. Where each of these waits or has a read handler that does nothing,
it makes progress exactly if the last of the queue waits, and all that are not picked in the last
round do. -/
theorem drain_progress_iff (memory : Fin n → Connection n) (links : Links (Node n))
    (files : Option (ℤ → Option (Fin n))) (events : List (Occurrence n)) (w : Server n)
    (ran : run serve (start memory links files) events = some w)
    (full : w.table.freeConnections = none) (queue : List (Fin n))
    (ring : Ring w.table.links .head (queue.map .queue)) (reusable : queue ≠ []) :
    ((∀ c ∈ queue.reverse.take w.table.drainRounds, Waits w c) → Progress w) ∧
    ((∀ c ∈ queue.reverse.take w.table.drainRounds, Waits w c ∨ Deaf w c) →
      (Progress w ↔ ∀ c ∈ queue.reverse.take (max 1 (w.table.drainRounds - 1)), Waits w c)) := by
  obtain ⟨ledger, free, queue', tracked⟩ := run_owned ran
  have injective : Function.Injective (Node.queue (n := n)) := fun _ _ same => Node.queue.inj same
  obtain rfl : queue' = queue :=
    injective.list_map (tracked.linked.ring.unique ring)
  obtain ⟨c, cs, order⟩ : ∃ c cs, queue'.reverse = c :: cs :=
    List.exists_cons_of_ne_nil (by simpa using reusable)
  have turned : Tracked w ledger free (c :: cs).reverse := by
    rw [← order, List.reverse_reverse]
    exact tracked
  rw [order]
  refine ⟨fun waits => ?_, progress_iff turned full⟩
  apply (progress_iff turned full fun d member => .inl (waits d member)).mpr
  intro d member
  apply waits d
  refine List.take_subset_take_left _ ?_ member
  have : 1 ≤ w.table.drainRounds := le_max_right _ _
  omega

def still : ℕ → Round := fun _ => ⟨Http.quiet, false⟩

def arrival : Occurrence 2 := .accept ⟨7, still, true, true, false, false, Http.quiet⟩

/-- Beside the listening socket there is room for one client, which waits. -/
theorem drain_progress_waiting : ∃ w : Server 2,
    run serve (start garbage ⟨id, id⟩ none) [.listen 3 still, arrival] = some w ∧
      w.table.freeConnections = none ∧ w.table.lastReusable = some 1 ∧ Progress w := by
  have facts : (run serve (start garbage ⟨id, id⟩ none) [.listen 3 still, arrival]).map
      (fun w => (w.table.freeConnections, w.table.lastReusable, w.table.drainRounds,
        (w.rest 1).map Http.Connection.readHandler)) =
      some (none, some 1, 1, some .waitRequest) := by
    decide +kernel
  obtain ⟨w, ran, facts⟩ := Option.map_eq_some_iff.mp facts
  simp only [Prod.mk.injEq] at facts
  obtain ⟨full, last, rounds, waits⟩ := facts
  obtain ⟨ledger, free, queue, tracked⟩ := run_owned ran
  have head : queue.reverse.head? = some 1 := tracked.last ▸ last
  obtain ⟨cs, order⟩ := List.head?_eq_some_iff.mp head
  have reusable : queue ≠ [] := by
    rintro rfl
    cases order
  refine ⟨w, ran, full, last, ?_⟩
  apply (drain_progress_iff garbage ⟨id, id⟩ none _ w ran full queue tracked.linked.ring
    reusable).1
  intro c member
  rw [order, rounds, List.take_succ_cons, List.take_zero, List.mem_singleton] at member
  rw [member]
  exact waits

/-- The client has been sent a part of its answer: it is reusable, its read handler does nothing,
and the next client is turned away. -/
theorem drain_stuck : ∃ w : Server 2,
    run serve (start garbage ⟨id, id⟩ none)
      [.listen 3 still, arrival, .event 1 (.readable (Http.upgradeRequest (.sent 10))) false] =
        some w ∧
      w.table.freeConnections = none ∧ w.table.lastReusable = some 1 ∧
      (getConnection (readHandler still) 9 w).map Prod.fst = some none ∧ ¬ Progress w := by
  have facts : (run serve (start garbage ⟨id, id⟩ none)
      [.listen 3 still, arrival,
        .event 1 (.readable (Http.upgradeRequest (.sent 10))) false]).map
      (fun w => (w.table.freeConnections, w.table.lastReusable,
        (getConnection (readHandler still) 9 w).map Prod.fst)) =
      some (none, some 1, some none) := by
    decide +kernel
  obtain ⟨w, ran, facts⟩ := Option.map_eq_some_iff.mp facts
  simp only [Prod.mk.injEq] at facts
  obtain ⟨full, last, nothing⟩ := facts
  refine ⟨w, ran, full, last, nothing, ?_⟩
  intro progress
  obtain ⟨c, w', got, -⟩ := progress 9 still
  rw [show ((9 : ℕ) : ℤ) = 9 from rfl] at got
  rw [got] at nothing
  cases nothing

end Ngx.Cycle
