import Ngx.TableInvariant

/-! The events of one `epoll_wait`, handled one after the other while the handlers close
connections and obtain others. A connection is known by its slot and one bit that every
`ngx_get_connection` turns over. -/
namespace Ngx.Cycle

open LinkedRing

/-- An entry of `event_list`: the connection and the instance bit of `data.ptr`, `EPOLLIN`,
`EPOLLOUT`, one of `EPOLLERR` and `EPOLLHUP`, and how often the connection had been handed out
when the event was registered. -/
structure Ready (n : ℕ) where
  c : Fin n
  instanceBit : Bool
  input : Bool
  output : Bool
  failed : Bool
  registered : ℕ

/-- The loop of `ngx_epoll_process_events`: the worker, whether the body has not been left by
`continue`, and the handlers called so far, with the state in which each was. -/
structure Loop (n : ℕ) where
  world : World n (Ledger n)
  going : Bool
  calls : List (Ready n × World n (Ledger n))

variable {n : ℕ}

def Loop.connection (s : Loop n) (e : Ready n) : Connection n := s.world.table.connections e.c

def Stale (e : Ready n) (event : Event) (c : Connection n) : Prop :=
  c.fd = -1 ∨ event.instanceBit ≠ e.instanceBit

instance (e : Ready n) (event : Event) (c : Connection n) : Decidable (Stale e event c) :=
  inferInstanceAs (Decidable (_ ∨ _))

/-- A call of a handler. What it does is an input, and may depend on all that happened before. -/
def Loop.call (handler : ℕ → World n (Ledger n) → World n (Ledger n)) (e : Ready n)
    (s : Loop n) : Loop n :=
  { s with world := handler s.calls.length s.world, calls := s.calls ++ [(e, s.world)] }

/-- Whether the read event is asked for; an error asks for both events. -/
def asksRead (e : Ready n) (s : Loop n) : Bool :=
  (e.input || e.failed) && (s.connection e).read.active

def asksWrite (e : Ready n) (s : Loop n) : Bool :=
  (e.output || e.failed) && (s.connection e).write.active

section Loop

variable (post : Bool) (handler : ℕ → World n (Ledger n) → World n (Ledger n))

/-- The body up to the write event; `post` is `flags & NGX_POST_EVENTS`. -/
def readPart (e : Ready n) (s : Loop n) : Loop n :=
  if Stale e (s.connection e).read (s.connection e) then { s with going := false }
  else if asksRead e s && !post then { s with going := true }.call handler e
  else { s with going := true }

def writePart (e : Ready n) (s : Loop n) : Loop n :=
  if s.going && asksWrite e s then
    if Stale e (s.connection e).write (s.connection e) then s
    else if post then s
    else s.call handler e
  else s

/-- `ngx_epoll_process_events` after `epoll_wait` has returned. -/
def processEvents : List (Ready n) → Loop n → Loop n
  | [], s => s
  | e :: batch, s => processEvents batch (writePart post handler e (readPart post handler e s))

/-- The slot belongs to the connection for which the event was registered. -/
def Fresh (e : Ready n) (w : World n (Ledger n)) : Prop :=
  e.c ∈ w.rest.held ∧ w.rest.uses e.c = e.registered

/-- The slot is open, and has been handed out an even number of times since. -/
def Turned (e : Ready n) (w : World n (Ledger n)) : Prop :=
  (w.table.connections e.c).fd ≠ -1 ∧ e.registered < w.rest.uses e.c ∧
    (w.rest.uses e.c - e.registered) % 2 = 0

instance (e : Ready n) (w : World n (Ledger n)) : Decidable (Fresh e w) :=
  inferInstanceAs (Decidable (_ ∧ _))

instance (e : Ready n) (w : World n (Ledger n)) : Decidable (Turned e w) :=
  inferInstanceAs (Decidable (_ ∧ _ ∧ _))

/-- No event is looked at, with a handler to call for it, while its slot is in that state. -/
def NeverTurned : List (Ready n) → Loop n → Prop
  | [], _ => True
  | e :: batch, s =>
    ¬ (asksRead e s = true ∧ post = false ∧ Turned e s.world) ∧
      ¬ (asksWrite e (readPart post handler e s) = true ∧ post = false ∧
        Turned e (readPart post handler e s).world) ∧
      NeverTurned batch (writePart post handler e (readPart post handler e s))

end Loop

/-- Handlers close connections, and `ngx_free_connection` is not called for any that stays open. -/
def Handles (call : Call n) (w : World n (Ledger n)) : Prop :=
  match call with
  | .free _ => False
  | call => Permitted w call

/-- The event was registered in an earlier state of the worker, for a held connection and with
its instance bit. -/
def Registered (first : World n (Ledger n)) (e : Ready n) (w : World n (Ledger n)) : Prop :=
  ∃ v, Runs Handles first v ∧ Runs Handles v w ∧ e.c ∈ v.rest.held ∧
    v.rest.uses e.c = e.registered ∧
    (v.table.connections e.c).read.instanceBit = e.instanceBit

/-- The bit of a connection says whether it has been handed out an even number of times. -/
structure Instances (w : World n (Ledger n)) : Prop where
  closed : ∀ c, c ∉ w.rest.held → (w.table.connections c).fd = -1
  read : ∀ c, (w.table.connections c).read.instanceBit = decide (w.rest.uses c % 2 = 0)
  write : ∀ c ∈ w.rest.held, (w.table.connections c).write.instanceBit =
    (w.table.connections c).read.instanceBit

section Instances

variable {w w' : World n (Ledger n)} {c : Fin n}

def Connection.generation (x : Connection n) : ℤ × Bool × Bool :=
  (x.fd, x.read.instanceBit, x.write.instanceBit)

theorem Instances.congr {t : Table n} (instances : Instances w)
    (same : ∀ d, (t.connections d).generation = (w.table.connections d).generation) :
    Instances (w.put t) := by
  have fields (d : Fin n) := Prod.mk.inj (same d)
  have bits (d : Fin n) := Prod.mk.inj (fields d).2
  constructor
  · exact fun d free => (fields d).1.trans (instances.closed d free)
  · exact fun d => (bits d).1.trans (instances.read d)
  · exact fun d held => (bits d).2.trans ((instances.write d held).trans (bits d).1.symm)

theorem modify_generation {f : Connection n → Connection n}
    (same : ∀ x, (f x).generation = x.generation) (t : Table n) (d : Fin n) :
    ((t.modify c f).connections d).generation = (t.connections d).generation := by
  by_cases here : d = c
  · subst here
    simp [same]
  · simp [here]

theorem reusable_generation (t : Table n) (mark : Bool) (d : Fin n) :
    ((reusableConnection c mark t).connections d).generation = (t.connections d).generation := by
  by_cases here : d = c
  · subst here
    rw [reusableConnection_self]
    rfl
  · rw [reusableConnection_other here]

theorem closeConnection_self (t : Table n) : ((closeConnection c t).connections c).generation =
    (-1, (t.connections c).read.instanceBit, (t.connections c).write.instanceBit) := by
  rw [closeConnection]
  split
  next closed => rw [Connection.generation, closed]
  next => simp [Connection.generation, freeConnection, reusableConnection_self]

theorem Instances.close (instances : Instances w) : Instances ((Call.close c).run w) := by
  have here := Prod.mk.inj (closeConnection_self (c := c) w.table)
  have bits := Prod.mk.inj here.2
  have elsewhere (d : Fin n) (other : d ≠ c) := closeConnection_other other w.table
  have kept (d : Fin n) (held : d ∈ w.rest.held \ (Call.close c).freed w.table) :
      d ∈ w.rest.held := (Finset.mem_sdiff.mp held).1
  constructor
  · intro d free
    by_cases same : d = c
    · rw [same]
      exact here.1
    · have unheld : d ∉ w.rest.held := by
        intro held
        apply free
        apply Finset.mem_sdiff.mpr ⟨held, ?_⟩
        rw [Call.freed]
        split <;> simp [same]
      show ((closeConnection c w.table).connections d).fd = -1
      rw [elsewhere d same]
      exact instances.closed d unheld
  · intro d
    show ((closeConnection c w.table).connections d).read.instanceBit = _
    by_cases same : d = c
    · rw [same, bits.1]
      exact instances.read c
    · rw [elsewhere d same]
      exact instances.read d
  · intro d held
    show ((closeConnection c w.table).connections d).write.instanceBit =
      ((closeConnection c w.table).connections d).read.instanceBit
    by_cases same : d = c
    · rw [same, bits.1, bits.2]
      exact instances.write c (same ▸ kept d held)
    · rw [elsewhere d same]
      exact instances.write d (kept d held)

theorem Instances.call {call : Call n} (instances : Instances w) (allowed : Handles call w) :
    Instances (call.run w) := by
  cases call with
  | close c => exact instances.close
  | free c => exact allowed.elim
  | reusable c mark =>
    simpa [Call.run, Call.table, Call.freed, World.put] using
      instances.congr (reusable_generation (c := c) w.table mark)
  | store c data =>
    have stored := instances.congr (modify_generation (c := c)
      (f := fun x => { x with data := data }) (fun x => rfl) w.table)
    simpa [Call.run, Call.table, Call.freed, World.put] using stored
  | activate c read write =>
    have activated := instances.congr (modify_generation (c := c) (f := fun x => { x with
      read := { x.read with active := read }
      write := { x.write with active := write } }) (fun x => rfl) w.table)
    simpa [Call.run, Call.table, Call.freed, World.put] using activated

theorem Instances.take (instances : Instances w) (s : ℤ) :
    Instances (receive (some c) (w.put (takeConnection s c w.table))) := by
  have here := takeConnection_self (c := c) s w.table
  have elsewhere (d : Fin n) (other : d ≠ c) := takeConnection_other other s w.table
  have held (d : Fin n) (other : d ≠ c) : d ∈ insert c w.rest.held ↔ d ∈ w.rest.held := by
    simp [other]
  constructor
  · intro d free
    have other : d ≠ c := by
      rintro rfl
      exact free (Finset.mem_insert_self d w.rest.held)
    show ((takeConnection s c w.table).connections d).fd = -1
    rw [elsewhere d other]
    exact instances.closed d fun member => free ((held d other).mpr member)
  · intro d
    show ((takeConnection s c w.table).connections d).read.instanceBit =
      decide (Function.update w.rest.uses c (w.rest.uses c + 1) d % 2 = 0)
    by_cases same : d = c
    · rw [same, here, Function.update_self]
      simp only [instances.read c]
      rw [← decide_not, decide_eq_decide]
      omega
    · rw [elsewhere d same, Function.update_of_ne same]
      exact instances.read d
  · intro d member
    show ((takeConnection s c w.table).connections d).write.instanceBit =
      ((takeConnection s c w.table).connections d).read.instanceBit
    by_cases same : d = c
    · rw [same, here]
    · rw [elsewhere d same]
      exact instances.write d ((held d same).mp member)

theorem Instances.run (instances : Instances w) (run : Runs Handles w w') : Instances w' := by
  apply run.preserves ?_ ?_ ?_ instances
  · exact fun call w allowed instances => instances.call allowed
  · intro c w instances
    exact instances.congr (modify_generation (c := c) (f := fun x => { x with close := true })
      (fun x => rfl) w.table)
  · exact fun s c w _ instances => instances.take s

theorem initLoop_read : ∀ {i : ℕ} {bound : i ≤ n} {next : Option (Fin n)}
    {connections : Fin n → Connection n} {c : Fin n},
    ((initLoop i bound next connections).1 c).read = (connections c).read
  | 0, _, _, _, _ => rfl
  | i + 1, bound, next, connections, c => by
    rw [initLoop, initLoop_read]
    by_cases same : c = ⟨i, bound⟩
    · rw [same, Function.update_self]
    · rw [Function.update_of_ne same]

theorem initLoop_fd : ∀ {i : ℕ} {bound : i ≤ n} {next : Option (Fin n)}
    {connections : Fin n → Connection n} {c : Fin n}, (connections c).fd = -1 ∨ c.val < i →
    ((initLoop i bound next connections).1 c).fd = -1
  | 0, _, _, _, c, closed => closed.resolve_right (Nat.not_lt_zero c.val)
  | i + 1, bound, next, connections, c, closed => by
    rw [initLoop]
    apply initLoop_fd
    by_cases same : c = ⟨i, bound⟩
    · rw [same, Function.update_self]
      exact .inl rfl
    · rw [Function.update_of_ne same]
      have other : c.val ≠ i := fun eq => same (Fin.ext eq)
      exact closed.imp_right fun below => by omega

theorem initial_instances (memory : Fin n → Connection n) (links : Links (Node n))
    (files : Option (ℤ → Option (Fin n))) : Instances (initial memory links files) where
  closed _ _ := initLoop_fd (.inr (Fin.isLt _))
  read _ := congrArg Event.instanceBit initLoop_read
  write _ held := (Finset.notMem_empty _ held).elim

theorem uses_mono (run : Runs Handles w w') (c : Fin n) : w.rest.uses c ≤ w'.rest.uses c := by
  apply run.preserves (P := fun v => w.rest.uses c ≤ v.rest.uses c) ?_ ?_ ?_ le_rfl
  · exact fun call v _ least => least
  · exact fun d v least => least
  · intro s d v _ least
    show w.rest.uses c ≤ Function.update v.rest.uses d (v.rest.uses d + 1) c
    by_cases same : c = d
    · rw [same, Function.update_self]
      rw [same] at least
      omega
    · rw [Function.update_of_ne same]
      exact least

end Instances

/-- An event carries the bit of the use at which it was registered, and the uses only grow. -/
structure Dated (e : Ready n) (w : World n (Ledger n)) : Prop where
  bit : e.instanceBit = decide (e.registered % 2 = 0)
  past : e.registered ≤ w.rest.uses e.c

theorem Registered.dated {first w : World n (Ledger n)} {e : Ready n}
    (registered : Registered first e w) (instances : Instances first) : Dated e w := by
  obtain ⟨v, before, after, -, uses, bit⟩ := registered
  constructor
  · rw [← bit, (instances.run before).read e.c, uses]
  · rw [← uses]
    exact uses_mono after e.c

section Parts

variable {post : Bool} {handler : ℕ → World n (Ledger n) → World n (Ledger n)} {e : Ready n}
  {s : Loop n} {w : World n (Ledger n)}

theorem read_stale_iff (instances : Instances w) (dated : Dated e w) :
    ¬ Stale e (w.table.connections e.c).read (w.table.connections e.c) ↔
      (w.table.connections e.c).fd ≠ -1 ∧ (w.rest.uses e.c - e.registered) % 2 = 0 := by
  have past := dated.past
  rw [Stale, instances.read, dated.bit, not_or, not_not, decide_eq_decide]
  refine and_congr_right fun _ => ?_
  omega

theorem write_stale_iff (instances : Instances w) :
    Stale e (w.table.connections e.c).write (w.table.connections e.c) ↔
      Stale e (w.table.connections e.c).read (w.table.connections e.c) := by
  by_cases held : e.c ∈ w.rest.held
  · rw [Stale, Stale, instances.write e.c held]
  · have closed := instances.closed e.c held
    exact iff_of_true (.inl closed) (.inl closed)

/-- A handler that the test lets through is called for another connection exactly if the slot has
been turned over an even number of times. -/
theorem fresh_iff (instances : Instances w) (dated : Dated e w)
    (passes : ¬ Stale e (w.table.connections e.c).read (w.table.connections e.c)) :
    Fresh e w ↔ ¬ Turned e w := by
  obtain ⟨opened, even⟩ := (read_stale_iff instances dated).mp passes
  have held : e.c ∈ w.rest.held := by
    by_contra free
    exact opened (instances.closed e.c free)
  have past := dated.past
  constructor
  · rintro ⟨-, same⟩ ⟨-, later, -⟩
    omega
  · intro settled
    refine ⟨held, ?_⟩
    by_contra other
    exact settled ⟨opened, by omega, even⟩

theorem turned_passes (instances : Instances w) (dated : Dated e w) (turned : Turned e w) :
    ¬ Stale e (w.table.connections e.c).read (w.table.connections e.c) :=
  (read_stale_iff instances dated).mpr ⟨turned.1, turned.2.2⟩

/-- Every handler called so far was called for the connection of its event. -/
def Loop.AllFresh (s : Loop n) : Prop := ∀ call ∈ s.calls, Fresh call.1 call.2

theorem allFresh_call : (s.call handler e).AllFresh ↔ s.AllFresh ∧ Fresh e s.world := by
  simp [Loop.AllFresh, Loop.call, or_imp, forall_and]

theorem readPart_fresh_iff (instances : Instances s.world) (dated : Dated e s.world) :
    (readPart post handler e s).AllFresh ↔ s.AllFresh ∧
      ¬ (asksRead e s = true ∧ post = false ∧ Turned e s.world) := by
  have passes := turned_passes instances dated
  rw [readPart]
  split
  next stale =>
    have settled : ¬ Turned e s.world := fun turned => passes turned stale
    simp [Loop.AllFresh, settled]
  next through =>
    split
    next asked =>
      rw [allFresh_call, fresh_iff instances dated through]
      simp only [Bool.and_eq_true, Bool.not_eq_true'] at asked
      simp [Loop.AllFresh, asked]
    next silent =>
      have unasked : ¬ (asksRead e s = true ∧ post = false ∧ Turned e s.world) := by
        rintro ⟨asks, direct, -⟩
        simp [asks, direct] at silent
      simp only [unasked, not_false_eq_true, and_true]
      rfl

theorem writePart_fresh_iff (instances : Instances s.world) (dated : Dated e s.world)
    (left : s.going = false → Stale e (s.connection e).read (s.connection e)) :
    (writePart post handler e s).AllFresh ↔ s.AllFresh ∧
      ¬ (asksWrite e s = true ∧ post = false ∧ Turned e s.world) := by
  have passes := turned_passes instances dated
  rw [writePart]
  split
  next asked =>
    split
    next stale =>
      have settled : ¬ Turned e s.world := by
        intro turned
        exact passes turned ((write_stale_iff instances).mp stale)
      simp [settled]
    next through =>
      split
      next posted => simp [posted]
      next direct =>
        have admitted := mt (write_stale_iff instances).mpr through
        rw [allFresh_call, fresh_iff instances dated admitted]
        simp only [Bool.and_eq_true] at asked
        simp [asked, direct]
  next silent =>
    have unasked : ¬ (asksWrite e s = true ∧ post = false ∧ Turned e s.world) := by
      rintro ⟨asks, -, turned⟩
      cases going : s.going with
      | false => exact passes turned (left going)
      | true => simp [asks, going] at silent
    simp [unasked]

theorem readPart_runs (effects : ∀ k v, Runs Handles v (handler k v)) :
    Runs Handles s.world (readPart post handler e s).world := by
  rw [readPart]
  split
  · exact .done _
  · split
    · exact effects _ _
    · exact .done _

theorem writePart_runs (effects : ∀ k v, Runs Handles v (handler k v)) :
    Runs Handles s.world (writePart post handler e s).world := by
  rw [writePart]
  split
  · split
    · exact .done _
    · split
      · exact .done _
      · exact effects _ _
  · exact .done _

/-- After a `continue` nothing has changed. -/
theorem readPart_left (left : (readPart post handler e s).going = false) :
    Stale e ((readPart post handler e s).connection e).read
      ((readPart post handler e s).connection e) := by
  rw [readPart] at left ⊢
  split
  next stale => exact stale
  next through =>
    rw [if_neg through] at left
    split at left <;> cases left

theorem Dated.later {w' : World n (Ledger n)} (dated : Dated e w) (run : Runs Handles w w') :
    Dated e w' := ⟨dated.bit, dated.past.trans (uses_mono run e.c)⟩

/-- By induction on the batch: at each event the state is a later one of the same run. -/
theorem processEvents_fresh_iff (effects : ∀ k v, Runs Handles v (handler k v)) :
    ∀ {batch : List (Ready n)} {s : Loop n}, Instances s.world →
      (∀ e ∈ batch, Dated e s.world) →
      ((processEvents post handler batch s).AllFresh ↔
        s.AllFresh ∧ NeverTurned post handler batch s)
  | [], s, _, _ => by simp [processEvents, NeverTurned]
  | e :: batch, s, instances, dated => by
    have now : Dated e s.world := dated e List.mem_cons_self
    have reads : Runs Handles s.world (readPart post handler e s).world := readPart_runs effects
    have writes : Runs Handles (readPart post handler e s).world
        (writePart post handler e (readPart post handler e s)).world := writePart_runs effects
    have halfway := instances.run reads
    have rest : ∀ d ∈ batch,
        Dated d (writePart post handler e (readPart post handler e s)).world := by
      intro d member
      exact ((dated d (List.mem_cons_of_mem e member)).later reads).later writes
    rw [processEvents, NeverTurned, processEvents_fresh_iff effects (halfway.run writes) rest,
      writePart_fresh_iff halfway (now.later reads) readPart_left,
      readPart_fresh_iff instances now]
    tauto

end Parts

/-- Every handler is called for the connection for which its event was registered if and only if
no event is looked at while its slot is open and has been handed out an even number of times
since, but at least twice. -/
theorem stale_events_iff (memory : Fin n → Connection n) (links : Links (Node n))
    (files : Option (ℤ → Option (Fin n))) (w : World n (Ledger n))
    (run : Runs Handles (initial memory links files) w) (post : Bool)
    (handler : ℕ → World n (Ledger n) → World n (Ledger n))
    (effects : ∀ k v, Runs Handles v (handler k v)) (batch : List (Ready n))
    (registered : ∀ e ∈ batch, Registered (initial memory links files) e w) :
    (∀ call ∈ (processEvents post handler batch ⟨w, true, []⟩).calls, Fresh call.1 call.2) ↔
      NeverTurned post handler batch ⟨w, true, []⟩ := by
  have instances := initial_instances memory links files
  have dated : ∀ e ∈ batch, Dated e w := fun e member => (registered e member).dated instances
  have nothing : (⟨w, true, []⟩ : Loop n).AllFresh := by simp [Loop.AllFresh]
  have fresh : (processEvents post handler batch ⟨w, true, []⟩).AllFresh ↔
      (⟨w, true, []⟩ : Loop n).AllFresh ∧ NeverTurned post handler batch ⟨w, true, []⟩ :=
    processEvents_fresh_iff effects (instances.run run) dated
  exact fresh.trans (and_iff_right nothing)

def listenSlot : Fin 2 := ⟨0, Nat.zero_lt_two⟩

def clientSlot : Fin 2 := ⟨1, Nat.one_lt_two⟩

def await (w : World 2 (Ledger 2)) : World 2 (Ledger 2) :=
  if clientSlot ∈ w.rest.held then
    (Call.activate clientSlot true true).run ((Call.reusable clientSlot true).run w)
  else w

def worker : World 2 (Ledger 2) :=
  await (acquire closing 7 ((Call.activate listenSlot true false).run
    (acquire closing 3 (initial garbage ⟨id, id⟩ none))))

def accepting (clients : List ℤ) : ℕ → World 2 (Ledger 2) → World 2 (Ledger 2)
  | 0, w => clients.foldl (fun w s => await (acquire closing s w)) w
  | _ + 1, w => w

def arrivals : List (Ready 2) :=
  [⟨listenSlot, false, true, false, false, 1⟩, ⟨clientSlot, false, true, false, false, 1⟩]

section Examples

variable {w : World 2 (Ledger 2)}

theorem closing_handles (i : ℕ) (c : Fin 2) (v v' : World 2 (Ledger 2)) :
    closing i c v = some v' → Runs Handles v v' := closing_runs (fun _ _ => .inl) i c v v'

theorem await_runs {u : World 2 (Ledger 2)} (run : Runs Handles u w) : Runs Handles u (await w) := by
  rw [await]
  split
  next held =>
    have marked : Runs Handles u ((Call.reusable clientSlot true).run w) := run.call held
    have still : clientSlot ∈ ((Call.reusable clientSlot true).run w).rest.held := by
      simpa [Call.run, Call.freed] using held
    exact marked.call still
  next => exact run

theorem accepting_runs (clients : List ℤ) (k : ℕ) (v : World 2 (Ledger 2)) :
    Runs Handles v (accepting clients k v) := by
  have all (u w : World 2 (Ledger 2)) (run : Runs Handles u w) :
      Runs Handles u (clients.foldl (fun w s => await (acquire closing s w)) w) := by
    induction clients generalizing w with
    | nil => exact run
    | cons s clients ih => exact ih _ (await_runs (run.acquire closing_handles))
  cases k with
  | zero => exact all v v (.done v)
  | succ k => exact .done v

theorem worker_run : Runs Handles (initial garbage ⟨id, id⟩ none) worker := by
  have listening := (Runs.done (initial garbage ⟨id, id⟩ none)).acquire
    (s := 3) closing_handles
  have held : listenSlot ∈ (acquire closing 3 (initial garbage ⟨id, id⟩ none)).rest.held := by
    decide
  have active : Runs Handles (initial garbage ⟨id, id⟩ none) ((Call.activate listenSlot true false).run
      (acquire closing 3 (initial garbage ⟨id, id⟩ none))) := listening.call held
  exact await_runs (active.acquire closing_handles)

theorem arrivals_registered (e : Ready 2) (member : e ∈ arrivals) :
    Registered (initial garbage ⟨id, id⟩ none) e worker := by
  have facts : ∀ e ∈ arrivals, e.c ∈ worker.rest.held ∧
      worker.rest.uses e.c = e.registered ∧
      (worker.table.connections e.c).read.instanceBit = e.instanceBit := by
    decide
  exact ⟨worker, worker_run, .done worker, facts e member⟩

end Examples

/-- When one new client takes over the slot, the event of the old one is dropped. -/
theorem stale_events_one_client :
    (processEvents false (accepting [8]) arrivals ⟨worker, true, []⟩).calls.length = 1 ∧
      ∀ call ∈ (processEvents false (accepting [8]) arrivals ⟨worker, true, []⟩).calls,
        Fresh call.1 call.2 :=
  ⟨by decide, (stale_events_iff garbage ⟨id, id⟩ none worker worker_run false (accepting [8])
    (accepting_runs [8]) arrivals arrivals_registered).mpr
    ⟨by decide, by decide, by decide, by decide, trivial⟩⟩

/-- When a second one takes it over from the first, it receives the event of the old one. -/
theorem stale_event_dispatched :
    Runs Handles (initial garbage ⟨id, id⟩ none) worker ∧
      (∀ k v, Runs Handles v (accepting [8, 9] k v)) ∧
      (∀ e ∈ arrivals, Registered (initial garbage ⟨id, id⟩ none) e worker) ∧
      ¬ ∀ call ∈ (processEvents false (accepting [8, 9]) arrivals ⟨worker, true, []⟩).calls,
        Fresh call.1 call.2 :=
  ⟨worker_run, accepting_runs [8, 9], arrivals_registered, by decide⟩

end Ngx.Cycle
