import Ngx.MessageRing

/-! Waking the workers. After each publish the message process writes a command to the channel
of every worker; a worker sleeps in epoll, reads its channel until nothing is left in it, and
then polls the ring. A publish and a poll are each one step, and so is one turn of any other
loop. -/
namespace Ngx

/-- The fields of `ngx_process_t` that `ngx_websocket_new_message` looks at. -/
structure Process where
  pid : Int
  justSpawn : Bool
  detached : Bool
  exiting : Bool
  deriving DecidableEq, Repr

/-- Where a worker is in `ngx_process_events_and_timers`: in `epoll_wait`, in the loop of
`ngx_channel_handler`, or past all event handlers. -/
inductive Phase where
  | waiting
  | reading
  | polling
  deriving DecidableEq, Repr

structure WorkerProcess where
  phase : Phase
  unread : Nat
  worker : Worker (List WebsocketMessage)

/-- `ngx_processes` is the table as the message process has it; `sending` is `i` in the loop of
`ngx_websocket_new_message`. -/
structure Notifier where
  ring : MessageRing
  processes : List Process
  sending : Option Nat
  workers : Nat → WorkerProcess

/-- A worker's entry after `ngx_spawn_process` with `NGX_PROCESS_RESPAWN`. -/
def spawned (pid : Nat) : Process := ⟨pid, false, false, false⟩

/-- `ngx_start_worker_processes`, then the message process; `pids` are the results of `fork`. -/
def Notifier.start (pids : List Nat) : Notifier where
  ring := createSharedMemory
  processes := pids.map spawned
  sending := none
  workers := fun _ => ⟨.waiting, 0, websocketInit []⟩

def Notifier.setWorker (s : Notifier) (i : Nat) (w : WorkerProcess) : Notifier :=
  { s with workers := fun j => if j = i then w else s.workers j }

/-- `ngx_write_channel`; where the socket is `full` it returns `NGX_AGAIN`, which happens only
with unread commands in it. -/
def writeChannel (full : Bool) (w : WorkerProcess) : WorkerProcess :=
  if full ∧ 0 < w.unread then w else { w with unread := w.unread + 1 }

def Notifier.notify (s : Notifier) (full : Bool) : Notifier :=
  match s.sending with
  | none => s
  | some i =>
    match s.processes[i]? with
    | none => { s with sending := none }
    | some process =>
      let next := { s with sending := some (i + 1) }
      if process.detached ∨ process.pid = -1 then next
      else if process.justSpawn then
        { next with processes := s.processes.set i { process with justSpawn := false } }
      else if process.exiting then next
      else next.setWorker i (writeChannel full (s.workers i))

/-- A step of the message process, or of worker `i`: `epoll_wait` returns, with or without the
channel among its events, one `ngx_read_channel`, or the poll. -/
inductive WakeEvent where
  | publish (frame : List UInt8)
  | notify (full : Bool)
  | wake (i : Nat) (reported : Bool)
  | read (i : Nat)
  | poll (i : Nat)
  deriving DecidableEq, Repr

/-- A message is published only when all workers have been told of the one before. The channel
is reported while there is something in it. -/
def Notifier.step (s : Notifier) : WakeEvent → Notifier
  | .publish frame =>
    if s.sending = none then { s with ring := s.ring.publish frame, sending := some 0 } else s
  | .notify full => s.notify full
  | .wake i reported =>
    let w := s.workers i
    if w.phase = .waiting then
      s.setWorker i { w with phase := if reported ∧ 0 < w.unread then .reading else .polling }
    else s
  | .read i =>
    let w := s.workers i
    if w.phase = .reading then
      if 0 < w.unread then s.setWorker i { w with unread := w.unread - 1 }
      else s.setWorker i { w with phase := .polling }
    else s
  | .poll i =>
    let w := s.workers i
    if w.phase = .polling then
      s.setWorker i { w with
        phase := .waiting
        worker := websocketProcessMessages s.ring (fun taken m => taken ++ [m]) w.worker }
    else s

def Notifier.run (s : Notifier) (events : List WakeEvent) : Notifier := events.foldl Notifier.step s

/-- The slot at the worker's cursor holds an id greater than the one it delivered last. -/
def Notifier.Undelivered (s : Notifier) (i : Nat) : Prop :=
  (s.workers i).worker.messageIdSent <
    (s.ring.messages (s.workers i).worker.messageSend).messageId

instance (s : Notifier) (i : Nat) : Decidable (s.Undelivered i) :=
  inferInstanceAs (Decidable (_ < _))

/-- The poll stops only where nothing is left to deliver. -/
theorem websocketProcessMessages_done {σ : Type} (r : MessageRing) (body : σ → WebsocketMessage → σ)
    (w : Worker σ) :
    ¬ (websocketProcessMessages r body w).messageIdSent <
      (r.messages (websocketProcessMessages r body w).messageSend).messageId := by
  induction w using websocketProcessMessages.induct r body with
  | case1 w m newer ih =>
    rw [websocketProcessMessages, if_pos newer]
    exact ih
  | case2 w m old =>
    rw [websocketProcessMessages, if_neg old]
    exact old

/-- All entries of the table are those of running workers, and a worker that sleeps on a message
has a command to read or is still to be written to. -/
structure Notifier.Invariant (n : Nat) (s : Notifier) : Prop where
  running : ∀ process ∈ s.processes, process.detached = false ∧ process.pid ≠ -1 ∧
    process.justSpawn = false ∧ process.exiting = false
  count : s.processes.length = n
  woken : ∀ i < n, (s.workers i).phase = .waiting → s.Undelivered i →
    0 < (s.workers i).unread ∨ ∃ j ≤ i, s.sending = some j

variable {n : Nat} {s : Notifier}

theorem start_invariant (pids : List Nat) : (Notifier.start pids).Invariant pids.length where
  running process member := by
    obtain ⟨pid, -, rfl⟩ := List.mem_map.mp member
    exact ⟨rfl, by simp only [spawned]; omega, rfl, rfl⟩
  count := List.length_map _
  woken i bound asleep undelivered := by
    have nothing : (createSharedMemory.messages 0).messageId = 0 := by
      rw [createSharedMemory, linkMessages_messageId]
      rfl
    simp only [Notifier.Undelivered, Notifier.start, websocketInit, nothing] at undelivered
    exact (UInt64.lt_irrefl _ undelivered).elim

theorem setWorker_same (s : Notifier) (i : Nat) (w : WorkerProcess) :
    (s.setWorker i w).workers i = w := if_pos rfl

theorem setWorker_other (s : Notifier) (w : WorkerProcess) {i j : Nat} (other : j ≠ i) :
    (s.setWorker i w).workers j = s.workers j := if_neg other

/-- A worker that moved on its own, if it went to sleep, with nothing to deliver. -/
theorem Notifier.Invariant.setWorker {i : Nat} {w : WorkerProcess} (inv : s.Invariant n)
    (awake : w.phase = .waiting → ¬ (s.setWorker i w).Undelivered i) :
    (s.setWorker i w).Invariant n where
  running := inv.running
  count := inv.count
  woken j bound asleep undelivered := by
    by_cases same : j = i
    · subst same
      rw [setWorker_same] at asleep
      exact (awake asleep undelivered).elim
    · rw [Undelivered, setWorker_other s w same] at undelivered
      rw [setWorker_other s w same] at asleep ⊢
      exact inv.woken j bound asleep undelivered

/-- In a table of running workers, a turn of the loop writes to one of them. -/
theorem notify_eq (inv : s.Invariant n) (full : Bool) :
    s.notify full = match s.sending with
      | none => s
      | some i =>
        if i < n then
          { s with sending := some (i + 1) }.setWorker i (writeChannel full (s.workers i))
        else { s with sending := none } := by
  rw [Notifier.notify]
  cases s.sending with
  | none => rfl
  | some i =>
    simp only
    split
    next out =>
      have past : n ≤ i := inv.count ▸ List.getElem?_eq_none_iff.mp out
      rw [if_neg (Nat.not_lt_of_le past)]
    next process found =>
      obtain ⟨detached, pid, justSpawn, exiting⟩ :=
        inv.running process (List.mem_of_getElem? found)
      have inside : i < n := inv.count ▸ (List.getElem?_eq_some_iff.mp found).1
      simp [detached, pid, justSpawn, exiting, inside]

theorem notify_sending (inv : s.Invariant n) (full : Bool) :
    (s.notify full).sending = s.sending.bind fun i => if i < n then some (i + 1) else none := by
  rw [notify_eq inv]
  cases sending : s.sending with
  | none => exact sending
  | some i =>
    simp only [Option.bind_some]
    split <;> rfl

theorem writeChannel_unread (full : Bool) (w : WorkerProcess) : 0 < (writeChannel full w).unread := by
  rw [writeChannel]
  split
  next already => exact already.2
  next => exact Nat.succ_pos _

theorem writeChannel_worker (full : Bool) (w : WorkerProcess) :
    (writeChannel full w).phase = w.phase ∧ (writeChannel full w).worker = w.worker := by
  rw [writeChannel]
  split <;> exact ⟨rfl, rfl⟩

theorem notify_preserves (full : Bool) (inv : s.Invariant n) : (s.notify full).Invariant n := by
  rw [notify_eq inv]
  cases sending : s.sending with
  | none => exact inv
  | some i =>
    have earlier {j : Nat} (bound : j < n) (before : j < i) (asleep : (s.workers j).phase = .waiting)
        (undelivered : s.Undelivered j) : 0 < (s.workers j).unread := by
      rcases inv.woken j bound asleep undelivered with unread | ⟨k, le, at_k⟩
      · exact unread
      · rw [sending, Option.some.injEq] at at_k
        omega
    simp only
    split
    next inside =>
      refine ⟨inv.running, inv.count, fun j bound asleep undelivered => ?_⟩
      by_cases same : j = i
      · subst same
        rw [setWorker_same]
        exact .inl (writeChannel_unread full _)
      · rw [Notifier.Undelivered, setWorker_other _ _ same] at undelivered
        rw [setWorker_other _ _ same] at asleep ⊢
        rcases Nat.lt_or_gt_of_ne same with before | after
        · exact .inl (earlier bound before asleep undelivered)
        · exact .inr ⟨i + 1, after, rfl⟩
    next past =>
      refine ⟨inv.running, inv.count, fun j bound asleep undelivered => ?_⟩
      exact .inl (earlier bound (by omega) asleep undelivered)

theorem step_preserves_woken (event : WakeEvent) (inv : s.Invariant n) :
    (s.step event).Invariant n := by
  cases event with
  | publish frame =>
    simp only [Notifier.step]
    split
    next => exact ⟨inv.running, inv.count, fun i _ _ _ => .inr ⟨0, Nat.zero_le i, rfl⟩⟩
    next => exact inv
  | notify full => exact notify_preserves full inv
  | wake i reported =>
    simp only [Notifier.step]
    split
    next =>
      apply inv.setWorker
      intro asleep
      split at asleep <;> cases asleep
    next => exact inv
  | read i =>
    simp only [Notifier.step]
    split
    next reading =>
      split
      · apply inv.setWorker
        intro asleep
        rw [reading] at asleep
        cases asleep
      · apply inv.setWorker
        intro asleep
        cases asleep
    next => exact inv
  | poll i =>
    simp only [Notifier.step]
    split
    next =>
      apply inv.setWorker
      intro _ undelivered
      rw [Notifier.Undelivered, setWorker_same] at undelivered
      exact websocketProcessMessages_done _ _ _ undelivered
    next => exact inv

theorem run_preserves_woken (events : List WakeEvent) :
    ∀ {s : Notifier}, s.Invariant n → (s.run events).Invariant n := by
  induction events with
  | nil =>
    intro s inv
    exact inv
  | cons event events ih =>
    intro s inv
    exact ih (step_preserves_woken event inv)

/-- While the message process goes on with its loop, a sleeping worker stays as it is, and once
the loop has passed it there is a command in its channel. -/
theorem notify_wakes {i : Nat} (bound : i < n) (fulls : List Bool) :
    ∀ {s : Notifier}, s.Invariant n → (s.workers i).phase = .waiting → s.Undelivered i →
      (∀ j, s.sending = some j → i < j + fulls.length) →
      0 < ((s.run (fulls.map .notify)).workers i).unread := by
  induction fulls with
  | nil =>
    intro s inv asleep undelivered passed
    rcases inv.woken i bound asleep undelivered with unread | ⟨j, le, sending⟩
    · exact unread
    · have := passed j sending
      simp only [List.length_nil] at this
      omega
  | cons full fulls ih =>
    intro s inv asleep undelivered passed
    have same : ((s.notify full).workers i).phase = (s.workers i).phase ∧
        ((s.notify full).workers i).worker = (s.workers i).worker ∧
        (s.notify full).ring = s.ring := by
      rw [notify_eq inv]
      cases s.sending with
      | none => exact ⟨rfl, rfl, rfl⟩
      | some j =>
        simp only
        split
        next =>
          by_cases here : i = j
          · subst here
            rw [setWorker_same]
            exact ⟨(writeChannel_worker full _).1, (writeChannel_worker full _).2, rfl⟩
          · rw [setWorker_other _ _ here]
            exact ⟨rfl, rfl, rfl⟩
        next => exact ⟨rfl, rfl, rfl⟩
    obtain ⟨phase, worker, ring⟩ := same
    apply ih (notify_preserves full inv) (phase.trans asleep)
    · rw [Notifier.Undelivered, worker, ring]
      exact undelivered
    · intro j sending
      rw [notify_sending inv, Option.bind_eq_some_iff] at sending
      obtain ⟨k, before, moved⟩ := sending
      have := passed k before
      simp only [List.length_cons] at this
      split at moved
      · cases moved
        omega
      · cases moved

/-- A worker asleep in epoll with a message to deliver has a command in its channel, or the
message process has yet to write to it and, when it has gone on that far, the command is there. -/
theorem no_lost_wake_up (pids : List Nat) (events : List WakeEvent) (i : Nat)
    (worker : i < pids.length)
    (asleep : (((Notifier.start pids).run events).workers i).phase = .waiting)
    (undelivered : ((Notifier.start pids).run events).Undelivered i) :
    let s := (Notifier.start pids).run events
    (0 < (s.workers i).unread ∨ ∃ j ≤ i, s.sending = some j) ∧
      ∀ fulls : List Bool, i < fulls.length →
        0 < ((s.run (fulls.map .notify)).workers i).unread := by
  intro s
  have inv : s.Invariant pids.length := run_preserves_woken events (start_invariant pids)
  refine ⟨inv.woken i worker asleep undelivered, fun fulls enough => ?_⟩
  exact notify_wakes worker fulls inv asleep undelivered fun j _ => by omega

/-- The second of two workers, with the first one just written to. -/
theorem no_lost_wake_up_second :
    let s := (Notifier.start [101, 102]).run [.publish [129, 0], .notify false]
    (0 < (s.workers 1).unread ∨ ∃ j ≤ 1, s.sending = some j) ∧
      ∀ fulls : List Bool, 1 < fulls.length →
        0 < ((s.run (fulls.map .notify)).workers 1).unread :=
  no_lost_wake_up [101, 102] [.publish [129, 0], .notify false] 1 (by decide) rfl (by decide +kernel)

end Ngx
