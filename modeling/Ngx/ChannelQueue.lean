import Ngx.Broadcast

/-! A channel over time: connections join it, get the frames sent to the channel while they are
in its queue, and have write events. -/
namespace Ngx.Http

open LinkedRing

variable {ν : Type*}

/-- A connection whose 101 answer has gone out and whose request has been freed. -/
structure Upgraded where
  connection : Connection
  life : connection.life = ⟨true, .request, false, 1, 0, false⟩

/-- A worker with the nodes that have ever joined the channel. -/
structure Service (ν : Type*) extends Worker ν where
  joined : List ν

/-- What happens to the channel: a connection with a new record joins it, the message handler is
called for a node of the queue, or a write event, ready or timed out, is dispatched. -/
inductive ChannelEvent (ν : Type*) where
  | joined (x : ν) (upgraded : Upgraded)
  | polled (x : ν) (message : List UInt8) (reply : Reply)
  | writable (x : ν) (reply : Reply) (channelFound : Bool)
  | writeTimedOut (x : ν) (reply : Reply) (channelFound : Bool)

section Run

variable [DecidableEq ν]

def Service.initial (h : ν) (links : Links ν) : Service ν where
  links := queueInit h links
  connections := fun _ => .fresh
  joined := []

def Service.handle (h x : ν) (handler : Connection → Connection × QueueOp) (s : Service ν) :
    Service ν :=
  { s with toWorker := s.toWorker.handle h x handler }

def timedOutHandler (reply : Reply) (channelFound : Bool) (c : Connection) :
    Connection × QueueOp :=
  websocketSendMessageHandler reply channelFound { c with writeTimedout := true }

def Service.step (h : ν) (s : Service ν) : ChannelEvent ν → Service ν
  | .joined x upgraded =>
    if x = h ∨ x ∈ s.joined then s
    else
      { links := queueInsertTail h x s.links
        connections :=
          Function.update s.connections x (websocketInitConnection .linked upgraded.connection)
        joined := x :: s.joined }
  | .polled x message reply =>
    if x ∈ s.joined ∧ linked (s.connections x) then
      s.handle h x (websocketMessageHandler message reply)
    else s
  | .writable x reply found =>
    if x ∈ s.joined ∧ (s.connections x).isOpen then
      s.handle h x (websocketSendMessageHandler reply found)
    else s
  | .writeTimedOut x reply found =>
    if x ∈ s.joined ∧ (s.connections x).isOpen then s.handle h x (timedOutHandler reply found)
    else s

def Service.run (h : ν) (s : Service ν) (events : List (ChannelEvent ν)) : Service ν :=
  events.foldl (Service.step h) s

end Run

/-- The queue holds the open connections that are marked as linked, and no record has bytes to
send. -/
structure Service.Invariant (h : ν) (s : Service ν) : Prop where
  queue : ∃ members, Ring s.links h members ∧
    ∀ x, x ∈ members ↔ x ∈ s.joined ∧ linked (s.connections x) = true
  headless : h ∉ s.joined
  record : ∀ x ∈ s.joined, (s.connections x).websocket.messageSize = 0
  alive : ∀ x ∈ s.joined, (s.connections x).isOpen = true → HandedOver (s.connections x)

theorem Service.Invariant.member {h x : ν} {s : Service ν} (inv : s.Invariant h) (joined : x ∈ s.joined)
    (marked : linked (s.connections x) = true) : Member (s.connections x) := by
  have both : (s.connections x).isOpen = true ∧ (s.connections x).websocket.inQueue = true := by
    simpa [linked] using marked
  exact ⟨inv.alive x joined both.1, both.2⟩

/-- At any time the queue is one that a message can be sent to. -/
theorem Service.Invariant.channel {h : ν} {s : Service ν} (inv : s.Invariant h) :
    ∃ members, Channel s.toWorker h members ∧ ∀ x ∈ members, x ∈ s.joined := by
  obtain ⟨members, ring, marked⟩ := inv.queue
  refine ⟨members, ⟨ring, fun x inside => ?_⟩, fun x inside => ((marked x).mp inside).1⟩
  obtain ⟨joined, mark⟩ := (marked x).mp inside
  exact inv.member joined mark

/-- What a handler does to the queue agrees with the mark before it and after it. -/
def QueueOp.Agrees (before after : Bool) : QueueOp → Prop
  | .keep => after = before
  | .remove => before = true ∧ after = false
  | .insertTail => before = false ∧ after = true

structure Accurate (c : Connection) (outcome : Connection × QueueOp) : Prop where
  record : outcome.1.websocket.messageSize = 0
  alive : outcome.1.isOpen = true → HandedOver outcome.1
  queue : outcome.2.Agrees (linked c) (linked outcome.1)

variable {c : Connection} {message : List UInt8} {reply : Reply}

theorem HandedOver.linked (handedOver : HandedOver c) : linked c = c.websocket.inQueue := by
  simp [Http.linked, handedOver.fields.1]

theorem closed_accurate {d : Connection} (handedOver : HandedOver d)
    (same : d.websocket = c.websocket) (opened : c.isOpen = true)
    (empty : c.websocket.messageSize = 0) : Accurate c (websocketCloseConnection d) := by
  have closed := handedOver.close_closed
  have gone : linked (websocketCloseConnection d).1 = false := by
    simp [linked, closed.notOpen]
  refine ⟨?_, fun still => Bool.noConfusion (still.symm.trans closed.notOpen), ?_⟩
  · simp [websocketCloseConnection, httpCloseConnection_websocket, same, empty]
  · have before : linked c = d.websocket.inQueue := by simp [linked, opened, same]
    rw [before, gone]
    cases marked : d.websocket.inQueue with
    | true => simp [websocketCloseConnection, marked, QueueOp.Agrees]
    | false => simp [websocketCloseConnection, marked, QueueOp.Agrees]

theorem messageHandler_messageSize :
    (websocketMessageHandler message reply c).1.websocket.messageSize =
      c.websocket.messageSize := by
  have closes (d : Connection) (same : d.websocket = c.websocket) :
      (websocketCloseConnection d).1.websocket.messageSize = c.websocket.messageSize := by
    simp [websocketCloseConnection, httpCloseConnection_websocket, same]
  unfold websocketMessageHandler
  split
  · exact closes _ rfl
  split
  · rfl
  split
  · split
    · rfl
    · exact closes _ rfl
  · exact closes _ rfl
  · dsimp only
    split_ifs
    · exact closes _ rfl
    · rfl
    · exact closes _ rfl
    · rfl

theorem messageHandler_accurate (member : Member c) (empty : c.websocket.messageSize = 0) :
    Accurate c (websocketMessageHandler message reply c) := by
  have record : (websocketMessageHandler message reply c).1.websocket.messageSize = 0 :=
    messageHandler_messageSize.trans empty
  have served := messageHandler_served message reply member
  generalize websocketMessageHandler message reply c = outcome at record served
  cases served with
  | closed c' _ _ notOpen =>
    refine ⟨record, fun still => Bool.noConfusion (still.symm.trans notOpen), member.linked, ?_⟩
    simp [linked, notOpen]
  | unlinked c' _ handedOver inQueue _ =>
    exact ⟨record, fun _ => handedOver, member.linked, handedOver.linked.trans inQueue⟩
  | kept c' member' _ =>
    exact ⟨record, fun _ => member'.handedOver, member'.linked.trans member.linked.symm⟩

theorem sendMessageHandler_accurate {found : Bool} (handedOver : HandedOver c)
    (empty : c.websocket.messageSize = 0) :
    Accurate c (websocketSendMessageHandler reply found c) := by
  by_cases late : c.writeTimedout = true
  · have marked : HandedOver { c with timedout := true } := handedOver.transfer rfl rfl rfl
    simp only [websocketSendMessageHandler, if_pos late]
    exact closed_accurate marked rfl handedOver.fields.1 empty
  · simp only [websocketSendMessageHandler, if_neg late, if_pos empty]
    exact ⟨empty, fun _ => handedOver, rfl⟩

theorem timedOutHandler_accurate {found : Bool} (handedOver : HandedOver c)
    (empty : c.websocket.messageSize = 0) :
    Accurate c (timedOutHandler reply found c) := by
  have marked : HandedOver { c with writeTimedout := true } := handedOver.transfer rfl rfl rfl
  have accurate : Accurate { c with writeTimedout := true } (timedOutHandler reply found c) :=
    sendMessageHandler_accurate marked empty
  exact ⟨accurate.record, accurate.alive, accurate.queue⟩

variable [DecidableEq ν] {h x : ν} {s : Service ν}

theorem Service.initial_invariant (links : Links ν) : (Service.initial h links).Invariant h where
  queue := ⟨[], queueInit_ring, fun _ => by simp [Service.initial]⟩
  headless := List.not_mem_nil
  record _ member := nomatch member
  alive _ member := nomatch member

/-- The queue after an operation on the node of one connection. -/
theorem QueueOp.Agrees.ring {op : QueueOp} {l : Links ν} {members : List ν}
    {before after : Bool} (agrees : op.Agrees before after) (ring : Ring l h members)
    (other : x ≠ h) (marked : x ∈ members ↔ before = true) :
    ∃ members', Ring (op.apply h x l) h members' ∧
      ∀ y, y ∈ members' ↔ (y ≠ x ∧ y ∈ members) ∨ (y = x ∧ after = true) := by
  cases op with
  | keep =>
    refine ⟨members, ring, fun y => ?_⟩
    rw [show after = before from agrees, ← marked]
    by_cases same : y = x
    · simp [same]
    · simp [same]
  | remove =>
    obtain ⟨inside, gone⟩ := agrees
    obtain ⟨xs, ys, rfl⟩ := List.append_of_mem (marked.mpr inside)
    refine ⟨xs ++ ys, queueRemove_ring ring, fun y => ?_⟩
    have distinct : x ∉ xs ++ ys := by
      have moved := List.nodup_middle.mp (List.nodup_cons.mp ring.distinct).2
      exact (List.nodup_cons.mp moved).1
    by_cases same : y = x
    · simpa [same, gone] using distinct
    · simp [same, gone]
  | insertTail =>
    obtain ⟨outside, joined⟩ := agrees
    have absent : x ∉ members := fun inside => nomatch outside.symm.trans (marked.mp inside)
    refine ⟨members ++ [x], queueInsertTail_ring ring (List.not_mem_cons_of_ne_of_not_mem other absent),
      fun y => ?_⟩
    by_cases same : y = x
    · simp [same, joined]
    · simp [same]

theorem Service.Invariant.handle {handler : Connection → Connection × QueueOp}
    (inv : s.Invariant h) (member : x ∈ s.joined)
    (accurate : Accurate (s.connections x) (handler (s.connections x))) :
    (s.handle h x handler).Invariant h := by
  obtain ⟨members, ring, marked⟩ := inv.queue
  have other : x ≠ h := fun same => inv.headless (same ▸ member)
  have self : (s.handle h x handler).connections x = (handler (s.connections x)).1 :=
    Function.update_self _ _ _
  have others : ∀ y, y ≠ x → (s.handle h x handler).connections y = s.connections y :=
    fun y apart => Function.update_of_ne apart _ _
  have here : x ∈ members ↔ linked (s.connections x) = true :=
    (marked x).trans (and_iff_right member)
  obtain ⟨members', ring', marked'⟩ := accurate.queue.ring ring other here
  refine ⟨⟨members', ring', fun y => ?_⟩, inv.headless, fun y joined => ?_, fun y joined => ?_⟩
  · rw [marked' y]
    by_cases same : y = x
    · subst same
      rw [self]
      simp [Service.handle, member]
    · rw [others y same, marked y]
      simp [Service.handle, same]
  · by_cases same : y = x
    · subst same
      rw [self]
      exact accurate.record
    · rw [others y same]
      exact inv.record y joined
  · by_cases same : y = x
    · subst same
      rw [self]
      exact accurate.alive
    · rw [others y same]
      exact inv.alive y joined

theorem Upgraded.member (upgraded : Upgraded) :
    Member (websocketInitConnection .linked upgraded.connection) := by
  have life := upgraded.life
  simp only [Connection.life, Life.mk.injEq] at life
  obtain ⟨opened, -, pool, destroyed, connectionPool, clean⟩ := life
  refine ⟨⟨?_, rfl, rfl⟩, rfl⟩
  simp [Connection.life, websocketInitConnection, opened, pool, destroyed, connectionPool, clean]

theorem Service.Invariant.join (inv : s.Invariant h) (upgraded : Upgraded) (other : x ≠ h)
    (fresh : x ∉ s.joined) : (s.step h (.joined x upgraded)).Invariant h := by
  have member := upgraded.member
  have stepped : s.step h (.joined x upgraded) =
      { links := queueInsertTail h x s.links
        connections :=
          Function.update s.connections x (websocketInitConnection .linked upgraded.connection)
        joined := x :: s.joined } := if_neg (by simp [other, fresh])
  rw [stepped]
  obtain ⟨members, ring, marked⟩ := inv.queue
  have absent : x ∉ members := fun inside => fresh ((marked x).mp inside).1
  have elsewhere : ∀ y, y ∈ s.joined → y ≠ x := fun y joined same => fresh (same ▸ joined)
  refine ⟨⟨members ++ [x], queueInsertTail_ring ring
    (List.not_mem_cons_of_ne_of_not_mem other absent), fun y => ?_⟩, ?_, ?_, ?_⟩
  · by_cases same : y = x
    · subst same
      simp [member.linked]
    · simp [same, marked y]
  · exact List.not_mem_cons_of_ne_of_not_mem other.symm inv.headless
  · intro y joined
    rcases List.mem_cons.mp joined with rfl | earlier
    · simp [websocketInitConnection, Websocket.fresh]
    · simp only [Function.update_of_ne (elsewhere y earlier)]
      exact inv.record y earlier
  · intro y joined
    rcases List.mem_cons.mp joined with rfl | earlier
    · simp only [Function.update_self]
      exact fun _ => member.handedOver
    · simp only [Function.update_of_ne (elsewhere y earlier)]
      exact inv.alive y earlier

theorem Service.step_preserves (inv : s.Invariant h) (event : ChannelEvent ν) :
    (s.step h event).Invariant h := by
  cases event with
  | joined x upgraded =>
    by_cases taken : x = h ∨ x ∈ s.joined
    · simp only [Service.step, if_pos taken]
      exact inv
    · exact inv.join upgraded (fun same => taken (.inl same)) fun joined => taken (.inr joined)
  | polled x message reply =>
    simp only [Service.step]
    split
    next reached =>
      apply inv.handle reached.1
      exact messageHandler_accurate (inv.member reached.1 reached.2) (inv.record x reached.1)
    next => exact inv
  | writable x reply found =>
    simp only [Service.step]
    split
    next reached =>
      apply inv.handle reached.1
      exact sendMessageHandler_accurate (inv.alive x reached.1 reached.2) (inv.record x reached.1)
    next => exact inv
  | writeTimedOut x reply found =>
    simp only [Service.step]
    split
    next reached =>
      apply inv.handle reached.1
      exact timedOutHandler_accurate (inv.alive x reached.1 reached.2) (inv.record x reached.1)
    next => exact inv

theorem Service.run_invariant (events : List (ChannelEvent ν)) :
    ∀ {s : Service ν}, s.Invariant h → (s.run h events).Invariant h := by
  induction events with
  | nil =>
    intro s inv
    exact inv
  | cons event events ih =>
    intro s inv
    exact ih (Service.step_preserves inv event)

theorem polled_joined : (s.step h (.polled x message reply)).joined = s.joined := by
  simp only [Service.step]
  split <;> rfl

/-- The call of a member's handler in the loop is a poll of that member. -/
theorem Walking.served_polled (message : List UInt8) (reply : Reply) {w : Worker ν} {before rest : List ν} {walk : Walk ν}
    (walking : Walking w h before (x :: rest) walk) (same : walk.worker = s.toWorker)
    (joined : x ∈ s.joined) :
    (walk.served h x message reply).worker = (s.step h (.polled x message reply)).toWorker := by
  have marked : linked (s.connections x) = true := by
    rw [← same, walking.untouched x List.mem_cons_self]
    exact (walking.member x List.mem_cons_self).linked
  simp only [Walk.served, same, Service.step, if_pos (And.intro joined marked)]
  rfl

theorem broadcast_polls {w : Worker ν} {replies : ν → Reply} :
    ∀ {rest before : List ν} {walk walk' : Walk ν} {fuel : Nat} {s : Service ν},
      Walking w h before rest walk → h ∉ rest → walk.worker = s.toWorker →
      (∀ x ∈ rest, x ∈ s.joined) →
      broadcast h message replies fuel (rest.headD h) walk = some walk' →
      ∃ visited, walk'.visited = walk.visited ++ visited ∧
        walk'.worker =
          (s.run h (visited.map fun x => .polled x message (replies x))).toWorker
  | _, _, _, _, 0, _, _, _, _, _, ran => nomatch ran
  | [], _, walk, walk', fuel + 1, s, _, _, same, _, ran => by
    simp only [broadcast, List.headD_nil, if_true, Option.some.injEq] at ran
    subst ran
    exact ⟨[], (List.append_nil _).symm, same⟩
  | x :: rest, before, walk, walk', fuel + 1, s, walking, headless, same, joined, ran => by
    have other : x ≠ h := fun same => headless (same ▸ List.mem_cons_self)
    have polled := walking.served_polled message (replies x) same (joined x List.mem_cons_self)
    rw [List.headD_cons, broadcast, if_neg other] at ran
    by_cases closes : Closes message (replies x) (w.connections x)
    · rw [if_pos (walking.closed closes)] at ran
      cases ran
      exact ⟨[x], rfl, polled⟩
    · obtain ⟨walked, alive, next⟩ := walking.served closes
      rw [if_neg (Nat.not_lt_of_le (le_of_eq alive)), next] at ran
      have rejoined : ∀ y ∈ rest, y ∈ (s.step h (.polled x message (replies x))).joined := by
        intro y inside
        rw [polled_joined]
        exact joined y (List.mem_cons_of_mem x inside)
      obtain ⟨visited, order, worker⟩ := broadcast_polls walked
        (fun inside => headless (List.mem_cons_of_mem x inside)) polled rejoined ran
      refine ⟨x :: visited, ?_, worker⟩
      rw [order]
      exact List.append_assoc _ _ _

/-- A message to the channel is a run of polls, one for each member that is visited. -/
theorem message_is_polls (inv : s.Invariant h) {replies : ν → Reply} {fuel : Nat} {walk : Walk ν}
    (ran : processMessage h message replies fuel s.toWorker = some walk) :
    walk.worker =
      (s.run h (walk.visited.map fun x => .polled x message (replies x))).toWorker := by
  obtain ⟨members, channel, joined⟩ := inv.channel
  rw [processMessage, channel.ring.next_head] at ran
  obtain ⟨visited, order, worker⟩ := broadcast_polls channel.start
    (List.nodup_cons.mp channel.ring.distinct).1 rfl joined ran
  rw [order]
  exact worker

structure Stuck (x : ν) (bytes : List UInt8) (s : Service ν) : Prop where
  joined : x ∈ s.joined
  accepted : (s.connections x).accepted = bytes
  unmarked : (s.connections x).websocket.inQueue = false
  empty : (s.connections x).websocket.messageSize = 0

variable {bytes : List UInt8}

theorem websocketCloseConnection_stuck (c : Connection) :
    (websocketCloseConnection c).1.accepted = c.accepted ∧
      (websocketCloseConnection c).1.websocket.inQueue = c.websocket.inQueue ∧
      (websocketCloseConnection c).1.websocket.messageSize = c.websocket.messageSize := by
  simp only [websocketCloseConnection, httpCloseConnection, closeConnection]
  split <;> exact ⟨rfl, rfl, rfl⟩

/-- Without a message of its own, the write handler sends nothing and links nothing. -/
theorem sendMessageHandler_stuck {found : Bool} (empty : c.websocket.messageSize = 0) :
    let c' := (websocketSendMessageHandler reply found c).1
    c'.accepted = c.accepted ∧ c'.websocket.inQueue = c.websocket.inQueue ∧
      c'.websocket.messageSize = c.websocket.messageSize := by
  by_cases late : c.writeTimedout = true
  · simp only [websocketSendMessageHandler, if_pos late]
    exact websocketCloseConnection_stuck _
  · simp [websocketSendMessageHandler, late, empty]

/-- The handler of a node does not touch another connection. -/
theorem Stuck.handle_other {y : ν} {handler : Connection → Connection × QueueOp}
    (stuck : Stuck x bytes s) (other : x ≠ y) : Stuck x bytes (s.handle h y handler) := by
  have same : (s.handle h y handler).connections x = s.connections x :=
    Function.update_of_ne other _ _
  exact ⟨stuck.joined, same ▸ stuck.accepted, same ▸ stuck.unmarked, same ▸ stuck.empty⟩

theorem Stuck.handle {y : ν} {handler : Connection → Connection × QueueOp}
    (stuck : Stuck x bytes s)
    (keeps : ∀ c : Connection, c.websocket.messageSize = 0 →
      (handler c).1.accepted = c.accepted ∧
      (handler c).1.websocket.inQueue = c.websocket.inQueue ∧
      (handler c).1.websocket.messageSize = c.websocket.messageSize) :
    Stuck x bytes (s.handle h y handler) := by
  by_cases other : x = y
  · subst other
    have self : (s.handle h x handler).connections x = (handler (s.connections x)).1 :=
      Function.update_self _ _ _
    obtain ⟨accepted, inQueue, messageSize⟩ := keeps _ stuck.empty
    refine ⟨stuck.joined, ?_, ?_, ?_⟩
    · rw [self, accepted, stuck.accepted]
    · rw [self, inQueue, stuck.unmarked]
    · rw [self, messageSize, stuck.empty]
  · exact stuck.handle_other other

theorem step_stuck (stuck : Stuck x bytes s) (event : ChannelEvent ν) :
    Stuck x bytes (s.step h event) := by
  cases event with
  | joined y upgraded =>
    by_cases taken : y = h ∨ y ∈ s.joined
    · simp only [Service.step, if_pos taken]
      exact stuck
    · have other : x ≠ y := fun same => taken (.inr (same ▸ stuck.joined))
      have same : (s.step h (.joined y upgraded)).connections x = s.connections x := by
        simp only [Service.step, if_neg taken]
        exact Function.update_of_ne other _ _
      refine ⟨?_, same ▸ stuck.accepted, same ▸ stuck.unmarked, same ▸ stuck.empty⟩
      simp only [Service.step, if_neg taken]
      exact List.mem_cons_of_mem y stuck.joined
  | polled y message reply =>
    simp only [Service.step]
    split
    next reached =>
      apply stuck.handle_other
      rintro rfl
      simp [linked, stuck.unmarked] at reached
    next => exact stuck
  | writable y reply found =>
    simp only [Service.step]
    split
    next => exact stuck.handle fun _ empty => sendMessageHandler_stuck empty
    next => exact stuck
  | writeTimedOut y reply found =>
    simp only [Service.step]
    split
    next =>
      apply stuck.handle
      intro c empty
      exact sendMessageHandler_stuck (c := { c with writeTimedout := true }) empty
    next => exact stuck

theorem run_stuck (events : List (ChannelEvent ν)) :
    ∀ {s : Service ν}, Stuck x bytes s → Stuck x bytes (s.run h events) := by
  induction events with
  | nil =>
    intro s stuck
    exact stuck
  | cons event events ih =>
    intro s stuck
    exact ih (step_stuck stuck event)

/-- The bytes of a frame that the socket took although it did not take them all. -/
theorem unlinks_accepted (unlinks : Unlinks message reply c) :
    ∃ n < message.length,
      (websocketMessageHandler message reply c).1.accepted = c.accepted ++ message.take n ∧
      (websocketMessageHandler message reply c).1.websocket.inQueue = false := by
  obtain ⟨inTime, frame, held, armed⟩ := unlinks
  have size : 0 < message.length := List.length_pos_iff.mpr frame
  cases result : reply.send with
  | again =>
    refine ⟨0, size, ?_⟩
    simp [websocketMessageHandler, inTime, frame, result, armed, setInQueue, reusableConnection]
  | error => simp [Reply.Held, result] at held
  | sent n =>
    simp only [Reply.Held, result] at held
    refine ⟨n, held.2, ?_⟩
    have positive : n ≠ 0 := by omega
    simp [websocketMessageHandler, inTime, frame, result, armed, held.2, positive, setInQueue]

/-- After a send that was short or returned `NGX_AGAIN`, whatever happens later, write events on
which the socket takes everything included: the rest of the frame is never sent and the
connection never comes back into the queue. -/
theorem slow_client_never_resumes (h : ν) (links : Links ν) (before later : List (ChannelEvent ν))
    (x : ν) (message : List UInt8) (reply : Reply)
    (joined : x ∈ ((Service.initial h links).run h before).joined)
    (marked : linked (((Service.initial h links).run h before).connections x) = true)
    (unlinks : Unlinks message reply (((Service.initial h links).run h before).connections x)) :
    let s := (Service.initial h links).run h before
    let s' := (s.step h (.polled x message reply)).run h later
    (s'.connections x).accepted ≠ (s.connections x).accepted ++ message ∧
      (s'.connections x).websocket.inQueue = false ∧
      ∀ members, Ring s'.links h members → x ∉ members := by
  intro s s'
  have inv : s.Invariant h := Service.run_invariant before (Service.initial_invariant links)
  have polled : s.step h (.polled x message reply) =
      s.handle h x (websocketMessageHandler message reply) :=
    if_pos ⟨joined, marked⟩
  have self : (s.step h (.polled x message reply)).connections x =
      (websocketMessageHandler message reply (s.connections x)).1 := by
    rw [polled]
    exact Function.update_self _ _ _
  obtain ⟨n, short, accepted, unmarked⟩ := unlinks_accepted unlinks
  have stuck : Stuck x ((s.connections x).accepted ++ message.take n)
      (s.step h (.polled x message reply)) := by
    refine ⟨?_, self ▸ accepted, self ▸ unmarked, ?_⟩
    · rw [polled]
      exact joined
    · rw [self, messageHandler_messageSize]
      exact inv.record x joined
  have final : Stuck x ((s.connections x).accepted ++ message.take n) s' := run_stuck later stuck
  refine ⟨?_, final.unmarked, ?_⟩
  · rw [final.accepted]
    intro complete
    have lengths := congrArg List.length (List.append_cancel_left complete)
    rw [List.length_take] at lengths
    omega
  · intro members ring inside
    have inv' : s'.Invariant h := Service.run_invariant later (Service.step_preserves inv _)
    obtain ⟨members', ring', marked'⟩ := inv'.queue
    rw [ring.unique ring'] at inside
    have mark := ((marked' x).mp inside).2
    simp [linked, final.unmarked] at mark

def newClient : Upgraded := ⟨httpFreeRequest upgrading, rfl⟩

/-- A client that takes half of a frame, and the other half at the next write event. -/
theorem slow_client_half_frame :
    let s := (Service.initial 0 ⟨id, id⟩).run 0 [.joined 1 newClient]
    let s' := (s.step 0 (.polled 1 greetingFrame ⟨.sent 2, true, .linked⟩)).run 0
      [.writable 1 ⟨.sent 2, true, .linked⟩ true]
    (s'.connections 1).accepted ≠ (s.connections 1).accepted ++ greetingFrame ∧
      (s'.connections 1).websocket.inQueue = false ∧
      ∀ members, Ring s'.links 0 members → 1 ∉ members :=
  slow_client_never_resumes 0 ⟨id, id⟩ [.joined 1 newClient]
    [.writable 1 ⟨.sent 2, true, .linked⟩ true] 1 greetingFrame ⟨.sent 2, true, .linked⟩
    List.mem_cons_self rfl ⟨rfl, by decide, ⟨by decide, by decide⟩, rfl⟩

/-- The socket has two of the four bytes, and the queue is empty. -/
theorem slow_client_cut_off :
    let s' := (Service.initial 0 ⟨id, id⟩).run 0
      [.joined 1 newClient, .polled 1 greetingFrame ⟨.sent 2, true, .linked⟩,
        .writable 1 ⟨.sent 2, true, .linked⟩ true]
    (s'.connections 1).accepted = [129, 2] ∧ (s'.connections 1).websocket.inQueue = false ∧
      s'.links.next 0 = 0 := by
  exact ⟨rfl, rfl, rfl⟩

end Ngx.Http
