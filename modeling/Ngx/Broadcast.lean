import Ngx.HttpLifecycle
import Ngx.Queue

/-! One message to all connections of a channel: the inner loop of
`ngx_websocket_process_messages`. A node of the channel's queue stands for the connection whose
record contains it. -/
namespace Ngx.Http

open LinkedRing

variable {ν : Type*}

structure Worker (ν : Type*) where
  links : Links ν
  connections : ν → Connection

section Loop

variable [DecidableEq ν]

def QueueOp.apply (h x : ν) (l : Links ν) : QueueOp → Links ν
  | .keep => l
  | .remove => queueRemove x l
  | .insertTail => queueInsertTail h x l

def Worker.handle (h x : ν) (handler : Connection → Connection × QueueOp) (w : Worker ν) :
    Worker ν where
  links := (handler (w.connections x)).2.apply h x w.links
  connections := Function.update w.connections x (handler (w.connections x)).1

/-- The loop so far: the nodes in the order in which their handlers were called, and whether
the link of a node in a destroyed pool was read. -/
structure Walk (ν : Type*) where
  worker : Worker ν
  visited : List ν
  readFreed : Bool

def Walk.served (h x : ν) (message : List UInt8) (reply : Reply) (walk : Walk ν) : Walk ν :=
  ⟨walk.worker.handle h x (websocketMessageHandler message reply), walk.visited ++ [x],
    walk.readFreed⟩

/-- The loop at `next`, as far as the fuel goes. It is not followed beyond a link read from
freed memory. -/
def broadcast (h : ν) (message : List UInt8) (replies : ν → Reply) :
    Nat → ν → Walk ν → Option (Walk ν)
  | 0, _, _ => none
  | fuel + 1, next, walk =>
    if next = h then some walk
    else
      let walk := walk.served h next message (replies next)
      if 0 < (walk.worker.connections next).websocket.poolDestroyed then
        some { walk with readFreed := true }
      else broadcast h message replies fuel (walk.worker.links.next next) walk

def processMessage (h : ν) (message : List UInt8) (replies : ν → Reply) (fuel : Nat)
    (w : Worker ν) : Option (Walk ν) :=
  broadcast h message replies fuel (w.links.next h) ⟨w, [], false⟩

end Loop

def Reply.Held (size : Nat) (reply : Reply) : Prop :=
  match reply.send with
  | .again => True
  | .error => False
  | .sent n => 0 < n ∧ n < size

def Closes (message : List UInt8) (reply : Reply) (c : Connection) : Prop :=
  c.writeTimedout = true ∨ message ≠ [] ∧ (reply.send = .error ∨ reply.send = .sent 0 ∨
    reply.Held message.length ∧ reply.writeEvent = false)

/-- The message handler takes the connection out of the queue, to wait for a write event. -/
structure Unlinks (message : List UInt8) (reply : Reply) (c : Connection) : Prop where
  inTime : c.writeTimedout = false
  frame : message ≠ []
  held : reply.Held message.length
  armed : reply.writeEvent = true

structure Member (c : Connection) : Prop where
  handedOver : HandedOver c
  inQueue : c.websocket.inQueue = true

def linked (c : Connection) : Bool := c.isOpen && c.websocket.inQueue

theorem Member.linked {c : Connection} (member : Member c) : linked c = true := by
  simp [Http.linked, member.handedOver.fields.1, member.inQueue]

inductive Served (message : List UInt8) (reply : Reply) (c : Connection) :
    Connection × QueueOp → Prop
  | closed (c' : Connection) (closes : Closes message reply c)
      (freed : c'.websocket.poolDestroyed = 1) (notOpen : c'.isOpen = false) :
      Served message reply c (c', .remove)
  | unlinked (c' : Connection) (unlinks : Unlinks message reply c) (handedOver : HandedOver c')
      (inQueue : c'.websocket.inQueue = false) (stays : ¬ Closes message reply c) :
      Served message reply c (c', .remove)
  | kept (c' : Connection) (member : Member c') (stays : ¬ Closes message reply c) :
      Served message reply c (c', .keep)

variable {message : List UInt8} {reply : Reply} {c : Connection}

theorem Member.transfer {d : Connection} (member : Member c) (life : d.life = c.life)
    (record : d.websocket = c.websocket) (handlers : d.handlers = c.handlers) : Member d :=
  ⟨member.handedOver.transfer life record handlers, record ▸ member.inQueue⟩

theorem httpCloseConnection_websocket (c : Connection) :
    (httpCloseConnection c).websocket = c.websocket := by
  simp only [httpCloseConnection, closeConnection]
  split <;> rfl

theorem Served.of_close {d : Connection} (closes : Closes message reply c) (member : Member d) :
    Served message reply c (websocketCloseConnection d) := by
  have closed := member.handedOver.close_closed
  rw [websocketCloseConnection, if_pos member.inQueue]
  refine .closed _ closes ?_ closed.notOpen
  rw [httpCloseConnection_websocket, member.handedOver.record]

theorem messageHandler_served (message : List UInt8) (reply : Reply) (member : Member c) :
    Served message reply c (websocketMessageHandler message reply c) := by
  by_cases late : c.writeTimedout = true
  · rw [websocketMessageHandler, if_pos late]
    exact .of_close (.inl late) (member.transfer rfl rfl rfl)
  have inTime : c.writeTimedout = false := by simpa using late
  by_cases empty : message.length = 0
  · rw [websocketMessageHandler, if_neg late, if_pos empty]
    apply Served.kept c member
    rintro (h | ⟨h, -⟩)
    · exact late h
    · exact h (List.length_eq_zero_iff.mp empty)
  have nonempty : message ≠ [] := fun h => empty (List.length_eq_zero_iff.mpr h)
  rw [websocketMessageHandler, if_neg late, if_neg empty]
  have unlink (d : Connection) (handedOver : HandedOver d) (held : reply.Held message.length)
      (armed : reply.writeEvent = true) :
      Served message reply c (setInQueue false d, .remove) := by
    refine .unlinked _ ⟨inTime, nonempty, held, armed⟩ (handedOver.setInQueue false) rfl ?_
    rintro (h | ⟨-, h | h | h⟩)
    · exact late h
    · simp [Reply.Held, h] at held
    · simp [Reply.Held, h] at held
    · exact nomatch armed.symm.trans h.2
  cases result : reply.send with
  | again =>
    have held : reply.Held message.length := by simp [Reply.Held, result]
    by_cases armed : reply.writeEvent = true
    · simp only [if_pos armed]
      exact unlink _ (member.handedOver.transfer rfl rfl rfl) held armed
    · simp only [if_neg armed]
      exact .of_close (.inr ⟨nonempty, .inr (.inr ⟨held, by simpa using armed⟩)⟩)
        (member.transfer rfl rfl rfl)
  | error => exact .of_close (.inr ⟨nonempty, .inl result⟩) member
  | sent n =>
    by_cases closed : n = 0
    · simp only [if_pos closed]
      exact .of_close (.inr ⟨nonempty, .inr (.inl (closed ▸ result))⟩) member
    by_cases short : n < message.length
    · have held : reply.Held message.length := by
        simp only [Reply.Held, result]
        exact ⟨Nat.pos_of_ne_zero closed, short⟩
      by_cases armed : reply.writeEvent = true
      · simp only [if_neg closed, if_pos short, if_pos armed]
        exact unlink _ (member.handedOver.transfer rfl rfl rfl) held armed
      · simp only [if_neg closed, if_pos short, if_neg armed]
        exact .of_close (.inr ⟨nonempty, .inr (.inr ⟨held, by simpa using armed⟩)⟩)
          (member.transfer rfl rfl rfl)
    · simp only [if_neg closed, if_neg short]
      refine .kept _ ⟨member.handedOver.transfer rfl rfl rfl, member.inQueue⟩ ?_
      rintro (h | ⟨-, h | h | h⟩)
      · exact late h
      · exact nomatch result.symm.trans h
      · exact closed (SendResult.sent.inj (result.symm.trans h))
      · simp only [Reply.Held, result] at h
        exact short h.1.2

/-- The queue of a channel: a ring of open connections in the websocket layer. -/
structure Channel (w : Worker ν) (h : ν) (members : List ν) : Prop where
  ring : Ring w.links h members
  member : ∀ x ∈ members, Member (w.connections x)

structure Delivered (h : ν) (members : List ν) (walk : Walk ν) : Prop where
  visited : walk.visited = members
  remaining : Ring walk.worker.links h
    (members.filter fun x => linked (walk.worker.connections x))
  unfreed : walk.readFreed = false

variable {h x : ν} {w : Worker ν} {before rest : List ν} {walk : Walk ν} {replies : ν → Reply}

structure Walking (w : Worker ν) (h : ν) (before rest : List ν) (walk : Walk ν) : Prop where
  visited : walk.visited = before
  ring : Ring walk.worker.links h
    (before.filter (fun x => linked (walk.worker.connections x)) ++ rest)
  distinct : (before ++ rest).Nodup
  member : ∀ x ∈ rest, Member (w.connections x)
  untouched : ∀ x ∈ rest, walk.worker.connections x = w.connections x
  unfreed : walk.readFreed = false

theorem Channel.start (channel : Channel w h rest) : Walking w h [] rest ⟨w, [], false⟩ :=
  ⟨rfl, channel.ring, (List.nodup_cons.mp channel.ring.distinct).2, channel.member,
    fun _ _ => rfl, rfl⟩

variable [DecidableEq ν]

/-- A member that is not closed leaves the loop with a good link to the next one. -/
theorem Walking.served (walking : Walking w h before (x :: rest) walk)
    (stays : ¬ Closes message reply (w.connections x)) :
    let served := walk.served h x message reply
    Walking w h (before ++ [x]) rest served ∧
      (served.worker.connections x).websocket.poolDestroyed = 0 ∧
      served.worker.links.next x = rest.headD h := by
  intro served
  have distinct := walking.distinct
  have fresh : x ∉ before := by
    intro member
    exact (List.nodup_append.mp distinct).2.2 x member x List.mem_cons_self rfl
  have later : x ∉ rest := (List.nodup_cons.mp (List.nodup_append.mp distinct).2.1).1
  have untouched := walking.untouched x List.mem_cons_self
  have member := walking.member x List.mem_cons_self
  have result : served.worker.connections x =
      (websocketMessageHandler message reply (w.connections x)).1 := by
    rw [← untouched]
    exact Function.update_self _ _ _
  have links : served.worker.links =
      (websocketMessageHandler message reply (w.connections x)).2.apply h x walk.worker.links := by
    rw [← untouched]
    rfl
  have others : ∀ y, y ≠ x → served.worker.connections y = walk.worker.connections y :=
    fun y other => Function.update_of_ne other _ _
  have filtered : before.filter (fun y => linked (served.worker.connections y)) =
      before.filter (fun y => linked (walk.worker.connections y)) := by
    apply List.filter_congr
    intro y earlier
    rw [others y fun same => fresh (same ▸ earlier)]
  have walked (ring : Ring served.worker.links h
      ((before ++ [x]).filter (fun y => linked (served.worker.connections y)) ++ rest)) :
      Walking w h (before ++ [x]) rest served := by
    refine ⟨congrArg (· ++ [x]) walking.visited, ring, ?_, ?_, ?_, walking.unfreed⟩
    · simpa using distinct
    · intro y inside
      exact walking.member y (List.mem_cons_of_mem x inside)
    · intro y inside
      rw [others y fun same => later (same ▸ inside)]
      exact walking.untouched y (List.mem_cons_of_mem x inside)
  have handled := messageHandler_served message reply member
  generalize websocketMessageHandler message reply (w.connections x) = outcome at handled result links
  cases handled with
  | closed c' closes _ _ => exact (stays closes).elim
  | unlinked c' unlinks handedOver inQueue _ =>
    have gone : linked (served.worker.connections x) = false := by
      rw [result]
      simp [linked, inQueue]
    refine ⟨walked ?_, ?_, ?_⟩
    · rw [List.filter_append, filtered, List.filter_singleton, gone, links]
      simpa [QueueOp.apply] using queueRemove_ring walking.ring
    · rw [result]
      exact handedOver.record
    · rw [links]
      exact queueRemove_next walking.ring
  | kept c' member' _ =>
    refine ⟨walked ?_, ?_, ?_⟩
    · rw [List.filter_append, filtered, List.filter_singleton, result, member'.linked, links]
      simpa [QueueOp.apply] using walking.ring
    · rw [result]
      exact member'.handedOver.record
    · rw [links]
      exact walking.ring.next_member

/-- A member that is closed ends the walk with a read of its freed link. -/
theorem Walking.closed (walking : Walking w h before (x :: rest) walk)
    (closes : Closes message reply (w.connections x)) :
    0 < ((walk.served h x message reply).worker.connections x).websocket.poolDestroyed := by
  have result : (walk.served h x message reply).worker.connections x =
      (websocketMessageHandler message reply (w.connections x)).1 := by
    rw [← walking.untouched x List.mem_cons_self]
    exact Function.update_self _ _ _
  have handled := messageHandler_served message reply
    (walking.member x List.mem_cons_self)
  rw [result]
  generalize websocketMessageHandler message reply (w.connections x) = outcome at handled
  cases handled with
  | closed c' _ freed _ => exact freed ▸ Nat.one_pos
  | unlinked c' _ _ _ stays => exact (stays closes).elim
  | kept c' _ stays => exact (stays closes).elim

/-- The rest of the loop, by induction on the members still to come. -/
theorem broadcast_delivers : ∀ {rest before : List ν} {walk : Walk ν} {fuel : Nat},
    Walking w h before rest walk → h ∉ rest → rest.length < fuel →
      ∃ walk', broadcast h message replies fuel (rest.headD h) walk = some walk' ∧
        (Delivered h (before ++ rest) walk' ↔
          ∀ x ∈ rest, ¬ Closes message (replies x) (w.connections x))
  | [], before, walk, fuel + 1, walking, _, _ => by
    refine ⟨walk, by simp [broadcast], ?_⟩
    apply iff_of_true
    · rw [List.append_nil]
      refine ⟨walking.visited, ?_, walking.unfreed⟩
      simpa using walking.ring
    · exact fun x member => nomatch member
  | x :: rest, before, walk, fuel + 1, walking, headless, enough => by
    have other : x ≠ h := fun same => headless (same ▸ List.mem_cons_self)
    by_cases closes : Closes message (replies x) (w.connections x)
    · have freed := walking.closed closes
      refine ⟨{ walk.served h x message (replies x) with readFreed := true }, ?_, ?_⟩
      · rw [List.headD_cons, broadcast, if_neg other]
        exact if_pos freed
      · apply iff_of_false
        · intro delivered
          exact nomatch delivered.unfreed
        · intro stays
          exact stays x List.mem_cons_self closes
    · obtain ⟨walked, alive, next⟩ := walking.served closes
      have shorter : rest.length < fuel := Nat.lt_of_succ_lt_succ enough
      have headless' : h ∉ rest := fun member => headless (List.mem_cons_of_mem x member)
      obtain ⟨walk', ran, delivered⟩ := broadcast_delivers walked headless' shorter
      refine ⟨walk', ?_, ?_⟩
      · rw [List.headD_cons, broadcast, if_neg other, ← ran, ← next]
        exact if_neg (Nat.not_lt_of_le (le_of_eq alive))
      · rw [List.append_assoc, List.singleton_append] at delivered
        rw [delivered, List.forall_mem_cons]
        exact (and_iff_right closes).symm

/-- The loop returns, visits every member once in order, leaves the connections that are neither
unlinked nor closed in the queue and reads no freed link if and only if it closes no connection. -/
theorem broadcast_safe_iff (w : Worker ν) (h : ν) (members : List ν)
    (channel : Channel w h members) (message : List UInt8) (replies : ν → Reply) (fuel : Nat)
    (enough : members.length < fuel) :
    ∃ walk, processMessage h message replies fuel w = some walk ∧
      (Delivered h members walk ↔
        ∀ x ∈ members, ¬ Closes message (replies x) (w.connections x)) := by
  rw [processMessage, channel.ring.next_head]
  exact broadcast_delivers channel.start (List.nodup_cons.mp channel.ring.distinct).1 enough

def subscriber : Connection := finish .linked upgrading

def twoClients : Worker Nat where
  links := queueInsertTail 0 2 (queueInsertTail 0 1 (queueInit 0 ⟨id, id⟩))
  connections := fun _ => subscriber

theorem twoClients_channel : Channel twoClients 0 [1, 2] where
  ring := queueInsertTail_ring (queueInsertTail_ring queueInit_ring (by decide)) (by decide)
  member := fun _ _ => ⟨⟨rfl, rfl, rfl⟩, rfl⟩

def greetingFrame : List UInt8 := [129, 2, 104, 105]

/-- The first client takes half of the frame, the second one all of it. -/
theorem broadcast_safe_short :
    ∃ walk, processMessage 0 greetingFrame
        (fun x => ⟨.sent (if x = 1 then 2 else 4), true, .linked⟩) 3 twoClients = some walk ∧
      Delivered 0 [1, 2] walk := by
  obtain ⟨walk, ran, delivered⟩ := broadcast_safe_iff twoClients 0 [1, 2] twoClients_channel
    greetingFrame (fun x => ⟨.sent (if x = 1 then 2 else 4), true, .linked⟩) 3 (by decide)
  refine ⟨walk, ran, delivered.mpr ?_⟩
  intro x member
  rintro (late | ⟨-, failed | closed | unarmed⟩)
  · exact nomatch late
  · exact nomatch failed
  · have nothing : (if x = 1 then 2 else 4) = 0 := SendResult.sent.inj closed
    split at nothing <;> omega
  · exact nomatch unarmed.2

/-- The first client has gone: its connection is closed, and the loop goes on through the link
in its freed record. -/
theorem broadcast_reads_freed :
    Channel twoClients 0 [1, 2] ∧
      ∃ walk, processMessage 0 greetingFrame (fun _ => ⟨.error, true, .linked⟩) 3 twoClients =
          some walk ∧
        walk.visited = [1] ∧ walk.readFreed = true ∧ ¬ Delivered 0 [1, 2] walk := by
  refine ⟨twoClients_channel, _, rfl, rfl, rfl, ?_⟩
  intro delivered
  exact nomatch delivered.unfreed

end Ngx.Http
