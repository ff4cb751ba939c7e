import Ngx.RingDelivery
import Ngx.PartialRuns
import Mathlib.Data.List.Nodup

/-! A publish as its single stores, in the order of the source, with polls between any two of
them. A worker decides by a slot's `message_id`, which is stored first. -/
namespace Ngx

open PartialRuns

/-- The next store of `ngx_process_websocket_messages`, of the frame's byte `i` for `message i`. -/
inductive Stage where
  | messageId
  | channelId
  | message (i : Nat)
  | messageLength
  | nextId
  | nextIndex
  deriving DecidableEq, Repr

def Stage.unfinished : Stage → Bool
  | .channelId | .message _ | .messageLength => true
  | _ => false

/-- The ring between two stores, with the frame that is being published, all messages begun so
far, the latest first, and a worker. -/
structure Publisher where
  ring : MessageRing
  frame : List UInt8
  stage : Stage
  begun : List (UInt64 × List UInt8)
  worker : Worker (List WebsocketMessage)

def Publisher.initial : Publisher :=
  ⟨createSharedMemory, [], .messageId, [], websocketInit []⟩

def MessageRing.modify (r : MessageRing) (f : WebsocketMessage → WebsocketMessage) : MessageRing :=
  { r with messages := setMessage r.messages r.messageIndex (f (r.messages r.messageIndex)) }

/-- A byte of the array `message`, of which the list has as much as was ever stored. -/
def storeByte (i : Nat) (byte : UInt8) (m : WebsocketMessage) : WebsocketMessage :=
  { m with message := m.message.take i ++ byte :: m.message.drop (i + 1) }

def MessageRing.advanceIndex (r : MessageRing) : MessageRing :=
  let index := r.messageIndex + 1
  { r with messageIndex := if index = websocketMessageN then 0 else index }

def Publisher.begin (s : Publisher) (frame : List UInt8) : Publisher :=
  { s with
    ring := s.ring.modify fun m => { m with messageId := s.ring.messageId }
    frame := frame
    stage := .channelId
    begun := (s.ring.messageId, frame) :: s.begun }

/-- Any further store; the last byte is the NUL that `ngx_websocket_frame_encode` appends. -/
def Publisher.store (s : Publisher) : Publisher :=
  match s.stage with
  | .messageId => s
  | .channelId =>
    { s with ring := s.ring.modify fun m => { m with channelId := 1 }, stage := .message 0 }
  | .message i =>
    { s with
      ring := s.ring.modify (storeByte i ((s.frame ++ [0]).getD i 0))
      stage := if i < s.frame.length then .message (i + 1) else .messageLength }
  | .messageLength =>
    { s with
      ring := s.ring.modify fun m => { m with messageLength := .ofNat s.frame.length }
      stage := .nextId }
  | .nextId =>
    { s with ring := { s.ring with messageId := s.ring.messageId + 1 }, stage := .nextIndex }
  | .nextIndex => { s with ring := s.ring.advanceIndex, stage := .messageId }

def Publisher.poll (s : Publisher) : Publisher :=
  { s with worker := websocketProcessMessages s.ring (fun taken m => taken ++ [m]) s.worker }

inductive PublishEvent where
  | publish (frame : List UInt8)
  | store
  | poll
  deriving DecidableEq, Repr

def PublishEvent.isPublish : PublishEvent → Bool
  | .publish _ => true
  | _ => false

def Publisher.step (s : Publisher) : PublishEvent → Publisher
  | .publish frame => if s.stage = .messageId then s.begin frame else s
  | .store => s.store
  | .poll => s.poll

def Publisher.move (s : Publisher) (event : PublishEvent) : Option Publisher := some (s.step event)

structure WebsocketMessage.Holds (m : WebsocketMessage) (frame : List UInt8) : Prop where
  channelId : m.channelId = 1
  messageLength : m.messageLength = .ofNat frame.length
  message : m.message.take frame.length = frame

/-- A slot, or what a worker took from it, shows the message that has its id. -/
def Publisher.Shows (s : Publisher) (m : WebsocketMessage) : Prop :=
  ∃ frame, (m.messageId, frame) ∈ s.begun ∧ m.Holds frame

def Publisher.Complete (s : Publisher) : Prop :=
  ∀ cell < websocketMessageN, s.worker.messageIdSent < (s.ring.messages cell).messageId →
    s.Shows (s.ring.messages cell)

def Publisher.TookComplete (s : Publisher) : Prop := ∀ m ∈ s.worker.clients, s.Shows m

/-- The id of the message that is being stored is one the worker would take, and the rest of
its slot is not yet that message. -/
structure Publisher.Premature (s : Publisher) : Prop where
  unfinished : s.stage.unfinished = true
  newer : s.worker.messageIdSent < (s.ring.messages s.ring.messageIndex).messageId
  other : ¬ (s.ring.messages s.ring.messageIndex).Holds s.frame

def PollsEarly (s : Publisher) (event : PublishEvent) : Prop := event = .poll ∧ s.Premature

def Begins (s : Publisher) (event : PublishEvent) : Prop :=
  event.isPublish = true ∧ s.stage = .messageId

def Publisher.settled (s : Publisher) : MessageRing :=
  match s.stage with
  | .messageId => s.ring
  | .nextIndex => s.ring.advanceIndex
  | _ => { s.ring with messageId := s.ring.messageId + 1 }.advanceIndex

def Stage.Written (frame : List UInt8) (m : WebsocketMessage) : Stage → Prop
  | .message i => m.channelId = 1 ∧ i ≤ frame.length ∧ m.message.take i = frame.take i
  | .messageLength => m.channelId = 1 ∧ m.message.take frame.length = frame
  | _ => True

structure Publisher.Invariant (s : Publisher) : Prop where
  ring : Ngx.Invariant s.begun.length s.settled s.worker
  ids : s.begun.map (fun message => message.1.toNat) = (List.range' 1 s.begun.length).reverse
  place : s.stage ≠ .messageId →
    0 < s.begun.length ∧ s.ring.messageIndex = (s.begun.length - 1) % websocketMessageN
  current : s.stage.unfinished = true →
    ((s.ring.messages s.ring.messageIndex).messageId, s.frame) ∈ s.begun ∧
      s.stage.Written s.frame (s.ring.messages s.ring.messageIndex)
  slots : ∀ cell < websocketMessageN, 0 < (s.ring.messages cell).messageId.toNat →
    cell = s.ring.messageIndex ∧ s.stage.unfinished = true ∨ s.Shows (s.ring.messages cell)

/-- The producer's counters and the ids and links of the slots are all the invariant of the
ring is about. -/
theorem Invariant.congr {σ : Type} {published : Nat} {r r' : MessageRing} {w : Worker σ}
    (inv : Invariant published r w) (index : r'.messageIndex = r.messageIndex)
    (id : r'.messageId = r.messageId)
    (same : ∀ cell, (r'.messages cell).messageId = (r.messages cell).messageId ∧
      (r'.messages cell).next = (r.messages cell).next) : Invariant published r' w where
  index := index ▸ inv.index
  id := id ▸ inv.id
  ids cell bound := by
    rw [(same cell).1]
    exact inv.ids cell bound
  links cell bound := by
    rw [(same cell).2]
    exact inv.links cell bound
  cursor := inv.cursor
  sent := inv.sent

section Stores

variable {s : Publisher} {f : WebsocketMessage → WebsocketMessage}

theorem modify_same (r : MessageRing) (f : WebsocketMessage → WebsocketMessage) :
    (r.modify f).messages r.messageIndex = f (r.messages r.messageIndex) :=
  setMessage_same _ _ _

theorem modify_other (r : MessageRing) (f : WebsocketMessage → WebsocketMessage) {cell : Nat}
    (other : cell ≠ r.messageIndex) : (r.modify f).messages cell = r.messages cell :=
  setMessage_other _ _ other

theorem settled_eq (started : s.stage ≠ .messageId) (counting : s.stage ≠ .nextIndex) :
    s.settled = { s.ring with messageId := s.ring.messageId + 1 }.advanceIndex := by
  rw [Publisher.settled]
  cases stage : s.stage with
  | messageId => exact (started stage).elim
  | nextIndex => exact (counting stage).elim
  | _ => rfl

theorem unfinished_stage (unfinished : s.stage.unfinished = true) :
    s.stage ≠ .messageId ∧ s.stage ≠ .nextIndex := by
  constructor <;>
  · intro stage
    rw [stage] at unfinished
    exact Bool.false_ne_true unfinished

theorem Publisher.Shows.later {s' : Publisher} {m : WebsocketMessage} (shows_m : s.Shows m)
    (later : ∀ message ∈ s.begun, message ∈ s'.begun) : s'.Shows m := by
  obtain ⟨frame, member, holds⟩ := shows_m
  exact ⟨frame, later _ member, holds⟩

/-- A store into the slot, after which it is either still unfinished or the whole message. -/
theorem Publisher.Invariant.write {stage : Stage} (inv : s.Invariant)
    (unfinished : s.stage.unfinished = true)
    (keeps : ∀ m, (f m).messageId = m.messageId ∧ (f m).next = m.next)
    (next : stage ≠ .messageId ∧ stage ≠ .nextIndex)
    (written : stage.unfinished = true → stage.Written s.frame
      (f (s.ring.messages s.ring.messageIndex)))
    (finished : stage.unfinished = false → (f (s.ring.messages s.ring.messageIndex)).Holds s.frame) :
    { s with ring := s.ring.modify f, stage := stage }.Invariant := by
  obtain ⟨started, counting⟩ := unfinished_stage unfinished
  obtain ⟨member, -⟩ := inv.current unfinished
  have same (cell : Nat) : ((s.ring.modify f).messages cell).messageId =
        (s.ring.messages cell).messageId ∧
      ((s.ring.modify f).messages cell).next = (s.ring.messages cell).next := by
    by_cases here : cell = s.ring.messageIndex
    · rw [here, modify_same]
      exact keeps _
    · rw [modify_other _ _ here]
      exact ⟨rfl, rfl⟩
  have slot : (s.ring.modify f).messages s.ring.messageIndex =
      f (s.ring.messages s.ring.messageIndex) := modify_same _ _
  have sameId : (f (s.ring.messages s.ring.messageIndex)).messageId =
      (s.ring.messages s.ring.messageIndex).messageId := (keeps _).1
  refine ⟨?_, inv.ids, fun _ => inv.place started, fun still => ?_, fun cell bound used => ?_⟩
  · rw [settled_eq next.1 next.2]
    have ring := inv.ring
    rw [settled_eq started counting] at ring
    exact ring.congr rfl rfl same
  · change ((((s.ring.modify f).messages s.ring.messageIndex).messageId, s.frame) ∈ s.begun ∧
      stage.Written s.frame ((s.ring.modify f).messages s.ring.messageIndex))
    rw [slot, sameId]
    exact ⟨member, written still⟩
  · by_cases here : cell = s.ring.messageIndex
    · cases still : stage.unfinished with
      | true => exact .inl ⟨here, rfl⟩
      | false =>
        refine .inr ⟨s.frame, ?_, ?_⟩
        · simp only [here, slot, sameId]
          exact member
        · simp only [here, slot]
          exact finished still
    · simp only [modify_other _ _ here] at used ⊢
      rcases inv.slots cell bound used with ⟨at_index, -⟩ | shown
      · exact (here at_index).elim
      · exact .inr (shown.later fun _ => id)

/-- Apart from the rest of the new slot, the ring is that of a whole publish. -/
theorem begin_settled (frame : List UInt8) (cell : Nat) :
    ((s.begin frame).settled.messages cell).messageId =
        ((s.ring.publish frame).messages cell).messageId ∧
      ((s.begin frame).settled.messages cell).next = ((s.ring.publish frame).messages cell).next := by
  change ((s.ring.modify fun m => { m with messageId := s.ring.messageId }).messages cell).messageId =
      _ ∧ ((s.ring.modify fun m => { m with messageId := s.ring.messageId }).messages cell).next = _
  by_cases here : cell = s.ring.messageIndex
  · rw [here, modify_same]
    simp only [MessageRing.publish, setMessage_same]
    exact ⟨trivial, trivial⟩
  · rw [modify_other _ _ here]
    simp only [MessageRing.publish, setMessage_other _ _ here]
    exact ⟨trivial, trivial⟩

theorem begin_preserves (frame : List UInt8) (few : s.begun.length + 1 < 2 ^ 64)
    (idle : s.stage = .messageId) (inv : s.Invariant) : (s.begin frame).Invariant := by
  have ring : Ngx.Invariant s.begun.length s.ring s.worker := by
    have ring := inv.ring
    rwa [Publisher.settled, idle] at ring
  have newId : s.ring.messageId.toNat = s.begun.length + 1 := by
    rw [ring.id, Nat.mod_eq_of_lt few]
  have slot : (s.begin frame).ring.messages s.ring.messageIndex =
      { s.ring.messages s.ring.messageIndex with messageId := s.ring.messageId } :=
    modify_same s.ring fun m => { m with messageId := s.ring.messageId }
  have others {cell : Nat} (other : cell ≠ s.ring.messageIndex) :
      (s.begin frame).ring.messages cell = s.ring.messages cell :=
    modify_other s.ring (fun m => { m with messageId := s.ring.messageId }) other
  constructor
  case ring => exact (publish_preserves few frame ring).congr rfl rfl (begin_settled frame)
  case ids =>
    simp only [Publisher.begin, List.map_cons, List.length_cons, newId, inv.ids]
    rw [List.range'_concat, List.reverse_append, Nat.one_mul, Nat.add_comm 1]
    rfl
  case place => exact fun _ => ⟨Nat.succ_pos _, ring.index⟩
  case current =>
    intro _
    change (((s.begin frame).ring.messages s.ring.messageIndex).messageId, frame) ∈ _ ∧ _
    rw [slot]
    exact ⟨List.mem_cons_self, trivial⟩
  case slots =>
    intro cell bound used
    by_cases here : cell = s.ring.messageIndex
    · exact .inl ⟨here, rfl⟩
    · rw [others here] at used ⊢
      rcases inv.slots cell bound used with ⟨-, unfinished⟩ | shown
      · rw [idle] at unfinished
        exact nomatch unfinished
      · exact .inr (shown.later fun _ => List.mem_cons_of_mem _)

theorem take_storeByte (i : Nat) (byte : UInt8) (m : WebsocketMessage) {frame : List UInt8}
    (before : m.message.take i = frame.take i) (same : frame[i]? = some byte) :
    (storeByte i byte m).message.take (i + 1) = frame.take (i + 1) := by
  have inside : i < frame.length := (List.getElem?_eq_some_iff.mp same).1
  have length : (m.message.take i).length = i := by
    rw [before, List.length_take]
    omega
  change (m.message.take i ++ byte :: m.message.drop (i + 1)).take (i + 1) = _
  rw [List.take_add_one, List.take_left' length, List.getElem?_append_right length.le, length,
    Nat.sub_self, List.getElem?_cons_zero, before, List.take_add_one, same]

theorem take_storeByte_before (i : Nat) (byte : UInt8) (m : WebsocketMessage) {frame : List UInt8}
    (before : m.message.take i = frame) (length : frame.length = i) :
    (storeByte i byte m).message.take i = frame := by
  have whole : (m.message.take i).length = i := by rw [before, length]
  change (m.message.take i ++ byte :: m.message.drop (i + 1)).take i = _
  rw [List.take_left' whole, before]

theorem store_preserves (inv : s.Invariant) : s.store.Invariant := by
  rw [Publisher.store]
  cases stage : s.stage with
  | messageId => exact inv
  | channelId =>
    have unfinished : s.stage.unfinished = true := by rw [stage]; rfl
    refine inv.write unfinished ?_ ⟨nofun, nofun⟩ ?_ nofun
    · exact fun _ => ⟨rfl, rfl⟩
    · exact fun _ => ⟨rfl, Nat.zero_le _, rfl⟩
  | message i =>
    have unfinished : s.stage.unfinished = true := by rw [stage]; rfl
    obtain ⟨-, written⟩ := inv.current unfinished
    rw [stage] at written
    obtain ⟨channel, le, before⟩ := written
    dsimp only
    split
    next inside =>
      have byte : s.frame[i]? = some ((s.frame ++ [0]).getD i 0) := by
        rw [List.getD_eq_getElem?_getD, List.getElem?_append_left inside,
          List.getElem?_eq_getElem inside, Option.getD_some]
      refine inv.write unfinished ?_ ⟨nofun, nofun⟩ ?_ nofun
      · exact fun _ => ⟨rfl, rfl⟩
      · exact fun _ => ⟨channel, inside, take_storeByte i _ _ before byte⟩
    next outside =>
      have last : i = s.frame.length := by omega
      subst last
      rw [List.take_length] at before
      refine inv.write unfinished ?_ ⟨nofun, nofun⟩ ?_ nofun
      · exact fun _ => ⟨rfl, rfl⟩
      · exact fun _ => ⟨channel, take_storeByte_before _ _ _ before rfl⟩
  | messageLength =>
    have unfinished : s.stage.unfinished = true := by rw [stage]; rfl
    obtain ⟨-, written⟩ := inv.current unfinished
    rw [stage] at written
    refine inv.write unfinished ?_ ⟨nofun, nofun⟩ nofun ?_
    · exact fun _ => ⟨rfl, rfl⟩
    · exact fun _ => ⟨written.1, rfl, written.2⟩
  | nextId =>
    have ring := inv.ring
    rw [Publisher.settled, stage] at ring
    refine ⟨ring, inv.ids, fun _ => inv.place (by simp [stage]), nofun, fun cell bound used => ?_⟩
    rcases inv.slots cell bound used with ⟨-, unfinished⟩ | shown
    · rw [stage] at unfinished
      exact nomatch unfinished
    · exact .inr (shown.later fun _ => id)
  | nextIndex =>
    have ring := inv.ring
    rw [Publisher.settled, stage] at ring
    refine ⟨ring, inv.ids, fun idle => (idle rfl).elim, nofun, fun cell bound used => ?_⟩
    rcases inv.slots cell bound used with ⟨-, unfinished⟩ | shown
    · rw [stage] at unfinished
      exact nomatch unfinished
    · exact .inr (shown.later fun _ => id)

def WebsocketMessage.shown (m : WebsocketMessage) : WebsocketMessage :=
  { m with message := m.message.take m.messageLength.toNat }

def MessageRing.shown (r : MessageRing) : MessageRing :=
  { r with messages := fun cell => (r.messages cell).shown }

theorem modify_modify (r : MessageRing) (f g : WebsocketMessage → WebsocketMessage) :
    (r.modify f).modify g = r.modify fun m => g (f m) := by
  simp only [MessageRing.modify, MessageRing.mk.injEq, setMessage_same, and_self, and_true]
  funext cell
  by_cases here : cell = r.messageIndex
  · rw [here, setMessage_same, setMessage_same]
  · rw [setMessage_other _ _ here, setMessage_other _ _ here, setMessage_other _ _ here]

/-- A slot with the first `i` of the bytes `written` stored over what it had. -/
def fillMessage (id : UInt64) (written : List UInt8) (i : Nat) (m : WebsocketMessage) :
    WebsocketMessage :=
  { m with messageId := id, channelId := 1, message := written.take i ++ m.message.drop i }

theorem storeByte_fillMessage {id : UInt64} {written : List UInt8} {i : Nat}
    (inside : i < written.length) (m : WebsocketMessage) :
    storeByte i (written.getD i 0) (fillMessage id written i m) =
      fillMessage id written (i + 1) m := by
  have length : (written.take i).length = i := List.length_take_of_le inside.le
  have rest : (written.take i ++ m.message.drop i).drop (i + 1) = m.message.drop (i + 1) := by
    rw [List.drop_append, length, List.drop_of_length_le (by omega), List.drop_drop,
      Nat.add_sub_cancel_left, List.nil_append]
  simp only [storeByte, fillMessage, List.take_left' length, rest, WebsocketMessage.mk.injEq,
    true_and, and_true]
  rw [List.take_add_one, List.getD_eq_getElem?_getD, List.getElem?_eq_getElem inside,
    List.append_assoc]
  rfl

/-- By induction on the bytes stored so far. -/
theorem store_message {frame : List UInt8} {i : Nat} (le : i ≤ frame.length) :
    Publisher.store^[i + 1] (s.begin frame) =
      { s with
        ring := s.ring.modify (fillMessage s.ring.messageId (frame ++ [0]) i)
        frame := frame
        stage := .message i
        begun := (s.ring.messageId, frame) :: s.begun } := by
  induction i with
  | zero =>
    rw [Function.iterate_one, Publisher.store, Publisher.begin]
    simp only [modify_modify]
    rfl
  | succ i ih =>
    have inside : i < (frame ++ [0]).length := by
      rw [List.length_append]
      omega
    rw [Function.iterate_succ_apply', ih (by omega), Publisher.store]
    simp only [modify_modify, storeByte_fillMessage inside, if_pos (show i < frame.length by omega)]

/-- The stores are together the publish that is one step elsewhere, up to bytes that the length
does not cover. -/
theorem stores_publish {frame : List UInt8} (short : frame.length < 2 ^ 64) :
    (Publisher.store^[frame.length + 5] (s.begin frame)).stage = .messageId ∧
      (Publisher.store^[frame.length + 5] (s.begin frame)).ring.shown =
        (s.ring.publish frame).shown := by
  have inside : frame.length < (frame ++ [0]).length := by simp
  have last : Publisher.store^[frame.length + 2] (s.begin frame) =
      { s with
        ring := s.ring.modify (fillMessage s.ring.messageId (frame ++ [0]) (frame.length + 1))
        frame := frame
        stage := .messageLength
        begun := (s.ring.messageId, frame) :: s.begun } := by
    rw [Function.iterate_succ_apply', store_message le_rfl, Publisher.store]
    simp only [modify_modify, storeByte_fillMessage inside, lt_irrefl, if_false]
  rw [show frame.length + 5 = 3 + (frame.length + 2) by omega, Function.iterate_add_apply, last]
  refine ⟨rfl, ?_⟩
  have length : (UInt64.ofNat frame.length).toNat = frame.length := UInt64.toNat_ofNat_of_lt' short
  have whole : (frame ++ [0]).take (frame.length + 1) = frame ++ [0] :=
    List.take_of_length_le (by simp)
  rw [MessageRing.shown, MessageRing.shown, MessageRing.mk.injEq]
  refine ⟨funext fun cell => ?_, rfl, rfl⟩
  change (((s.ring.modify (fillMessage s.ring.messageId (frame ++ [0]) (frame.length + 1))).modify
    fun m => { m with messageLength := .ofNat frame.length }).messages cell).shown = _
  rw [modify_modify]
  by_cases here : cell = s.ring.messageIndex
  · rw [here, modify_same]
    simp only [MessageRing.publish, setMessage_same, WebsocketMessage.shown, fillMessage, length,
      whole, List.append_assoc, List.take_left, List.take_length]
  · rw [modify_other _ _ here]
    simp only [MessageRing.publish, setMessage_other _ _ here]

theorem settled_messages : s.settled.messages = s.ring.messages := by
  rw [Publisher.settled]
  cases s.stage <;> rfl

/-- A poll reads the slots and nothing else of the producer. -/
theorem websocketProcessMessages_messages {σ : Type} {r r' : MessageRing}
    (same : r.messages = r'.messages) (body : σ → WebsocketMessage → σ) (w : Worker σ) :
    websocketProcessMessages r body w = websocketProcessMessages r' body w := by
  induction w using websocketProcessMessages.induct r body with
  | case1 w m newer ih =>
    rw [websocketProcessMessages, websocketProcessMessages.eq_1 r', ← same, if_pos newer,
      if_pos newer]
    exact ih
  | case2 w m old =>
    rw [websocketProcessMessages, websocketProcessMessages.eq_1 r', ← same, if_neg old, if_neg old]

theorem publisher_poll_preserves (few : s.begun.length < 2 ^ 64) (inv : s.Invariant) :
    s.poll.Invariant := by
  refine ⟨?_, inv.ids, inv.place, inv.current, inv.slots⟩
  change Ngx.Invariant s.begun.length s.settled (websocketProcessMessages s.ring _ s.worker)
  rw [websocketProcessMessages_messages settled_messages.symm]
  exact poll_preserves few _ inv.ring

def Publisher.taken (s : Publisher) : List WebsocketMessage :=
  (CyclicLog.pending websocketMessageN s.begun.length s.worker.messageIdSent.toNat).map
    s.settled.slotOf

theorem poll_clients (few : s.begun.length < 2 ^ 64) (inv : s.Invariant) :
    s.poll.worker.clients = s.worker.clients ++ s.taken := by
  change (websocketProcessMessages s.ring _ s.worker).clients = _
  rw [websocketProcessMessages_messages settled_messages.symm,
    websocketProcessMessages_eq few _ inv.ring, foldl_concat]
  rfl

theorem mem_taken (inv : s.Invariant) {m : WebsocketMessage} (member : m ∈ s.taken) :
    ∃ cell < websocketMessageN, s.ring.messages cell = m ∧
      s.worker.messageIdSent < m.messageId := by
  obtain ⟨j, pending, rfl⟩ := List.mem_map.mp member
  obtain ⟨unread, first, -⟩ := CyclicLog.mem_pending_iff.mp pending
  have kept := CyclicLog.kept_of_pending websocketMessageN_positive pending
  have newer := (CyclicLog.lt_stored_iff (n := websocketMessageN)).mpr unread
  refine ⟨(j - 1) % websocketMessageN, Nat.mod_lt _ websocketMessageN_positive, ?_, ?_⟩
  · rw [MessageRing.slotOf, settled_messages]
  · rw [UInt64.lt_iff_toNat_lt, slotOf_id inv.ring kept]
    exact newer.trans_le first

/-- The slot that is being stored has the newest id. -/
theorem current_newest (inv : s.Invariant) (unfinished : s.stage.unfinished = true) :
    (s.ring.messages s.ring.messageIndex).messageId.toNat = s.begun.length := by
  obtain ⟨some, place⟩ := inv.place (unfinished_stage unfinished).1
  have ids := inv.ring.ids s.ring.messageIndex (place ▸ Nat.mod_lt _ websocketMessageN_positive)
  rw [settled_messages] at ids
  rw [ids, CyclicLog.stored_eq_iff websocketMessageN_positive some]
  exact ⟨place.symm, le_refl _, Nat.lt_add_of_pos_right websocketMessageN_positive⟩

theorem current_taken (inv : s.Invariant) (premature : s.Premature) :
    s.ring.messages s.ring.messageIndex ∈ s.taken := by
  have newest := current_newest inv premature.unfinished
  have newer := UInt64.lt_iff_toNat_lt.mp premature.newer
  rw [newest] at newer
  refine List.mem_map.mpr ⟨s.begun.length, ?_, ?_⟩
  · exact CyclicLog.mem_pending_iff.mpr ⟨newer, CyclicLog.stored_le _ _ _, le_refl _⟩
  · rw [MessageRing.slotOf, settled_messages,
      ← (inv.place (unfinished_stage premature.unfinished).1).2]

/-- No two messages begun have one id. -/
theorem begun_unique (inv : s.Invariant) {id : UInt64} {frame frame' : List UInt8}
    (member : (id, frame) ∈ s.begun) (member' : (id, frame') ∈ s.begun) : frame = frame' := by
  have nodup : (s.begun.map fun message => message.1.toNat).Nodup := by
    rw [inv.ids, List.nodup_reverse]
    exact List.nodup_range'
  have eq := List.inj_on_of_nodup_map nodup member member' rfl
  exact (Prod.mk.inj eq).2

/-- The slot that is being stored is the only one that can show something else. -/
theorem shows_or_current (inv : s.Invariant) {cell : Nat} (bound : cell < websocketMessageN)
    (newer : s.worker.messageIdSent < (s.ring.messages cell).messageId)
    (ready : ¬ s.Premature) : s.Shows (s.ring.messages cell) := by
  have used : 0 < (s.ring.messages cell).messageId.toNat :=
    Nat.zero_lt_of_lt (UInt64.lt_iff_toNat_lt.mp newer)
  rcases inv.slots cell bound used with ⟨rfl, unfinished⟩ | shown
  · by_cases holds : (s.ring.messages s.ring.messageIndex).Holds s.frame
    · exact ⟨s.frame, (inv.current unfinished).1, holds⟩
    · exact (ready ⟨unfinished, newer, holds⟩).elim
  · exact shown

theorem premature_hides (inv : s.Invariant) (premature : s.Premature) :
    ¬ s.Shows (s.ring.messages s.ring.messageIndex) := by
  rintro ⟨frame, member, holds⟩
  have same := begun_unique inv member (inv.current premature.unfinished).1
  exact premature.other (same ▸ holds)

/-- In a reachable state all visible slots are complete unless the one being stored is not. -/
theorem complete_iff (inv : s.Invariant) : s.Complete ↔ ¬ s.Premature := by
  constructor
  · intro complete premature
    have place := (inv.place (unfinished_stage premature.unfinished).1).2
    have bound : s.ring.messageIndex < websocketMessageN :=
      place ▸ Nat.mod_lt _ websocketMessageN_positive
    exact premature_hides inv premature (complete _ bound premature.newer)
  · exact fun ready cell bound newer => shows_or_current inv bound newer ready

end Stores

theorem publisher_initial_invariant : Publisher.initial.Invariant where
  ring := initial_invariant []
  ids := rfl
  place idle := (idle rfl).elim
  current unfinished := nomatch unfinished
  slots cell bound used := by
    simp [Publisher.initial, createSharedMemory, linkMessages_messageId, zeroMessage] at used

/-- The ids do not run out in what is left of the run, and all that was taken is right. -/
structure Publisher.Sound (s : Publisher) (events : List PublishEvent) : Prop where
  invariant : s.Invariant
  few : s.begun.length + events.countP PublishEvent.isPublish < 2 ^ 64
  took : s.TookComplete

theorem takes_guarded :
    PartialRuns.GuardedAlong Publisher.move Publisher.TookComplete Publisher.Sound PollsEarly where
  holds s events sound := sound.took
  preserves s event events s' sound good moved := by
    obtain ⟨inv, few, took⟩ := sound
    cases Option.some.inj moved
    cases event with
    | publish frame =>
      rw [List.countP_cons_of_pos rfl] at few
      rw [Publisher.step]
      split
      next idle =>
        refine ⟨begin_preserves frame (by omega) idle inv, ?_, fun m member => ?_⟩
        · change s.begun.length + 1 + _ < _
          omega
        · exact (took m member).later fun _ => List.mem_cons_of_mem _
      next busy => exact ⟨inv, by omega, took⟩
    | store =>
      rw [List.countP_cons_of_neg Bool.false_ne_true] at few
      have same : s.store.begun = s.begun ∧ s.store.worker = s.worker := by
        rw [Publisher.store]
        cases s.stage <;> exact ⟨rfl, rfl⟩
      refine ⟨store_preserves inv, by rw [Publisher.step, same.1]; exact few, fun m member => ?_⟩
      rw [Publisher.step, same.2] at member
      exact (took m member).later fun _ old => same.1 ▸ old
    | poll =>
      rw [List.countP_cons_of_neg Bool.false_ne_true] at few
      have enough : s.begun.length < 2 ^ 64 := by omega
      refine ⟨publisher_poll_preserves enough inv, few, fun m member => ?_⟩
      rw [Publisher.step, poll_clients enough inv] at member
      rcases List.mem_append.mp member with old | new
      · exact took m old
      · obtain ⟨cell, bound, rfl, newer⟩ := mem_taken inv new
        exact shows_or_current inv bound newer fun premature => good ⟨rfl, premature⟩
  breaks s event events sound bad := by
    obtain ⟨inv, few, -⟩ := sound
    obtain ⟨rfl, premature⟩ := bad
    refine ⟨s.poll, rfl, fun took => ?_⟩
    refine premature_hides inv premature (took _ ?_)
    rw [poll_clients (by omega) inv]
    exact List.mem_append_right _ (current_taken inv premature)

/-- The channel of a slot that was never stored to. -/
theorem linkMessages_channelId (i m : Nat) (messages : Nat → WebsocketMessage) (j : Nat) :
    (linkMessages i m messages j).channelId = (messages j).channelId := by
  induction i generalizing m messages with
  | zero => rfl
  | succ i ih =>
    rw [linkMessages, ih]
    by_cases here : j = i
    · rw [here, setMessage_same]
    · rw [setMessage_other _ _ here]

theorem initial_poll : Publisher.initial.poll = Publisher.initial := by
  have nothing : ¬ (0 : UInt64) < (createSharedMemory.messages 0).messageId := by
    rw [createSharedMemory, linkMessages_messageId]
    decide
  rw [Publisher.poll, websocketProcessMessages]
  exact congrArg (fun worker => { Publisher.initial with worker := worker }) (if_neg nothing)

/-- The first store of a message makes its slot visible while the rest is still that of before. -/
theorem first_store_incomplete {s : Publisher} (frame : List UInt8)
    (bound : s.ring.messageIndex < websocketMessageN)
    (newer : s.worker.messageIdSent < s.ring.messageId)
    (unused : (s.ring.messages s.ring.messageIndex).channelId = 0) :
    ¬ (s.begin frame).Complete := by
  intro complete
  have slot : (s.begin frame).ring.messages s.ring.messageIndex =
      { s.ring.messages s.ring.messageIndex with messageId := s.ring.messageId } :=
    modify_same s.ring fun m => { m with messageId := s.ring.messageId }
  have visible := complete s.ring.messageIndex bound
  rw [slot] at visible
  obtain ⟨_, -, holds⟩ := visible newer
  have channel := holds.channelId
  rw [unused] at channel
  exact absurd channel (by decide)

theorem initial_unused (cell : Nat) : (Publisher.initial.ring.messages cell).channelId = 0 := by
  rw [Publisher.initial, createSharedMemory, linkMessages_channelId]
  rfl

theorem visible_guarded :
    PartialRuns.Guarded Publisher.move Publisher.Complete (· = Publisher.initial)
      (fun _ event => event.isPublish = true) where
  holds := by
    rintro _ rfl
    exact (complete_iff publisher_initial_invariant).mpr fun premature =>
      Bool.false_ne_true premature.unfinished
  preserves := by
    rintro _ event s' rfl quiet moved
    cases Option.some.inj moved
    cases event with
    | publish frame => exact (quiet rfl).elim
    | store => rfl
    | poll => exact initial_poll
  breaks := by
    rintro _ event rfl publishes
    cases event with
    | publish frame => exact ⟨_, rfl, first_store_incomplete frame (by decide) (by decide) (initial_unused _)⟩
    | store => exact (Bool.false_ne_true publishes).elim
    | poll => exact (Bool.false_ne_true publishes).elim

/-- Visible slots are complete in all states only where nothing is ever published; what the
worker takes is complete unless it polls while a slot that it would take is being stored. -/
theorem visible_slot_is_complete (events : List PublishEvent) :
    (Throughout Publisher.move Publisher.Complete Publisher.initial events ↔
      ∀ event ∈ events, event.isPublish = false) ∧
    (events.countP PublishEvent.isPublish < 2 ^ 64 →
      (Throughout Publisher.move Publisher.TookComplete Publisher.initial events ↔
        Avoids Publisher.move PollsEarly Publisher.initial events)) := by
  constructor
  · rw [visible_guarded.throughout_iff rfl, avoids_event_iff fun _ _ => rfl]
    simp only [Bool.not_eq_true]
  · intro few
    have fresh : Publisher.initial.begun.length = 0 := rfl
    exact takes_guarded.throughout_iff ⟨publisher_initial_invariant, by omega, nofun⟩

/-- Only polls count: up to the next one a run may be taken to its state. -/
theorem avoids_early_append (s : Publisher) (events rest : List PublishEvent)
    (unpolled : .poll ∉ events) :
    Avoids Publisher.move PollsEarly s (events ++ rest) ↔
      Avoids Publisher.move PollsEarly (events.foldl Publisher.step s) rest := by
  induction events generalizing s with
  | nil => rfl
  | cons event events ih =>
    rw [List.mem_cons, not_or] at unpolled
    rw [List.foldl_cons, ← ih (s.step event) unpolled.2]
    constructor
    · exact fun avoids => avoids.2 _ rfl
    · intro avoids
      refine ⟨fun early => unpolled.1 early.1.symm, fun s' moved => ?_⟩
      cases Option.some.inj moved
      exact avoids

/-- The text frame of "a", published with all its stores before a worker looks. -/
theorem visible_slot_is_complete_published :
    Throughout Publisher.move Publisher.TookComplete Publisher.initial
      ((.publish [129, 1, 97] :: List.replicate 8 .store) ++ [.poll]) := by
  refine ((visible_slot_is_complete _).2 (by decide)).mpr ?_
  rw [avoids_early_append _ _ _ (by decide)]
  have through : ((PublishEvent.publish [129, 1, 97] :: List.replicate 8 .store).foldl
      Publisher.step Publisher.initial).stage = .messageId := by decide
  refine ⟨fun early => ?_, fun _ _ => trivial⟩
  have unfinished := early.2.unfinished
  rw [through] at unfinished
  exact Bool.false_ne_true unfinished

/-- The text frame of "a": its slot shows up with channel zero, and the worker takes that. -/
theorem visible_slot_is_incomplete :
    ¬ Throughout Publisher.move Publisher.Complete Publisher.initial [.publish [129, 1, 97]] ∧
      ¬ Throughout Publisher.move Publisher.TookComplete Publisher.initial
        [.publish [129, 1, 97], .poll] := by
  have hidden : ¬ (Publisher.initial.begin [129, 1, 97]).Complete :=
    first_store_incomplete _ (by decide) (by decide) (initial_unused _)
  have inv : (Publisher.initial.begin [129, 1, 97]).Invariant :=
    begin_preserves _ (by decide) rfl publisher_initial_invariant
  constructor
  · exact fun complete => hidden (complete.2 _ rfl)
  · intro took
    have premature : (Publisher.initial.begin [129, 1, 97]).Premature := by
      by_contra ready
      exact hidden ((complete_iff inv).mpr ready)
    have broken : (Publisher.initial.begin [129, 1, 97]).poll.TookComplete := (took.2 _ rfl).2 _ rfl
    refine premature_hides inv premature (broken _ ?_)
    rw [poll_clients (by decide) inv]
    exact List.mem_append_right _ (current_taken inv premature)

end Ngx
