import Ngx.CyclicLog
import Mathlib.Tactic.SplitIfs

/-! The shared-memory message ring. One producer process writes slots in index order; every
worker walks the slots along their `next` links and decides by the slot's id alone whether
to go on. A publish and a poll are each one step here; counters are 64-bit words. -/
namespace Ngx

def websocketMessageN : Nat := 1024

/-- `ngx_websocket_message_t`; `next` is the index of the slot pointed to. -/
structure WebsocketMessage where
  messageId : UInt64
  channelId : UInt64
  message : List UInt8
  messageLength : UInt64
  next : Nat
  deriving DecidableEq, Repr

/-- The mapping of `/dev/zero` before anything is stored in it. -/
def zeroMessage : WebsocketMessage := ⟨0, 0, [], 0, 0⟩

/-- `ngx_messages` with the producer's `ngx_message_index` and `ngx_message_id`. -/
structure MessageRing where
  messages : Nat → WebsocketMessage
  messageIndex : Nat
  messageId : UInt64

def setMessage (messages : Nat → WebsocketMessage) (i : Nat) (m : WebsocketMessage) :
    Nat → WebsocketMessage :=
  fun j => if j = i then m else messages j

/-- The `do … while(i)` loop of `ngx_create_shared_memory`, entered with `i` slots to link. -/
def linkMessages : (i m : Nat) → (Nat → WebsocketMessage) → Nat → WebsocketMessage
  | 0, _, messages => messages
  | i + 1, m, messages =>
    linkMessages i i (setMessage messages i { messages i with next := m })

def createSharedMemory : MessageRing :=
  ⟨linkMessages websocketMessageN 0 (fun _ => zeroMessage), 0, 1⟩

/-- The publishing part of `ngx_process_websocket_messages`; `frame` is what
`ngx_websocket_frame_encode` left in the slot. -/
def MessageRing.publish (r : MessageRing) (frame : List UInt8) : MessageRing :=
  let m := { r.messages r.messageIndex with
    messageId := r.messageId
    channelId := 1
    message := frame
    messageLength := .ofNat frame.length }
  let index := r.messageIndex + 1
  { messages := setMessage r.messages r.messageIndex m
    messageIndex := if index = websocketMessageN then 0 else index
    messageId := r.messageId + 1 }

/-- A worker's `ngx_websocket_message_send` and `ngx_websocket_message_id_sent`, with
whatever else the body of its polling loop works on. -/
structure Worker (σ : Type) where
  messageSend : Nat
  messageIdSent : UInt64
  clients : σ

def websocketInit {σ : Type} (clients : σ) : Worker σ := ⟨0, 0, clients⟩

/-- The loop of `ngx_websocket_process_messages`; `body` is what it does with one message. -/
def websocketProcessMessages {σ : Type} (r : MessageRing) (body : σ → WebsocketMessage → σ)
    (w : Worker σ) : Worker σ :=
  let m := r.messages w.messageSend
  if w.messageIdSent < m.messageId then
    websocketProcessMessages r body ⟨m.next, m.messageId, body w.clients m⟩
  else w
termination_by UInt64.size - w.messageIdSent.toNat
decreasing_by
  have newer := UInt64.lt_iff_toNat_lt.mp ‹_›
  have bound := UInt64.toNat_lt_size m.messageId
  change UInt64.size - m.messageId.toNat < _
  omega

theorem setMessage_same (messages : Nat → WebsocketMessage) (i : Nat) (m : WebsocketMessage) :
    setMessage messages i m i = m := by simp [setMessage]

theorem setMessage_other (messages : Nat → WebsocketMessage) (m : WebsocketMessage)
    {i j : Nat} (h : j ≠ i) : setMessage messages i m j = messages j := by
  simp [setMessage, h]

/-- The loop links slot `j` to slot `j + 1` and the last one to the slot it started with. -/
theorem linkMessages_next (i m : Nat) (messages : Nat → WebsocketMessage) (j : Nat) :
    (linkMessages i m messages j).next =
      if j < i then if j + 1 = i then m else j + 1 else (messages j).next := by
  induction i generalizing m messages with
  | zero => simp [linkMessages]
  | succ i ih =>
    rw [linkMessages, ih]
    rcases Nat.lt_trichotomy j i with below | rfl | above
    · split_ifs <;> omega
    · simp [setMessage_same]
    · rw [setMessage_other _ _ (by omega), if_neg (by omega), if_neg (by omega)]

theorem linkMessages_messageId (i m : Nat) (messages : Nat → WebsocketMessage) (j : Nat) :
    (linkMessages i m messages j).messageId = (messages j).messageId := by
  induction i generalizing m messages with
  | zero => rfl
  | succ i ih =>
    rw [linkMessages, ih]
    by_cases here : j = i
    · subst j; simp [setMessage_same]
    · rw [setMessage_other _ _ here]

structure Invariant (published : Nat) (r : MessageRing) {σ : Type} (w : Worker σ) : Prop where
  index : r.messageIndex = published % websocketMessageN
  id : r.messageId.toNat = (published + 1) % 2 ^ 64
  ids : ∀ cell < websocketMessageN,
    (r.messages cell).messageId.toNat = CyclicLog.stored websocketMessageN published cell
  links : ∀ cell < websocketMessageN,
    (r.messages cell).next = (cell + 1) % websocketMessageN
  cursor : w.messageSend = w.messageIdSent.toNat % websocketMessageN
  sent : w.messageIdSent.toNat ≤ published

theorem websocketMessageN_positive : 0 < websocketMessageN := by decide

theorem initial_invariant {σ : Type} (clients : σ) :
    Invariant 0 createSharedMemory (websocketInit clients) where
  index := rfl
  id := by decide
  ids cell bound := by simp [createSharedMemory, linkMessages_messageId, zeroMessage]
  links cell bound := by
    simp only [createSharedMemory, linkMessages_next, if_pos bound]
    split_ifs with last
    · simp [last]
    · exact (Nat.mod_eq_of_lt (by omega)).symm
  cursor := rfl
  sent := le_refl _

theorem publish_preserves {σ : Type} {published : Nat} {r : MessageRing} {w : Worker σ}
    (few : published + 1 < 2 ^ 64) (frame : List UInt8) (inv : Invariant published r w) :
    Invariant (published + 1) (r.publish frame) w where
  index := by
    have index := inv.index
    simp only [MessageRing.publish]
    split_ifs with wrapped
    · rw [index, websocketMessageN] at wrapped
      rw [websocketMessageN]; omega
    · rw [index, websocketMessageN] at wrapped ⊢
      omega
  id := by
    have id := inv.id
    simp only [MessageRing.publish, UInt64.toNat_add, UInt64.toNat_one]
    omega
  ids cell bound := by
    have id := inv.id
    rw [CyclicLog.stored_succ, ← inv.index]
    by_cases here : cell = r.messageIndex
    · subst here
      rw [if_pos rfl]
      simp only [MessageRing.publish, setMessage_same]
      omega
    · simp only [MessageRing.publish, setMessage_other _ _ here, if_neg here]
      exact inv.ids cell bound
  links cell bound := by
    by_cases here : cell = r.messageIndex
    · subst here
      simp only [MessageRing.publish, setMessage_same]
      exact inv.links _ bound
    · simp only [MessageRing.publish, setMessage_other _ _ here]
      exact inv.links cell bound
  cursor := inv.cursor
  sent := Nat.le_succ_of_le inv.sent

def MessageRing.slotOf (r : MessageRing) (j : Nat) : WebsocketMessage :=
  r.messages ((j - 1) % websocketMessageN)

section Poll

variable {σ : Type} {published : Nat} {r : MessageRing} {w : Worker σ}

theorem cursor_id (inv : Invariant published r w) :
    (r.messages w.messageSend).messageId.toNat =
      CyclicLog.stored websocketMessageN published
        (w.messageIdSent.toNat % websocketMessageN) := by
  rw [inv.cursor]
  exact inv.ids _ (Nat.mod_lt _ websocketMessageN_positive)

theorem loop_guard (inv : Invariant published r w) :
    w.messageIdSent < (r.messages w.messageSend).messageId ↔
      w.messageIdSent.toNat < published := by
  rw [UInt64.lt_iff_toNat_lt, cursor_id inv]
  exact CyclicLog.lt_stored_iff

/-- One turn of the loop keeps the invariant. -/
theorem turn_preserves (body : σ → WebsocketMessage → σ) (inv : Invariant published r w)
    (unread : w.messageIdSent.toNat < published) {m : WebsocketMessage}
    (found : r.messages w.messageSend = m) :
    Invariant published r (⟨m.next, m.messageId, body w.clients m⟩ : Worker σ) ∧
      m = r.slotOf m.messageId.toNat ∧ w.messageIdSent.toNat < m.messageId.toNat := by
  have newer := UInt64.lt_iff_toNat_lt.mp ((loop_guard inv).mpr unread)
  have id := cursor_id inv
  rw [found] at newer id
  have bound : w.messageSend < websocketMessageN := by
    rw [inv.cursor]; exact Nat.mod_lt _ websocketMessageN_positive
  have cell : (m.messageId.toNat - 1) % websocketMessageN = w.messageSend := by
    rw [inv.cursor, id]
    exact (CyclicLog.stored_positive_spec websocketMessageN_positive (by omega)).1
  have next : m.next = m.messageId.toNat % websocketMessageN := by
    rw [← found, inv.links _ bound, found, ← cell, Nat.mod_add_mod]
    congr 1; omega
  have le : m.messageId.toNat ≤ published := id ▸ CyclicLog.stored_le _ _ _
  exact ⟨{ inv with cursor := next, sent := le },
    by rw [MessageRing.slotOf, cell, found], newer⟩

/-- A poll takes the pending messages in order, each from its slot, and stops at the newest. -/
theorem websocketProcessMessages_eq (few : published < 2 ^ 64) (body : σ → WebsocketMessage → σ)
    (inv : Invariant published r w) :
    websocketProcessMessages r body w =
      ⟨published % websocketMessageN, .ofNat published,
        ((CyclicLog.pending websocketMessageN published w.messageIdSent.toNat).map
          r.slotOf).foldl body w.clients⟩ := by
  induction distance : published - w.messageIdSent.toNat using Nat.strong_induction_on
    generalizing w with
  | _ d ih =>
    rw [websocketProcessMessages]
    by_cases unread : w.messageIdSent.toNat < published
    · obtain ⟨next, slot, newer⟩ := turn_preserves body inv unread rfl
      have closer : published - (r.messages w.messageSend).messageId.toNat < d := by omega
      rw [if_pos ((loop_guard inv).mpr unread), ih _ closer next rfl,
        CyclicLog.pending_cons websocketMessageN_positive unread, ← cursor_id inv]
      simp only [List.map_cons, List.foldl_cons]
      rw [← slot]
    · have all : w.messageIdSent.toNat = published := by have := inv.sent; omega
      rw [if_neg (mt (loop_guard inv).mp unread), CyclicLog.pending_nil (by omega)]
      cases w with
      | mk send sent clients =>
        have cursor := inv.cursor
        simp only at cursor all
        subst all
        simp [cursor]

theorem poll_preserves (few : published < 2 ^ 64) (body : σ → WebsocketMessage → σ)
    (inv : Invariant published r w) :
    Invariant published r (websocketProcessMessages r body w) := by
  have newest : (UInt64.ofNat published).toNat = published :=
    UInt64.toNat_ofNat_of_lt' few
  rw [websocketProcessMessages_eq few body inv]
  exact { inv with cursor := by rw [newest], sent := newest.le }

/-- A message still kept is in its slot. -/
theorem slotOf_id (inv : Invariant published r w) {j : Nat}
    (kept : CyclicLog.Kept websocketMessageN published j) :
    (r.slotOf j).messageId.toNat = j := by
  rw [MessageRing.slotOf, inv.ids _ (Nat.mod_lt _ websocketMessageN_positive)]
  exact (CyclicLog.stored_eq_iff websocketMessageN_positive kept.1).mpr ⟨rfl, kept.2⟩

theorem cell_kept (inv : Invariant published r w) {cell : Nat} (bound : cell < websocketMessageN)
    (used : 0 < (r.messages cell).messageId.toNat) :
    CyclicLog.Kept websocketMessageN published (r.messages cell).messageId.toNat ∧
      r.messages cell = r.slotOf (r.messages cell).messageId.toNat := by
  have spec := (CyclicLog.stored_eq_iff websocketMessageN_positive used).mp (inv.ids cell bound).symm
  exact ⟨⟨used, spec.2⟩, by rw [MessageRing.slotOf, spec.1]⟩

theorem pending_ids (inv : Invariant published r w) (k : Nat) :
    ((CyclicLog.pending websocketMessageN published k).map r.slotOf).map
        (fun m => m.messageId.toNat) =
      CyclicLog.pending websocketMessageN published k := by
  rw [List.map_map]
  refine (List.map_congr_left fun j member => ?_).trans (List.map_id _)
  exact slotOf_id inv (CyclicLog.kept_of_pending websocketMessageN_positive member)

end Poll

end Ngx
