import Ngx.MessageRing

/-! What a worker takes from the ring over runs of publishes and polls in any order.
Message `j` is the one published `j`-th; as long as fewer than 2^64 were published that is
also its id. -/
namespace Ngx

inductive Action where
  | publish (frame : List UInt8)
  | poll
  deriving DecidableEq, Repr

structure System where
  ring : MessageRing
  worker : Worker (List WebsocketMessage)

def System.initial : System := ⟨createSharedMemory, websocketInit []⟩

def System.step (s : System) : Action → System
  | .publish frame => { s with ring := s.ring.publish frame }
  | .poll => { s with
      worker := websocketProcessMessages s.ring (fun taken m => taken ++ [m]) s.worker }

def System.run (actions : List Action) : System := actions.foldl System.step .initial

def Action.isPublish : Action → Bool
  | .publish _ => true
  | .poll => false

def publishes (actions : List Action) : Nat := actions.countP Action.isPublish

def System.takenIds (s : System) : List Nat :=
  s.worker.clients.map (fun m => m.messageId.toNat)

def System.taken (s : System) : Nat := s.worker.clients.length

@[simp] theorem takenIds_length (s : System) : s.takenIds.length = s.taken := by
  simp [System.takenIds, System.taken]

@[simp] theorem run_concat (actions : List Action) (a : Action) :
    System.run (actions ++ [a]) = (System.run actions).step a := by
  simp [System.run]

@[simp] theorem publishes_publish (actions : List Action) (frame : List UInt8) :
    publishes (actions ++ [.publish frame]) = publishes actions + 1 := by
  simp [publishes, Action.isPublish]

@[simp] theorem publishes_poll (actions : List Action) :
    publishes (actions ++ [.poll]) = publishes actions := by
  simp [publishes, Action.isPublish]

theorem run_invariant (actions : List Action) (few : publishes actions < 2 ^ 64) :
    Invariant (publishes actions) (System.run actions).ring (System.run actions).worker := by
  induction actions using List.reverseRecOn with
  | nil => exact initial_invariant []
  | append_singleton actions a ih =>
    cases a with
    | publish frame =>
      rw [publishes_publish] at few ⊢
      rw [run_concat]
      exact publish_preserves few frame (ih (by omega))
    | poll =>
      rw [publishes_poll] at few ⊢
      rw [run_concat]
      exact poll_preserves few _ (ih few)

theorem foldl_concat (log messages : List WebsocketMessage) :
    messages.foldl (fun taken m => taken ++ [m]) log = log ++ messages := by
  induction messages generalizing log with
  | nil => simp
  | cons m messages ih => simp [ih]

/-- The worker after a poll: its log grows by the pending messages. -/
theorem step_poll (actions : List Action) (few : publishes actions < 2 ^ 64) :
    ((System.run actions).step .poll).worker =
      ⟨publishes actions % websocketMessageN, .ofNat (publishes actions),
        (System.run actions).worker.clients ++
          (CyclicLog.pending websocketMessageN (publishes actions)
            (System.run actions).worker.messageIdSent.toNat).map (System.run actions).ring.slotOf⟩ := by
  have inv := run_invariant actions few
  simp only [System.step]
  rw [websocketProcessMessages_eq few _ inv, foldl_concat]

def NeverLapped (actions : List Action) : Prop :=
  ∀ before, before <+: actions →
    publishes before ≤ (System.run before).taken + websocketMessageN

/-- The ids taken are 1, 2, …, and every poll takes all that was published and stops with
the cursor at the producer's slot. -/
def TakenInOrder (actions : List Action) : Prop :=
  (System.run actions).takenIds = List.range' 1 (System.run actions).taken ∧
  ∀ before, before ++ [.poll] <+: actions →
    (System.run (before ++ [.poll])).taken = publishes before ∧
    (System.run (before ++ [.poll])).worker.messageSend =
      (System.run before).ring.messageIndex

theorem NeverLapped.of_prefix {before actions : List Action} (h : NeverLapped actions)
    (le : before <+: actions) : NeverLapped before :=
  fun earlier le' => h earlier (le'.trans le)

/-- Without lapping the log is exactly the ids up to the last one sent. -/
theorem takenIds_eq (actions : List Action) (few : publishes actions < 2 ^ 64)
    (near : NeverLapped actions) :
    (System.run actions).takenIds =
      List.range' 1 (System.run actions).worker.messageIdSent.toNat := by
  induction actions using List.reverseRecOn with
  | nil => rfl
  | append_singleton actions a ih =>
    have shorter := near.of_prefix (List.prefix_append actions [a])
    cases a with
    | publish frame =>
      rw [publishes_publish] at few
      rw [run_concat]
      exact ih (by omega) shorter
    | poll =>
      rw [publishes_poll] at few
      have inv := run_invariant actions few
      have log := ih few shorter
      have count : (System.run actions).taken =
          (System.run actions).worker.messageIdSent.toNat := by
        rw [← takenIds_length, log, List.length_range']
      have close := shorter actions (List.prefix_refl _)
      rw [run_concat, System.takenIds, step_poll actions few, List.map_append, pending_ids inv,
        CyclicLog.pending_of_near websocketMessageN_positive (by omega), UInt64.toNat_ofNat_of_lt' few]
      change (System.run actions).takenIds ++ _ = _
      rw [log, Nat.add_comm, List.range'_append_1]
      congr 1
      have := inv.sent
      omega

theorem taken_eq (actions : List Action) (few : publishes actions < 2 ^ 64)
    (near : NeverLapped actions) :
    (System.run actions).taken = (System.run actions).worker.messageIdSent.toNat := by
  rw [← takenIds_length, takenIds_eq actions few near, List.length_range']

theorem publishes_mono {before actions : List Action} (le : before <+: actions) :
    publishes before ≤ publishes actions :=
  le.sublist.countP_le

/-- Exactly once and in order, for every interleaving in which the worker keeps up to
within one ring and the 64-bit ids have not run out. -/
theorem ring_delivers_in_order (actions : List Action) (few : publishes actions < 2 ^ 64)
    (near : NeverLapped actions) : TakenInOrder actions := by
  refine ⟨?_, fun before le => ?_⟩
  · rw [taken_eq actions few near]
    exact takenIds_eq actions few near
  · have fewBefore := (publishes_mono le).trans_lt few
    have sent := taken_eq _ fewBefore (near.of_prefix le)
    rw [publishes_poll] at fewBefore
    have inv := run_invariant before fewBefore
    rw [run_concat] at sent ⊢
    rw [sent, step_poll before fewBefore, inv.index]
    exact ⟨UInt64.toNat_ofNat_of_lt' fewBefore, rfl⟩

def burst (n : Nat) : List Action := List.replicate n (.publish [42])

theorem publishes_burst (n : Nat) : publishes (burst n) = n := by
  induction n with
  | zero => rfl
  | succ n ih => rw [burst, List.replicate_succ', publishes_publish]; exact congrArg (· + 1) ih

theorem burst_worker (n : Nat) : (System.run (burst n)).worker = websocketInit [] := by
  induction n with
  | zero => rfl
  | succ n ih => rw [burst, List.replicate_succ', run_concat]; exact ih

/-- The state with all slots unread is reached and read out. -/
theorem ring_delivers_full_ring : TakenInOrder (burst 1024 ++ [.poll]) := by
  have count : publishes (burst 1024 ++ [.poll]) = 1024 := by
    rw [publishes_poll, publishes_burst]
  refine ring_delivers_in_order _ (by rw [count]; decide) fun before le => ?_
  have := publishes_mono le
  rw [count] at this
  exact this.trans (Nat.le_add_left _ _)

def paced : Nat → List Action
  | 0 => []
  | n + 1 => paced n ++ [.publish []] ++ [.poll]

@[simp] theorem publishes_paced (n : Nat) : publishes (paced n) = n := by
  induction n with
  | zero => rfl
  | succ n ih => rw [paced, publishes_poll, publishes_publish, ih]

/-- While the ids last, a paced worker has taken every message. -/
theorem paced_sent (n : Nat) (few : n < 2 ^ 64) :
    (System.run (paced n)).worker.messageIdSent.toNat = n := by
  cases n with
  | zero => rfl
  | succ n =>
    have count : publishes (paced n ++ [.publish []]) = n + 1 := by simp
    rw [paced, run_concat, step_poll _ (by omega), count]
    exact UInt64.toNat_ofNat_of_lt' few

theorem paced_taken_step (n : Nat) (few : n + 1 < 2 ^ 64) :
    (System.run (paced (n + 1))).taken = (System.run (paced n)).taken + 1 := by
  have count : publishes (paced n ++ [.publish []]) = n + 1 := by simp
  have sent := paced_sent n (by omega)
  have behind : (System.run (paced n ++ [.publish []])).worker.messageIdSent.toNat = n := by
    rw [run_concat]; exact sent
  rw [paced, run_concat, System.taken, step_poll _ (by omega), count, behind,
    CyclicLog.pending_of_near websocketMessageN_positive (by simp [websocketMessageN])]
  simp only [List.length_append, List.length_map, List.length_range']
  rw [run_concat]
  simp only [System.step, System.taken]
  omega

theorem paced_taken (n : Nat) (few : n < 2 ^ 64) : (System.run (paced n)).taken = n := by
  induction n with
  | zero => rfl
  | succ n ih => rw [paced_taken_step n few, ih (by omega)]

/-- With the counter run out, the next message gets id 0 and the poll passes it over. -/
theorem paced_taken_wrapped (n : Nat) (last : n + 1 = 2 ^ 64) :
    (System.run (paced (n + 1))).taken = n := by
  have count : publishes (paced n) = n := publishes_paced n
  have inv := run_invariant (paced n) (by omega)
  have sent := paced_sent n (by omega)
  have taken := paced_taken n (by omega)
  rw [paced, run_concat, run_concat]
  generalize System.run (paced n) = s at *
  have cursor : s.worker.messageSend = s.ring.messageIndex := by
    rw [inv.cursor, inv.index, sent, count]
  have zero : s.ring.messageId.toNat = 0 := by rw [inv.id, count]; omega
  have stays : (s.step (.publish [])).step .poll = s.step (.publish []) := by
    simp only [System.step]
    rw [websocketProcessMessages, if_neg]
    rw [UInt64.lt_iff_toNat_lt, cursor]
    simp [MessageRing.publish, setMessage_same, zero]
  rw [stays]
  exact taken

theorem paced_neverLapped (n : Nat) (few : n ≤ 2 ^ 64) : NeverLapped (paced n) := by
  have ring : 1 < websocketMessageN := by decide
  induction n with
  | zero =>
    intro before le
    rw [List.prefix_nil.mp le]
    exact Nat.zero_le _
  | succ n ih =>
    have taken := paced_taken n (by omega)
    intro before le
    rw [paced, List.prefix_concat_iff, List.prefix_concat_iff] at le
    rcases le with rfl | rfl | le
    · rw [publishes_poll, publishes_publish, publishes_paced]
      change n + 1 ≤ (System.run (paced (n + 1))).taken + websocketMessageN
      rcases Nat.lt_or_ge (n + 1) (2 ^ 64) with few | last
      · rw [paced_taken_step n few]; omega
      · rw [paced_taken_wrapped n (by omega)]; omega
    · rw [publishes_publish, publishes_paced, run_concat]
      change n + 1 ≤ (System.run (paced n)).taken + websocketMessageN
      omega
    · exact ih (by omega) before le

/-- One message after another for 2^64 messages: the last poll misses the newest one. -/
theorem ring_ids_run_out : NeverLapped (paced (2 ^ 64)) ∧ ¬ TakenInOrder (paced (2 ^ 64)) := by
  refine ⟨paced_neverLapped _ (le_refl _), fun inOrder => ?_⟩
  obtain ⟨n, last⟩ : ∃ n, n + 1 = 2 ^ 64 := ⟨2 ^ 64 - 1, by omega⟩
  rw [← last] at inOrder
  have all := (inOrder.2 (paced n ++ [.publish []]) (List.prefix_refl _)).1
  change (System.run (paced (n + 1))).taken = _ at all
  rw [paced_taken_wrapped n last, publishes_publish, publishes_paced] at all
  omega

def System.polled (s : System) : List WebsocketMessage :=
  (s.step .poll).worker.clients.drop s.taken

/-- The next poll takes, in increasing order, every newer message still in the ring. -/
def DeliversAllKept (s : System) : Prop :=
  (s.polled.map (fun m => m.messageId.toNat)).Pairwise (· < ·) ∧
  ∀ cell < websocketMessageN,
    s.worker.messageIdSent < (s.ring.messages cell).messageId → s.ring.messages cell ∈ s.polled

theorem polled_eq (actions : List Action) (few : publishes actions < 2 ^ 64) :
    (System.run actions).polled =
      (CyclicLog.pending websocketMessageN (publishes actions)
        (System.run actions).worker.messageIdSent.toNat).map (System.run actions).ring.slotOf := by
  rw [System.polled, step_poll actions few, System.taken]
  simp

theorem mem_polled_iff (actions : List Action) (few : publishes actions < 2 ^ 64)
    {cell : Nat} (bound : cell < websocketMessageN)
    (used : 0 < ((System.run actions).ring.messages cell).messageId.toNat) :
    (System.run actions).ring.messages cell ∈ (System.run actions).polled ↔
      ((System.run actions).ring.messages cell).messageId.toNat ∈
        CyclicLog.pending websocketMessageN (publishes actions)
          (System.run actions).worker.messageIdSent.toNat := by
  have inv := run_invariant actions few
  have slot := (cell_kept inv bound used).2
  rw [polled_eq actions few, List.mem_map]
  constructor
  · rintro ⟨j, member, eq⟩
    have kept := CyclicLog.kept_of_pending websocketMessageN_positive member
    rw [← eq, slotOf_id inv kept]
    exact member
  · exact fun member => ⟨_, member, slot.symm⟩

theorem delivers_iff (actions : List Action) (few : publishes actions < 2 ^ 64) :
    DeliversAllKept (System.run actions) ↔
      publishes actions ≤ (System.run actions).worker.messageIdSent.toNat + websocketMessageN ∨
      websocketMessageN ∣
        publishes actions - (System.run actions).worker.messageIdSent.toNat := by
  have inv := run_invariant actions few
  rw [← CyclicLog.pending_complete_iff websocketMessageN_positive, DeliversAllKept,
    polled_eq actions few, pending_ids inv, ← polled_eq actions few]
  constructor
  · rintro ⟨_, all⟩ j newer kept
    have id := slotOf_id inv kept
    have bound := Nat.mod_lt (j - 1) websocketMessageN_positive
    rw [MessageRing.slotOf] at id
    have member := all _ bound (UInt64.lt_iff_toNat_lt.mpr (by rw [id]; exact newer))
    rw [mem_polled_iff actions few bound (by rw [id]; exact kept.1), id] at member
    exact member
  · refine fun all => ⟨?_, fun cell bound newer => ?_⟩
    · rw [CyclicLog.pending]
      split
      · exact List.pairwise_lt_range'
      · exact List.Pairwise.nil
    · have lt := UInt64.lt_iff_toNat_lt.mp newer
      rw [mem_polled_iff actions few bound (by omega)]
      exact all _ lt (cell_kept inv bound (by omega)).1

/-- A poll takes, without a gap, what is stored from the cursor's message up to the newest,
and nothing that was taken before. What a lapped worker leaves out of the ring is exactly
what is older than the message under its cursor; that is nothing at all precisely when it is
at most one ring behind or a whole number of rings. -/
theorem overtaken_poll_delivers (actions : List Action) (few : publishes actions < 2 ^ 64) :
    let s := System.run actions
    let first := (s.ring.messages s.worker.messageSend).messageId.toNat
    (s.polled.map (fun m => m.messageId.toNat) =
      if s.worker.messageIdSent.toNat < publishes actions then
        List.range' first (publishes actions + 1 - first) else []) ∧
    (∀ m ∈ s.polled, s.worker.messageIdSent < m.messageId) ∧
    (∀ cell < websocketMessageN,
      s.worker.messageIdSent < (s.ring.messages cell).messageId →
      (s.ring.messages cell ∈ s.polled ↔ first ≤ (s.ring.messages cell).messageId.toNat)) ∧
    (DeliversAllKept s ↔
      publishes actions ≤ s.worker.messageIdSent.toNat + websocketMessageN ∨
      websocketMessageN ∣ publishes actions - s.worker.messageIdSent.toNat) := by
  intro s first
  have inv := run_invariant actions few
  have cursor : first = CyclicLog.stored websocketMessageN (publishes actions)
      (s.worker.messageIdSent.toNat % websocketMessageN) := cursor_id inv
  have ids : s.polled.map (fun m => m.messageId.toNat) = CyclicLog.pending websocketMessageN
      (publishes actions) s.worker.messageIdSent.toNat := by
    rw [polled_eq actions few, pending_ids inv]
  refine ⟨?_, fun m member => ?_, fun cell bound newer => ?_, delivers_iff actions few⟩
  · rw [ids, CyclicLog.pending, cursor]
  · have id : m.messageId.toNat ∈ s.polled.map (fun m => m.messageId.toNat) :=
      List.mem_map_of_mem member
    rw [ids, CyclicLog.mem_pending_iff] at id
    have newer := CyclicLog.lt_stored_iff (n := websocketMessageN).mpr id.1
    exact UInt64.lt_iff_toNat_lt.mpr (newer.trans_le id.2.1)
  · have lt := UInt64.lt_iff_toNat_lt.mp newer
    have used := Nat.zero_lt_of_lt lt
    have kept := (cell_kept inv bound used).1
    rw [mem_polled_iff actions few bound used, CyclicLog.mem_pending_iff, ← cursor]
    constructor
    · exact fun h => h.2.1
    · exact fun h => ⟨lt.trans_le kept.2.1, h, kept.2.1⟩

theorem overtaken_poll_delivers_burst :
    ¬ DeliversAllKept (System.run (burst 2049)) ∧ DeliversAllKept (System.run (burst 2048)) := by
  have few : publishes (burst 2049) < 2 ^ 64 ∧ publishes (burst 2048) < 2 ^ 64 := by
    rw [publishes_burst, publishes_burst]; decide
  have lapped := (overtaken_poll_delivers (burst 2049) few.1).2.2.2
  have whole := (overtaken_poll_delivers (burst 2048) few.2).2.2.2
  simp only [burst_worker, publishes_burst] at lapped whole
  exact ⟨mt lapped.mp (by decide), whole.mpr (by decide)⟩

/-- Two slots beyond one ring: messages 3 to 1024 are still stored and passed over. -/
theorem overtaken_poll_skips_kept : ¬ DeliversAllKept (System.run (burst 1026)) := by
  have few : publishes (burst 1026) < 2 ^ 64 := by rw [publishes_burst]; decide
  rw [delivers_iff _ few, burst_worker, publishes_burst]
  decide

end Ngx
