import Ngx.RedisStream
import Ngx.WebsocketFrame

/-! The frame made of an accepted message record. The payload is what stands between two
pointers set by the parser, whatever length the record declared, so its size follows from
the bytes after the length line alone. -/
namespace Ngx.Redis

open Ngx.Frame Resumable

/-- A call whose caller goes on; after any other the process exits. -/
def GoesOn (r : Code × Connection × Buffer) : Prop :=
  r.1 = .again ∨ r.1 = .ok ∧ r.2.1.error = false

/-- The states of the connection in runs of the process; what stands in the buffer at a call
and the caller's own marks are arbitrary. -/
inductive Reachable : Connection → Prop where
  | fresh : Reachable .fresh
  | parse (b : Buffer) (rest : Reachable rc) (goesOn : GoesOn (parseMessage rc b)) :
      Reachable (parseMessage rc b).2.1
  | marked (parseStart : Nat) (parseDone : Bool) (rest : Reachable rc) :
      Reachable { rc with parseStart, parseDone }

def Connection.Ready (rc : Connection) : Prop := ∀ p, Cursor.Ready ⟨rc.toProgress, rc.state, p⟩

theorem parseMessage_ready {rc : Connection} {b : Buffer} (ready : rc.Ready)
    (goesOn : GoesOn (parseMessage rc b)) : (parseMessage rc b).2.1.Ready := by
  have kept {c c' : Cursor} (h : c.Ready) (_ : c.p < b.last) (moved : parseByte b.mem c = .ok c') :
      Cursor.Ready { c' with p := c'.p + 1 } := (parseByte_ok h moved).1
  rcases parsed : parseMessage rc b with ⟨code, rc', b'⟩
  rw [parsed] at goesOn
  intro q
  rcases goesOn with again | ⟨ok, quiet⟩
  · cases again
    have here := (parse_again_rounds kept (ready _) parsed).1
    exact here
  · cases ok
    obtain ⟨c, p, here, -, -, -, state, round⟩ := parse_ok_round kept (ready _) parsed
    obtain ⟨-, error, same, place⟩ := parseByte_done round
    rcases place with bad | ⟨value, -⟩
    · have set : c.rc.error = true := by simpa only [Cursor.Ready, bad] using here
      simp only at quiet
      rw [← error, quiet] at set
      cases set
    · have some : c.rc.channelMessagePrefix ≠ [] := by simpa only [Cursor.Ready, value] using here
      simp only [Cursor.Ready, state, same]
      exact some

theorem Reachable.ready {rc : Connection} (reachable : Reachable rc) : rc.Ready := by
  induction reachable with
  | fresh => exact fun _ => trivial
  | parse b _ goesOn ih => exact parseMessage_ready ih goesOn
  | marked parseStart parseDone _ ih => exact ih

/-- Parsing from the start of a record until it is accepted, with a read after each
`NGX_AGAIN`. The buffer is neither reset nor moved meanwhile: `parse_done` is clear. -/
def readRecord (rc : Connection) (b : Buffer) : List (List UInt8) → Option (Connection × Buffer)
  | [] =>
    match parseMessage rc b with
    | (.ok, rc, b) => some (rc, b)
    | _ => none
  | piece :: rest =>
    match parseMessage rc b with
    | (.ok, rc, b) => some (rc, b)
    | (.again, rc, b) => readRecord rc (b.received piece) rest
    | _ => none

/-- `length = rc->message_end - rc->message_start`, an `ngx_uint_t`. -/
def payloadLength (rc : Connection) : Nat := (rc.messageEnd + 2 ^ 64 - rc.messageStart) % 2 ^ 64

def publishedBytes (rc : Connection) (b : Buffer) : List UInt8 :=
  (websocketFrameEncode (fun i => b.mem (rc.messageStart + i)) opcodeText 1 (payloadLength rc)).1

def Reading (mem : Nat → UInt8) (last o : Nat) (c : Cursor) : Prop :=
  match c.state with
  | .message => c.p + c.rc.channelMessagePrefix.length = o
  | .messageLength => o ≤ c.p ∧ ∀ i, o ≤ i → i < c.p → i < last ∧ mem i ≠ lf
  | .messageValue => o < c.rc.messageStart ∧ c.rc.messageStart ≤ c.p ∧ c.p ≤ last ∧
    mem (c.rc.messageStart - 1) = lf ∧ ∀ i, o ≤ i → i < c.rc.messageStart - 1 → mem i ≠ lf
  | _ => False

section Reading

variable {mem : Nat → UInt8} {last o : Nat} {c c' : Cursor}

theorem reading_step (ready : c.Ready) (reading : Reading mem last o c) (before : c.p < last)
    (moved : parseByte mem c = .ok c') : Reading mem last o { c' with p := c'.p + 1 } := by
  have reach := (parseByte_ok ready moved).2
  obtain ⟨rc, state, p⟩ := c
  cases state with
  | message =>
    cases parseByte_moved moved with
    | begun =>
      simp only [Reading, Cursor.reach] at reading reach ⊢
      rw [reach, reading]
      exact ⟨le_refl o, fun i le lt => by omega⟩
    | carriage line => exact absurd rfl line.2.2
  | messageLength =>
    obtain ⟨le, line⟩ := reading
    have further (notLf : mem p ≠ lf) : ∀ i, o ≤ i → i < p + 1 → i < last ∧ mem i ≠ lf := by
      intro i above below
      by_cases here : i = p
      · rw [here]
        exact ⟨before, notLf⟩
      · exact line i above (by simp only; omega)
    cases parseByte_moved moved with
    | carriage _ _ carriage =>
      refine ⟨Nat.le_succ_of_le le, further ?_⟩
      rw [carriage]
      decide
    | length ended =>
      exact ⟨Nat.lt_succ_of_le le, le_refl _, before, ended.1,
        fun i above below => (line i above below).2⟩
    | digit digit =>
      refine ⟨Nat.le_succ_of_le le, further ?_⟩
      intro eq
      rw [eq] at digit
      cases digit
  | messageValue =>
    obtain ⟨start, le, -, lineFeed, line⟩ := reading
    cases parseByte_moved moved with
    | carriage | counted | searched =>
      exact ⟨start, Nat.le_succ_of_le le, before, lineFeed, line⟩
  | _ => exact reading.elim

theorem reading_received {b : Buffer} {rc : Progress} {state : State} (piece : List UInt8)
    (reading : Reading b.mem b.last o ⟨rc, state, b.pos⟩) :
    Reading (b.received piece).mem (b.received piece).last o ⟨rc, state, b.pos⟩ := by
  have old (i : Nat) (lt : i < b.last) : (b.received piece).mem i = b.mem i := by
    simp only [Buffer.received, Resumable.store]
    rw [if_neg (by omega)]
  have grown : b.last ≤ (b.received piece).last := Nat.le_add_right _ _
  cases state with
  | message => exact reading
  | messageLength =>
    obtain ⟨le, line⟩ := reading
    refine ⟨le, fun i above below => ?_⟩
    obtain ⟨inside, notLf⟩ := line i above below
    exact ⟨by omega, by rwa [old i inside]⟩
  | messageValue =>
    obtain ⟨start, le, inside, lineFeed, line⟩ := reading
    simp only at start le inside
    refine ⟨start, le, inside.trans grown, ?_, fun i above below => ?_⟩
    · simp only
      rwa [old _ (by omega)]
    · simp only at below
      rw [old i (by omega)]
      exact line i above below
  | _ => exact reading.elim

/-- Where the accepted message stands, in terms of the first line feed from `o` on. -/
structure Accepted (o : Nat) (rc : Connection) (b : Buffer) : Prop where
  start : o < rc.messageStart
  stop : rc.messageStart < b.pos
  inside : b.pos ≤ b.last
  messageEnd : rc.messageEnd = b.pos - 2
  lineFeed : b.mem (rc.messageStart - 1) = lf
  line : ∀ i, o ≤ i → i < rc.messageStart - 1 → b.mem i ≠ lf

theorem reading_done {rc : Progress} {p : Nat} {mem' : Nat → UInt8}
    (reading : Reading mem last o c) (before : c.p < last)
    (done : parseByte mem c = .error (.done rc p mem')) :
    Accepted o { toProgress := rc, state := .message } ⟨mem', p + 1, last⟩ := by
  cases parseByte_completed done with
  | error => exact reading.elim
  | message =>
    obtain ⟨start, le, -, lineFeed, line⟩ := reading
    exact ⟨start, Nat.lt_succ_of_le le, before, rfl, lineFeed, line⟩

end Reading

section Calls

variable {rc rc' : Connection} {b b' : Buffer} {o : Nat}

/-- Ready for its state, and somewhere in the record whose length line starts at `o`. -/
structure InRecord (o : Nat) (rc : Connection) (b : Buffer) : Prop where
  ready : rc.Ready
  reading : Reading b.mem b.last o ⟨rc.toProgress, rc.state, b.pos⟩

/-- What every round and every read keep holds, at the call that accepts the record, where its
last round starts; `rest` are the pieces not read. -/
theorem readRecord_rule
    {I : (rest : List (List UInt8)) → (Nat → UInt8) → (last : Nat) → Cursor → Prop}
    {Q : Connection → Buffer → Prop}
    (kept : ∀ {rest mem last c c'}, I rest mem last c → c.p < last → parseByte mem c = .ok c' →
      I rest mem last { c' with p := c'.p + 1 })
    (received : ∀ {piece rest} {b : Buffer} {progress : Progress} {state},
      I (piece :: rest) b.mem b.last ⟨progress, state, b.pos⟩ →
      I rest (b.received piece).mem (b.received piece).last ⟨progress, state, b.pos⟩)
    (done : ∀ {rest mem last c progress p mem'}, I rest mem last c → c.p < last →
      parseByte mem c = .error (.done progress p mem') →
      Q { toProgress := progress, state := .message } ⟨mem', p + 1, last⟩)
    {pieces : List (List UInt8)} (start : I pieces b.mem b.last ⟨rc.toProgress, rc.state, b.pos⟩)
    (accepted : readRecord rc b pieces = some (rc', b')) : Q rc' b' := by
  -- one call, with the pieces that are left
  have call (pieces : List (List UInt8)) {rc : Connection} {b : Buffer} {code : Code} {rc' b'}
      (start : I pieces b.mem b.last ⟨rc.toProgress, rc.state, b.pos⟩)
      (parsed : parseMessage rc b = (code, rc', b')) : (code = .ok → Q rc' b') ∧
        (code = .again → I pieces b'.mem b'.last ⟨rc'.toProgress, rc'.state, b'.pos⟩) := by
    have kept {c c' : Cursor} : I pieces b.mem b.last c → c.p < b.last →
        parseByte b.mem c = .ok c' → I pieces b.mem b.last { c' with p := c'.p + 1 } := kept
    constructor
    · rintro rfl
      obtain ⟨c, p, here, before, pos, last, state, round⟩ := parse_ok_round kept start parsed
      obtain ⟨progress, state'⟩ := rc'
      obtain ⟨mem, pos', last'⟩ := b'
      cases state
      cases pos
      cases last
      exact done here before round
    · rintro rfl
      obtain ⟨here, mem, last, -⟩ := parse_again_rounds kept start parsed
      rw [mem, last]
      exact here
  induction pieces generalizing rc b with
  | nil =>
    rw [readRecord] at accepted
    split at accepted
    · rename_i parsed
      cases accepted
      exact (call [] start parsed).1 rfl
    · cases accepted
  | cons piece rest ih =>
    rw [readRecord] at accepted
    split at accepted
    · rename_i parsed
      cases accepted
      exact (call (piece :: rest) start parsed).1 rfl
    · rename_i parsed
      exact ih (received ((call (piece :: rest) start parsed).2 rfl)) accepted
    · cases accepted

theorem readRecord_accepts {pieces : List (List UInt8)} (inside : InRecord o rc b)
    (accepted : readRecord rc b pieces = some (rc', b')) : Accepted o rc' b' :=
  readRecord_rule (I := fun _ mem last c => c.Ready ∧ Reading mem last o c)
    (fun h before moved => ⟨(parseByte_ok h.1 moved).1, reading_step h.1 h.2 before moved⟩)
    (fun h => ⟨h.1, reading_received _ h.2⟩)
    (fun h before done => reading_done h.2 before done) ⟨inside.ready b.pos, inside.reading⟩ accepted

end Calls

/-- An accepted record is made into a frame that fits its slot exactly when the bytes after
its length line, the terminator included, number from 2 to 253. -/
theorem published_fits_iff {rc rc' : Connection} {b b' : Buffer} {pieces : List (List UInt8)}
    (reachable : Reachable rc) (start : rc.state = .message) (addresses : b'.last ≤ 2 ^ 64)
    (accepted : readRecord rc b pieces = some (rc', b')) :
    ∃ line value,
      cells b'.mem (b.pos + rc.channelMessagePrefix.length) b'.pos = line ++ lf :: value ∧
      lf ∉ line ∧
      ((publishedBytes rc' b').length ≤ websocketMaxMessageLength ↔
        2 ≤ value.length ∧ value.length ≤ 253) := by
  have reading : Reading b.mem b.last (b.pos + rc.channelMessagePrefix.length)
      ⟨rc.toProgress, rc.state, b.pos⟩ := by
    rw [start]
    rfl
  obtain ⟨after, before, inside, stop, lineFeed, line⟩ :=
    readRecord_accepts ⟨reachable.ready, reading⟩ accepted
  have one : cells b'.mem (rc'.messageStart - 1) rc'.messageStart = [lf] := by
    have width : rc'.messageStart - (rc'.messageStart - 1) = 1 := by omega
    simp [cells, width, lineFeed]
  refine ⟨cells b'.mem (b.pos + rc.channelMessagePrefix.length) (rc'.messageStart - 1),
    cells b'.mem rc'.messageStart b'.pos, ?_, ?_, ?_⟩
  · rw [← List.singleton_append, ← one, cells_append _ (by omega) (by omega),
      cells_append _ (by omega) (by omega)]
  · intro member
    obtain ⟨k, inRange, eq⟩ := List.mem_map.mp member
    have := List.mem_range.mp inRange
    exact line _ (Nat.le_add_right _ _) (by omega) eq
  · rw [publishedBytes, written_fits_iff, payloadLength, cells_length, stop]
    omega

def subscribed : Connection :=
  (parseMessage .fresh ⟨memoryOf (qmxjChannel.subscribeReply 1), 0,
    (qmxjChannel.subscribeReply 1).length⟩).2.1

theorem subscribed_reachable : Reachable subscribed :=
  .parse _ .fresh (.inl (by decide +kernel))

def bufferOf (bs : List UInt8) : Buffer := ⟨memoryOf bs, 0, bs.length⟩

theorem greeting_accepted :
    (readRecord subscribed (bufferOf (qmxjChannel.record greeting)) []).isSome = true := by
  decide +kernel

def greeted : Connection × Buffer :=
  (readRecord subscribed (bufferOf (qmxjChannel.record greeting)) []).get greeting_accepted

theorem greeted_eq :
    readRecord subscribed (bufferOf (qmxjChannel.record greeting)) [] = some (greeted.1, greeted.2) :=
  (Option.some_get greeting_accepted).symm

def longPayload : Bulk :=
  ⟨List.replicate 252 97, by rw [List.length_replicate]; decide⟩

theorem published_fits_greeting :
    ∃ line value, cells greeted.2.mem (0 + subscribed.channelMessagePrefix.length) greeted.2.pos =
        line ++ lf :: value ∧ lf ∉ line ∧
      ((publishedBytes greeted.1 greeted.2).length ≤ websocketMaxMessageLength ↔
        2 ≤ value.length ∧ value.length ≤ 253) :=
  published_fits_iff subscribed_reachable (by decide +kernel) (by decide +kernel) greeted_eq

/-- A payload of 252 bytes is accepted and written as 257 bytes. -/
theorem published_overflows :
    Reachable subscribed ∧ subscribed.state = .message ∧
      (readRecord subscribed (bufferOf (qmxjChannel.record longPayload)) []).map
        (fun r => (publishedBytes r.1 r.2).length) = some 257 :=
  ⟨subscribed_reachable, by decide +kernel, by decide +kernel⟩

end Ngx.Redis
