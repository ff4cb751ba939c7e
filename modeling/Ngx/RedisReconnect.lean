import Ngx.RedisDecode
import Ngx.RedisBounds

/-! The connection to the redis server is opened again after it was lost, with the fields of
the parser and the buffer as they were. -/
namespace Ngx.Redis

open Resumable

/-- A value starts before the place reached, `parse_done` is set between messages only, and the
start of a record is empty or was formatted by the parser. -/
structure Cursor.Known (c : Cursor) : Prop where
  started : c.state = .messageValue → c.rc.messageStart ≤ c.p
  done : c.rc.parseDone = true → c.state = .message
  formatted : c.rc.channelMessagePrefix = [] ∨
    ∃ length name, c.rc.channelMessagePrefix = messagePrefix length name

section Parser

variable {mem : Nat → UInt8} {c c' : Cursor} {rc rc' : Connection} {b b' : Buffer}

theorem parseByte_known (known : c.Known) (moved : parseByte mem c = .ok c') :
    Cursor.Known { c' with p := c'.p + 1 } := by
  have cleared := (parseByte_marks moved).2
  refine ⟨?_, fun bad => by simp [cleared] at bad, ?_⟩
  · intro value
    have started := known.started
    cases parseByte_moved moved with
    | carriage => exact Nat.le_succ_of_le (started value)
    | length => exact le_refl _
    | counted | searched => exact Nat.le_succ_of_le (started rfl)
    | _ => cases value
  · have formatted := known.formatted
    cases parseByte_moved moved with
    | name => exact .inr ⟨_, _, rfl⟩
    | _ => exact formatted

theorem parseByte_leaves_start (moved : parseByte mem c = .ok c') : c'.state ≠ .start := by
  cases parseByte_moved moved with
  | carriage line => exact line.1
  | _ => simp

/-- The place a call waits at. -/
theorem parse_again_round {I : Cursor → Prop} (ready : rc.Ready)
    (kept : ∀ {c c'}, I c → c.p < b.last → parseByte b.mem c = .ok c' → I { c' with p := c'.p + 1 })
    (start : I ⟨rc.toProgress, rc.state, b.pos⟩) (parsed : parseMessage rc b = (.again, rc', b')) :
    I ⟨rc'.toProgress, rc'.state, b'.pos⟩ ∧ b.last ≤ b'.pos := by
  obtain ⟨here, -, -, left⟩ := parse_again_rounds kept start parsed
  have loop : LoopRun b.mem b.last ⟨rc.toProgress, rc.state, b.pos⟩ (parseLoop b.mem b.last
      (b.last - b.pos) ⟨rc.toProgress, rc.state, b.pos⟩) := parseLoop_run (ready _) (le_refl _)
  rw [left] at loop
  exact ⟨here, loop.past⟩

theorem parse_ok_known (known : Cursor.Known ⟨rc.toProgress, rc.state, b.pos⟩)
    (parsed : parseMessage rc b = (.ok, rc', b')) (parseStart p : Nat) (parseDone : Bool) :
    Cursor.Known ⟨{ rc'.toProgress with parseStart, parseDone }, rc'.state, p⟩ := by
  obtain ⟨c, p, here, -, -, -, state, round⟩ :=
    parse_ok_round (fun known _ moved => parseByte_known known moved) known parsed
  obtain ⟨-, -, same, -⟩ := parseByte_done round
  refine ⟨fun value => ?_, fun _ => state, ?_⟩
  · simp only at value
    rw [state] at value
    cases value
  · simp only
    rw [same]
    exact here.formatted

theorem parse_again_known (ready : rc.Ready)
    (known : Cursor.Known ⟨rc.toProgress, rc.state, b.pos⟩)
    (parsed : parseMessage rc b = (.again, rc', b')) :
    Cursor.Known ⟨rc'.toProgress, rc'.state, b'.pos⟩ :=
  (parse_again_round ready (fun known _ moved => parseByte_known known moved) known parsed).1

/-- The first byte takes the parser out of its first state for good. -/
theorem parse_again_start (ready : rc.Ready) (parsed : parseMessage rc b = (.again, rc', b'))
    (start : rc'.state = .start) : rc' = rc ∧ b' = b ∧ b.last ≤ b.pos := by
  have round := parse_again_round
    (I := fun c => c.state = .start → c = ⟨rc.toProgress, rc.state, b.pos⟩) ready
    (fun {c c'} _ _ moved bad => (parseByte_leaves_start moved bad).elim) (fun _ => rfl) parsed
  have same := round.1 start
  simp only [Cursor.mk.injEq] at same
  obtain ⟨progress, state, pos⟩ := same
  obtain ⟨mem, last, -⟩ := parse_again ready parsed
  refine ⟨?_, ?_, pos ▸ round.2⟩
  · cases rc
    cases rc'
    simp_all
  · cases b
    cases b'
    simp_all

end Parser

structure Process.Known (s : Process) : Prop where
  invariant : s.Invariant
  cursor : s.location ≠ .exited → Cursor.Known ⟨s.rc.toProgress, s.rc.state, s.buffer.pos⟩
  waits : s.location = .call → s.buffer.last ≤ s.buffer.pos
  reset : s.location = .call → s.rc.parseDone = true → s.buffer.pos = s.buffer.last →
    s.buffer.pos = 0
  unread : s.location ≠ .exited → s.rc.state = .start → s.rc = .fresh ∧ s.published = [] ∧
    s.buffer.pos = 0 ∧ (s.location = .call → s.buffer.last = 0)

section Known

variable {s : Process}

theorem read_known (known : s.Known) (call : s.location = .call) (input : Input) :
    (s.read input).Known := by
  have running : s.location ≠ .exited := by simp [call]
  have invariant := read_preserves known.invariant call input
  have cursor := known.cursor running
  obtain unread := known.unread running
  rw [Process.read] at invariant ⊢
  split
  · rename_i nothing
    rw [if_pos nothing] at invariant
    cases connected : input.reconnected with
    | false =>
      rw [connected] at invariant
      exact ⟨invariant, by simp, by simp, by simp, by simp⟩
    | true =>
      rw [connected] at invariant
      refine ⟨invariant, fun _ => cursor, by simp, by simp, fun _ start => ?_⟩
      obtain ⟨rc, published, pos, -⟩ := unread start
      exact ⟨rc, published, pos, by simp⟩
  · rename_i some
    rw [if_neg some] at invariant
    refine ⟨invariant, fun _ => cursor, by simp, by simp, fun _ start => ?_⟩
    obtain ⟨rc, published, pos, -⟩ := unread start
    exact ⟨rc, published, pos, by simp⟩

theorem turn_known (known : s.Known) (top : s.location = .top) : s.turn.Known := by
  have running : s.location ≠ .exited := by simp [top]
  have invariant := turn_preserves_marks known.invariant top
  have ready := (known.invariant.reachable running).ready
  have cursor := known.cursor running
  rw [← maintained_pos] at cursor
  rcases turn_cases s with ⟨rc, b, parsed, -, eq⟩ | ⟨rc, b, parsed, eq⟩ | ⟨exited, -⟩
  · obtain ⟨-, -, -, -, -, -, state, -⟩ := parse_ok_round (I := fun _ => True)
      (fun _ _ _ => trivial) trivial parsed
    rw [eq] at invariant ⊢
    refine ⟨invariant, fun _ => parse_ok_known cursor parsed _ _ _, by simp, by simp, fun _ bad => ?_⟩
    simp only at bad
    rw [state] at bad
    cases bad
  · have next := parse_again_known ready cursor parsed
    have behind := (parse_again_round (I := fun _ => True) ready (fun _ _ _ => trivial) trivial
      parsed).2
    obtain ⟨-, last, -⟩ := parse_again ready parsed
    rw [← last] at behind
    rw [eq] at invariant ⊢
    refine ⟨invariant, fun _ => ?_, fun _ => ?_, fun _ done => ?_, fun _ start => ?_⟩
    · rw [resetIfDone]
      split
      · rename_i reset
        have state := next.done reset.2
        simp only at state
        refine ⟨fun value => ?_, next.done, next.formatted⟩
        simp only at value
        rw [state] at value
        cases value
      · exact next
    · rw [resetIfDone]
      split
      · exact le_refl _
      · exact behind
    · rw [resetIfDone]
      split
      · exact fun _ => rfl
      · rename_i goesOn
        exact fun same => (goesOn ⟨same, done⟩).elim
    · obtain ⟨rfl, rfl, used⟩ := parse_again_start ready parsed start
      obtain ⟨fresh, published, pos, -⟩ := known.unread running start
      have done : s.rc.parseDone = false := by rw [fresh]; rfl
      rw [maintained_pos, maintained_last, pos] at used
      simp only [resetIfDone, done, Bool.false_eq_true, and_false, if_false, maintained_pos,
        maintained_last]
      exact ⟨fresh, published, pos, fun _ => Nat.le_zero.mp used⟩
  · exact ⟨invariant, fun bad => (bad exited).elim, by simp [exited], by simp [exited],
      fun bad => (bad exited).elim⟩

theorem step_known (known : s.Known) (input : Input) : (s.step input).Known := by
  rw [Process.step]
  split
  · exact read_known known ‹_› input
  · exact turn_known known ‹_›
  · exact known

theorem run_known (known : s.Known) (inputs : List Input) : (s.run inputs).Known := by
  induction inputs generalizing s with
  | nil => exact known
  | cons input rest ih => exact ih (step_known known input)

theorem initial_known (mem : Nat → UInt8) : (Process.initial mem).Known :=
  ⟨initial_keeps_invariant mem,
    fun _ => ⟨fun bad => (by cases bad), fun bad => (by cases bad), .inl rfl⟩,
    fun _ => le_refl _, fun _ _ _ => rfl, fun _ _ => ⟨rfl, rfl, rfl, fun _ => rfl⟩⟩

/-- Past a read without data, a successful reconnection and the turn that finds nothing new. -/
def Process.reconnected (s : Process) : Process := (s.step ⟨none, true⟩).step ⟨none, true⟩

/-- Whatever of a valid stream arrives, the process publishes what a new one publishes on the
same memory, and comes to the same place. -/
def Process.Afresh (s : Process) : Prop :=
  ∀ (ch : Channel) (clients : Nat) (ws : List Bulk), (∀ w ∈ ws, w.payload.length ≤ 256) →
    ∀ inputs, received (Process.initial s.buffer.mem) inputs <+: ch.stream clients ws →
      (s.reconnected.run inputs).published.map Extracted.bytes =
          s.published.map Extracted.bytes ++
            ((Process.initial s.buffer.mem).run inputs).published.map Extracted.bytes ∧
        (s.reconnected.run inputs).location =
          ((Process.initial s.buffer.mem).run inputs).location

/-- Where all input is used up, the next turn moves nothing. -/
theorem Process.Known.maintained_eq (known : s.Known) (call : s.location = .call)
    (used : s.buffer.pos = s.buffer.last) {b : Buffer} (same : b.pos = s.buffer.pos) :
    maintained s.rc b = b := by
  rw [maintained]
  split
  · rename_i little
    obtain ⟨done, small⟩ := Bool.and_eq_true_iff.mp little
    have small := of_decide_eq_true small
    have start := known.reset call done used
    simp only [redisBufferSize, websocketMaxMessageLength, same, start] at small
    omega
  · rfl

/-- Where the parser stands at the end of the input, a reconnection changes nothing. -/
theorem Process.Known.reconnected_eq (known : s.Known) (call : s.location = .call)
    (used : s.buffer.pos = s.buffer.last) : s.reconnected = s := by
  have kept : maintained s.rc s.buffer = s.buffer := known.maintained_eq call used rfl
  have again : parseMessage s.rc s.buffer = (.again, s.rc, s.buffer) := by
    have none : s.buffer.last - s.buffer.pos = 0 := by omega
    simp [parseMessage, none, parseLoop]
  have same : resetIfDone s.rc s.buffer = s.buffer := by
    rw [resetIfDone]
    split
    · rename_i reset
      have start := known.reset call reset.2 used
      obtain ⟨rc, ⟨mem, pos, last⟩, published, location⟩ := s
      simp only at start used
      simp [start, ← used]
    · rfl
  have read : s.step ⟨none, true⟩ = { s with location := .top } := by
    simp [Process.step, call, Process.read]
  rw [Process.reconnected, read]
  simp only [Process.step, Process.turn, kept, again, same, ← call]

end Known

def streamHead : List UInt8 := [42, 51, 13, 10, 36, 57]

def Buffer.Begins (b : Buffer) : Prop :=
  ∀ i (inside : i < streamHead.length), b.pos + i < b.last → b.mem (b.pos + i) = streamHead[i]

section Stale

variable {rc rc' : Connection} {b b' : Buffer}

/-- A call that is refused by its first round, or waits before it, yields nothing. -/
theorem refused_yields_nothing (state : rc.state ≠ .error ∧ rc.state ≠ .messageValue)
    (refused : b.pos < b.last → ∀ c,
      parseByte b.mem ⟨rc.toProgress, rc.state, b.pos⟩ ≠ .ok c) :
    (parseMessage rc b).1 ≠ .ok := by
  intro ok
  have parsed : parseMessage rc b = (.ok, (parseMessage rc b).2) := by rw [← ok]
  obtain ⟨c, p, rfl, -, -, -, -, round⟩ := parse_ok_round
    (I := fun c => c = ⟨rc.toProgress, rc.state, b.pos⟩)
    (fun {c c'} here before moved => by
      subst here
      exact (refused before c' moved).elim) rfl parsed
  obtain ⟨-, -, -, bad | ⟨bad, -⟩⟩ := parseByte_done round
  · exact state.1 bad
  · exact state.2 bad

/-- In the channel's name the star is stored; the line end then shows the wrong length, or the
number that follows is refused. -/
theorem name_yields_nothing (begins : b.Begins) (state : rc.state = .subscribeChannelName) :
    (parseMessage rc b).1 ≠ .ok := by
  intro ok
  let I (c : Cursor) : Prop :=
    c.state = .subscribeChannelName ∧ b.pos ≤ c.p ∧ c.p ≤ b.pos + 3 ∧
        (c.p = b.pos + 3 → c.rc.afterCr = true) ∨
      c.state = .subscribeChannelClinet ∧ c.p = b.pos + 4
  have kept {c c' : Cursor} (here : I c) (before : c.p < b.last)
      (moved : parseByte b.mem c = .ok c') : I { c' with p := c'.p + 1 } := by
    rcases here with ⟨state, low, high, after⟩ | ⟨state, place⟩
    · obtain ⟨i, place⟩ := Nat.exists_eq_add_of_le low
      have few : i ≤ 3 := by omega
      have inside : i < streamHead.length := by
        simp only [streamHead, List.length_cons]
        omega
      have byte : b.mem c.p = streamHead[i] := by
        rw [place]
        exact begins i inside (by omega)
      cases parseByte_moved moved with
      | carriage _ _ carriage =>
        have early : i ≠ 3 := by
          rintro rfl
          rw [carriage] at byte
          cases byte
        exact .inl ⟨state, by simp only at place ⊢; omega, by simp only at place ⊢; omega, fun _ => rfl⟩
      | nameByte notCr notEnd =>
        have early : i ≠ 3 := by
          rintro rfl
          exact notEnd ⟨byte, after place⟩
        refine .inl ⟨rfl, by simp only at place ⊢; omega, by simp only at place ⊢; omega, fun last => ?_⟩
        simp only at place last
        obtain rfl : i = 2 := by omega
        exact (notCr byte).elim
      | name ended =>
        refine .inr ⟨rfl, ?_⟩
        simp only at place ⊢
        by_contra other
        have early : i < 3 := by omega
        rw [ended.1] at byte
        interval_cases i <;> cases byte
      | _ => cases state
    · have dollar : b.mem c.p = 36 := by
        rw [place]
        exact begins 4 (by decide) (by omega)
      cases parseByte_moved moved with
      | carriage _ _ byte | colon byte =>
        rw [byte] at dollar
        cases dollar
      | clientDigit byte =>
        rw [dollar] at byte
        cases byte
      | clients ended =>
        rw [ended.1] at dollar
        cases dollar
      | _ => cases state
  have parsed : parseMessage rc b = (.ok, (parseMessage rc b).2) := by rw [← ok]
  obtain ⟨c, p, here, -, -, -, -, round⟩ := parse_ok_round kept
    (.inl ⟨state, le_refl _, Nat.le_add_right _ _, fun bad => by simp at bad⟩) parsed
  obtain ⟨-, -, -, bad | ⟨bad, -⟩⟩ := parseByte_done round
  all_goals
    rcases here with ⟨state, -⟩ | ⟨state, -⟩
    all_goals
      rw [state] at bad
      cases bad

/-- Before a record the stream's head is taken for the start of one only where it has not
arrived as far as the two differ. -/
theorem message_yields_nothing (begins : b.Begins) (state : rc.state = .message)
    (formatted : ∃ length name, rc.channelMessagePrefix = messagePrefix length name) :
    (parseMessage rc b).1 ≠ .ok := by
  intro ok
  obtain ⟨length, name, eq⟩ := formatted
  obtain ⟨tail, form⟩ : ∃ tail, rc.channelMessagePrefix = [42, 51, 13, 10, 36, 55] ++ tail :=
    ⟨_, by rw [eq, messagePrefix]; rfl⟩
  let I (c : Cursor) : Prop :=
    c = ⟨rc.toProgress, .message, b.pos⟩ ∨ c.state = .messageLength ∧ b.last ≤ c.p
  have kept {c c' : Cursor} (here : I c) (before : c.p < b.last)
      (moved : parseByte b.mem c = .ok c') : I { c' with p := c'.p + 1 } := by
    rcases here with rfl | ⟨-, past⟩
    · cases parseByte_moved moved with
      | begun same =>
        refine .inr ⟨rfl, ?_⟩
        by_contra inside
        simp only [form, List.length_append, List.length_cons, List.length_nil] at inside
        have seven : b.mem (b.pos + 5) = 57 := begins 5 (by decide) (by omega)
        rw [form] at same
        simp [startsWith, Nat.add_assoc, seven] at same
      | carriage line => exact absurd rfl line.2.2
    · omega
  have parsed : parseMessage rc b = (.ok, (parseMessage rc b).2) := by rw [← ok]
  obtain ⟨c, p, here, -, -, -, -, round⟩ := parse_ok_round kept (.inl (by rw [state])) parsed
  obtain ⟨-, -, -, bad | ⟨bad, -⟩⟩ := parseByte_done round
  all_goals
    rcases here with rfl | ⟨state, -⟩
    · cases bad
    · rw [state] at bad
      cases bad

/-- A value goes on into the new stream, so that the message it yields is not empty. -/
theorem value_not_empty (begins : b.Begins) (state : rc.state = .messageValue)
    (started : rc.messageStart ≤ b.pos) (parsed : parseMessage rc b = (.ok, rc', b')) :
    rc'.messageStart < rc'.messageEnd := by
  let I (c : Cursor) : Prop :=
    c.state = .messageValue ∧ c.rc.messageStart = rc.messageStart ∧ b.pos ≤ c.p
  have kept {c c' : Cursor} (here : I c) (before : c.p < b.last)
      (moved : parseByte b.mem c = .ok c') : I { c' with p := c'.p + 1 } := by
    obtain ⟨state, same, le⟩ := here
    cases parseByte_moved moved with
    | carriage => exact ⟨state, same, Nat.le_succ_of_le le⟩
    | counted | searched => exact ⟨rfl, same, Nat.le_succ_of_le le⟩
    | _ => cases state
  obtain ⟨c, p, ⟨state, same, le⟩, before, -, -, -, round⟩ :=
    parse_ok_round kept ⟨state, rfl, le_refl _⟩ parsed
  obtain ⟨progress', state'⟩ := rc'
  obtain ⟨mem, pos, last⟩ := b'
  cases parseByte_completed round with
  | error => cases state
  | @message _ p _ feed =>
    simp only at same le before ⊢
    -- the first two bytes are no line feed
    have two : b.pos + 2 ≤ p := by
      by_contra near
      obtain ⟨i, rfl⟩ := Nat.exists_eq_add_of_le le
      have few : i < 2 := by omega
      have head := begins i (by simp only [streamHead, List.length_cons]; omega) before
      rw [feed.1] at head
      interval_cases i <;> simp [streamHead, lf] at head
    omega

/-- After the first state of the parser, the beginning of a stream yields no empty message. -/
theorem stale_call (ready : rc.Ready) (known : Cursor.Known ⟨rc.toProgress, rc.state, b.pos⟩)
    (begins : b.Begins) (stale : rc.state ≠ .start) (parsed : parseMessage rc b = (.ok, rc', b'))
    (quiet : rc'.error = false) : (extracted b'.mem rc'.toProgress).bytes ≠ [] := by
  have ok : (parseMessage rc b).1 = .ok := by rw [parsed]
  have star (before : b.pos < b.last) : b.mem b.pos = 42 := begins 0 (by decide) before
  obtain ⟨progress, state⟩ := rc
  cases state with
  | start => exact (stale rfl).elim
  | messageValue =>
    have longer := value_not_empty begins rfl (known.started rfl) parsed
    intro empty
    have width := congrArg List.length empty
    simp only [extracted, cells_length, List.length_nil] at width
    omega
  | error =>
    have set : progress.error = true := ready b.pos
    obtain ⟨c, p, here, -, -, -, -, round⟩ := parse_ok_round
      (I := fun c => c.state = .error ∧ c.rc.error = true)
      (fun {c c'} here _ moved => by
        obtain ⟨state, error⟩ := here
        cases parseByte_moved moved with
        | carriage => exact ⟨state, error⟩
        | errorByte => exact ⟨rfl, error⟩
        | _ => cases state) ⟨rfl, set⟩ parsed
    have same := (parseByte_done round).2.1
    rw [here.2, quiet] at same
    cases same
  | subscribeChannelName => exact (name_yields_nothing begins rfl ok).elim
  | message =>
    have formatted := known.formatted.resolve_left (ready b.pos)
    exact (message_yields_nothing begins rfl formatted ok).elim
  | _ =>
    refine (refused_yields_nothing (by simp) (fun before c moved => ?_) ok).elim
    have here := star before
    simp [parseByte, here, startsWith, subscribePrefix, bytes, cr, lf, Decimal.isDigit] at moved

end Stale

def emptyBulk : Bulk := ⟨[], by decide⟩

def probe : List UInt8 := qmxjChannel.stream 1 [emptyBulk]

def probing : List Input := [⟨some probe, true⟩, ⟨none, true⟩]

section Afresh

variable {s : Process}

theorem probe_short : probe.length ≤ redisBufferSize := by decide +kernel

theorem probe_head : probe.take streamHead.length = streamHead := by decide +kernel

theorem probe_ne_nil : probe ≠ [] := by
  intro empty
  have head := probe_head
  rw [empty] at head
  cases head

theorem probe_starts {i : Nat} (inside : i < streamHead.length) (short : i < probe.length) :
    probe[i] = streamHead[i] := by
  have eq : streamHead[i]? = (probe.take streamHead.length)[i]? := by rw [probe_head]
  rw [List.getElem?_take_of_lt inside, List.getElem?_eq_getElem inside,
    List.getElem?_eq_getElem short] at eq
  exact (Option.some.inj eq).symm

theorem probe_holds (mem : Nat → UInt8) : Holds (Resumable.store mem 0 probe) 0 probe :=
  store_holds mem 0 probe

/-- A new process that receives the probe stores it whole. -/
theorem initial_read (mem : Nat → UInt8) : (Process.initial mem).step ⟨some probe, true⟩ =
    ⟨.fresh, ⟨Resumable.store mem 0 probe, 0, probe.length⟩, [], .top⟩ := by
  have whole : probe.take (redisBufferSize - 0) = probe := List.take_of_length_le probe_short
  simp only [Process.step, Process.initial, Process.read, Option.getD_some, whole, if_neg probe_ne_nil,
    Buffer.received, Nat.zero_add]

theorem initial_received (mem : Nat → UInt8) : received (Process.initial mem) probing = probe := by
  have whole : probe.take (redisBufferSize - 0) = probe := List.take_of_length_le probe_short
  have first : (Process.initial mem).taken ⟨some probe, true⟩ = probe := whole
  rw [probing, Redis.received, Redis.received, Redis.received, initial_read, first]
  simp [Process.taken]

/-- The new process publishes the empty message. -/
theorem initial_publishes (mem : Nat → UInt8) :
    ((Process.initial mem).run probing).published.map Extracted.bytes = [[]] := by
  have small : ∀ w ∈ [emptyBulk], w.payload.length ≤ 256 := by simp [emptyBulk]
  obtain ⟨os, c, path, stop, payloads, -⟩ := stream_path 1 small (probe_holds mem)
  obtain ⟨o, rfl⟩ : ∃ o, os = [o] := by
    have count := congrArg List.length payloads
    exact List.length_eq_one_iff.mp (by simpa using count)
  let b : Buffer := ⟨Resumable.store mem 0 probe, 0, probe.length⟩
  have ready : Cursor.Ready ⟨Connection.fresh.toProgress, Connection.fresh.state, b.pos⟩ := trivial
  obtain ⟨progress, p, call, quiet, output, -⟩ :=
    parse_path_ok (b := b) ready path (stop.trans (Nat.zero_add _)).le
  have kept : maintained .fresh b = b := rfl
  have turned : Process.turn ⟨.fresh, b, [], .top⟩ =
      ⟨{ toProgress := { progress with parseDone := true, parseStart := p }, state := .message },
        { b with pos := p }, [o], .top⟩ := by
    simp [Process.turn, kept, call, quiet, output]
  have run : (Process.initial mem).run probing = Process.turn ⟨.fresh, b, [], .top⟩ := by
    simp only [Process.run, probing, List.foldl_cons, List.foldl_nil, initial_read]
    rfl
  rw [run, turned]
  simpa [emptyBulk] using payloads

/-- A process whose parser has left its first state does not. -/
theorem stale_publishes (known : s.Known) (call : s.location = .call)
    (used : s.buffer.pos = s.buffer.last) (stale : s.rc.state ≠ .start) :
    (s.run probing).published.map Extracted.bytes ≠ s.published.map Extracted.bytes ++ [[]] := by
  have running : s.location ≠ .exited := by simp [call]
  have quiet (xs : List (List UInt8)) : xs ≠ xs ++ [[]] := by simp
  let piece := probe.take (redisBufferSize - s.buffer.last)
  have read : s.step ⟨some probe, true⟩ =
      if piece = [] then { s with location := .top }
      else { s with buffer := s.buffer.received piece, location := .top } := by
    simp [Process.step, call, Process.read, piece]
  obtain ⟨b, same, begins, top⟩ : ∃ b : Buffer, b.pos = s.buffer.pos ∧
      b.Begins ∧ s.step ⟨some probe, true⟩ = { s with buffer := b, location := .top } := by
    by_cases nothing : piece = []
    · exact ⟨s.buffer, rfl, fun i _ inside => by omega, by rw [read, if_pos nothing]⟩
    · refine ⟨s.buffer.received piece, rfl, fun i inside below => ?_, by rw [read, if_neg nothing]⟩
      have here : i < piece.length := by
        simp only [Buffer.received, used] at below
        omega
      have stored := store_holds s.buffer.mem s.buffer.last piece i here
      simp only [Buffer.received, used]
      rw [stored]
      simp only [piece, List.getElem_take]
      exact probe_starts inside _
  have ready := (known.invariant.reachable running).ready
  have cursor := known.cursor running
  rw [← same] at cursor
  have run : s.run probing = Process.turn { s with buffer := b, location := .top } := by
    simp only [Process.run, probing, List.foldl_cons, List.foldl_nil, top]
    rfl
  have kept : maintained s.rc b = b := known.maintained_eq call used same
  rw [run, Process.turn, kept]
  split
  · rename_i rc b' parsed
    cases error : rc.error with
    | true => simp
    | false =>
      have some := stale_call ready cursor begins stale parsed error
      simpa [error] using some
  · exact quiet _
  · exact quiet _

end Afresh

/-- A reconnection that hits the parser in its first state is as good as a new process; where
the parser stands at the end of the input, no other is. -/
theorem reconnect_afresh_iff (mem : Nat → UInt8) (inputs : List Input)
    (call : ((Process.initial mem).run inputs).location = .call) :
    (((Process.initial mem).run inputs).rc.state = .start →
        ((Process.initial mem).run inputs).Afresh) ∧
      (((Process.initial mem).run inputs).buffer.pos ≤
          ((Process.initial mem).run inputs).buffer.last →
        ((Process.initial mem).run inputs).Afresh →
        ((Process.initial mem).run inputs).rc.state = .start) := by
  have known := run_known (initial_known mem) inputs
  have running : ((Process.initial mem).run inputs).location ≠ .exited := by simp [call]
  generalize (Process.initial mem).run inputs = s at *
  constructor
  · intro start
    obtain ⟨rc, published, pos, last⟩ := known.unread running start
    have last := last call
    have same := known.reconnected_eq call (pos.trans last.symm)
    have initial : s = Process.initial s.buffer.mem := by
      obtain ⟨rc', ⟨mem', pos', last'⟩, published', location⟩ := s
      simp only at rc published pos last call
      rw [rc, published, pos, last, call]
      rfl
    intro ch clients ws _ later _
    rw [same, ← initial]
    simp [published]
  · intro inside afresh
    have used := Nat.le_antisymm inside (known.waits call)
    by_contra stale
    have arrives : received (Process.initial s.buffer.mem) probing <+: qmxjChannel.stream 1 [emptyBulk] := by
      rw [initial_received, probe]
    have same := (afresh qmxjChannel 1 [emptyBulk] (by simp [emptyBulk]) probing arrives).1
    rw [known.reconnected_eq call used, initial_publishes] at same
    exact stale_publishes known call used stale same

def listening : Process :=
  (Process.initial fun _ => 0).run [⟨some (qmxjChannel.subscribeReply 1), true⟩, ⟨none, true⟩]

theorem reconnect_afresh_listening :
    (listening.rc.state = .start → listening.Afresh) ∧
      (listening.buffer.pos ≤ listening.buffer.last → listening.Afresh →
        listening.rc.state = .start) :=
  reconnect_afresh_iff (fun _ => 0) [⟨some (qmxjChannel.subscribeReply 1), true⟩, ⟨none, true⟩]
    (by decide +kernel)

/-- The new subscribe reply is refused, and the process exits. -/
theorem reconnect_refused :
    listening.location = .call ∧ listening.buffer.pos = listening.buffer.last ∧
      (listening.reconnected.run probing).location = .exited ∧ ¬ listening.Afresh := by
  have run : listening.location = .call ∧ listening.buffer.pos = listening.buffer.last ∧
      (listening.reconnected.run probing).location = .exited ∧
      (listening.reconnected.run probing).published.length = 0 := by decide +kernel
  refine ⟨run.1, run.2.1, run.2.2.1, fun afresh => ?_⟩
  have same := (afresh qmxjChannel 1 [emptyBulk] (by simp [emptyBulk]) probing
    (by rw [initial_received, probe])).1
  have lengths := congrArg List.length same
  rw [initial_publishes] at lengths
  simp [run.2.2.2] at lengths

end Ngx.Redis
