import Ngx.RedisRecord

/-! The process that reads from the redis server. `ngx_process_websocket_messages` is called
over and over; a step here is one read, or one turn of its loop, with what the system answers
as the input of the step. -/
namespace Ngx.Redis

open Resumable

/-- `buffer->end - buffer->start`, `NGX_REDIS_BUFFER_SIZE`. -/
def redisBufferSize : Nat := 1024

/-- What the system answers to one read: the bytes that have arrived, or no data because the
server closed the connection or an error occurred; and whether the program could then
connect and subscribe again. -/
structure Input where
  arrived : Option (List UInt8)
  reconnected : Bool

inductive Location where
  | call
  | top
  | exited
  deriving DecidableEq, Repr

/-- `cycle->redis` with its buffer, the messages published so far, and the place reached:
before the next call, at the top of the loop with `ret` other than `NGX_AGAIN`, or exited. -/
structure Process where
  rc : Connection
  buffer : Buffer
  published : List Extracted
  location : Location

/-- `ngx_redis_read_message` and the reconnection after it. A `recv` without room yields 0. -/
def Process.read (s : Process) (input : Input) : Process :=
  let piece := (input.arrived.getD []).take (redisBufferSize - s.buffer.last)
  if piece = [] then { s with location := if input.reconnected then .top else .exited }
  else { s with buffer := s.buffer.received piece, location := .top }

/-- `memcpy(rc->parse_start, rc->buffer->start, rc->buffer->last - rc->parse_start)`. -/
def copied (rc : Connection) (b : Buffer) : Buffer :=
  let n := (b.last + 2 ^ 64 - rc.parseStart) % 2 ^ 64
  { b with mem := fun i =>
      if rc.parseStart ≤ i ∧ i < rc.parseStart + n then b.mem (i - rc.parseStart) else b.mem i }

def littleRoom (rc : Connection) (b : Buffer) : Bool :=
  rc.parseDone && decide ((redisBufferSize : Int) - b.pos <
    (websocketMaxMessageLength : Int) - rc.channelMessagePrefix.length)

def maintained (rc : Connection) (b : Buffer) : Buffer :=
  if littleRoom rc b then copied rc b else b

def resetIfDone (rc : Connection) (b : Buffer) : Buffer :=
  if b.pos = b.last ∧ rc.parseDone then { b with pos := 0, last := 0 } else b

/-- One turn of the loop, entered with `ret` other than `NGX_AGAIN`. -/
def Process.turn (s : Process) : Process :=
  match parseMessage s.rc (maintained s.rc s.buffer) with
  | (.ok, rc, b) =>
    if rc.error then { s with rc, buffer := b, location := .exited }
    else
      { rc := { rc with parseDone := true, parseStart := b.pos }
        buffer := b
        published := s.published ++ [extracted b.mem rc.toProgress]
        location := .top }
  | (.again, rc, b) => { s with rc, buffer := resetIfDone rc b, location := .call }
  | (_, rc, b) => { s with rc, buffer := b, location := .exited }

def Process.step (s : Process) (input : Input) : Process :=
  match s.location with
  | .call => s.read input
  | .top => s.turn
  | .exited => s

def Process.run (s : Process) (inputs : List Input) : Process := inputs.foldl Process.step s

/-- The process after `ngx_redis_init_connection`; the buffer's memory is not cleared. -/
def Process.initial (mem : Nat → UInt8) : Process := ⟨.fresh, ⟨mem, 0, 0⟩, [], .call⟩

section Parser

variable {rc rc' : Connection} {b b' : Buffer}

theorem parseByte_marks {mem : Nat → UInt8} {c c' : Cursor} (ok : parseByte mem c = .ok c') :
    c'.rc.parseStart = c.rc.parseStart ∧ c'.rc.parseDone = false := by
  cases parseByte_moved ok <;> exact ⟨rfl, rfl⟩

/-- A call that waits for more input moves `pos` only, and clears `parse_done` if it moved. -/
theorem parse_again (ready : rc.Ready) (parsed : parseMessage rc b = (.again, rc', b')) :
    b'.mem = b.mem ∧ b'.last = b.last ∧ b.pos ≤ b'.pos ∧ rc'.Ready ∧
      (rc'.parseDone = false ∨ rc' = rc ∧ b' = b) := by
  let I (c : Cursor) : Prop := c.Ready ∧ b.pos ≤ c.p ∧
    (c.rc.parseDone = false ∨ c = ⟨rc.toProgress, rc.state, b.pos⟩)
  have kept {c c' : Cursor} (h : I c) (_ : c.p < b.last) (moved : parseByte b.mem c = .ok c') :
      I { c' with p := c'.p + 1 } := by
    obtain ⟨next, reach⟩ := parseByte_ok h.1 moved
    have forward : c.p < c.reach := machine.forward h.1
    have further : b.pos ≤ c'.p + 1 := by
      have := h.2.1
      omega
    exact ⟨next, further, .inl (parseByte_marks moved).2⟩
  obtain ⟨⟨next, further, marks⟩, mem, last, -⟩ :=
    parse_again_rounds kept ⟨ready b.pos, le_refl _, .inr rfl⟩ parsed
  refine ⟨mem, last, further, fun _ => next, marks.imp_right fun same => ?_⟩
  obtain ⟨progress, state⟩ := rc'
  obtain ⟨mem', pos, last'⟩ := b'
  cases same
  cases mem
  cases last
  exact ⟨rfl, rfl⟩

/-- A call that yields a message stops behind it, within the input. -/
theorem parse_ok (ready : rc.Ready) (parsed : parseMessage rc b = (.ok, rc', b'))
    (quiet : rc'.error = false) :
    b'.mem = b.mem ∧ b'.last = b.last ∧ b.pos ≤ b'.pos ∧ b'.pos ≤ b'.last ∧ rc'.Ready := by
  have next : (parseMessage rc b).2.1.Ready := by
    apply parseMessage_ready ready
    rw [parsed]
    exact .inr ⟨rfl, quiet⟩
  rw [parsed] at next
  have kept {c c' : Cursor} (h : c.Ready ∧ b.pos ≤ c.p) (_ : c.p < b.last)
      (moved : parseByte b.mem c = .ok c') :
      Cursor.Ready { c' with p := c'.p + 1 } ∧ b.pos ≤ c'.p + 1 := by
    obtain ⟨next, reach⟩ := parseByte_ok h.1 moved
    have forward : c.p < c.reach := machine.forward h.1
    exact ⟨next, by omega⟩
  obtain ⟨c, p, ⟨here, further⟩, before, pos, last, -, round⟩ :=
    parse_ok_round kept ⟨ready _, le_refl _⟩ parsed
  obtain ⟨rfl, error, -, place⟩ := parseByte_done round
  rcases place with bad | ⟨-, mem, -⟩
  · have set : c.rc.error = true := by simpa only [Cursor.Ready, bad] using here
    rw [← error, quiet] at set
    cases set
  · exact ⟨mem, last, by omega, by omega, next⟩

end Parser

def unparsed (b : Buffer) : List UInt8 := cells b.mem b.pos b.last

/-- At the top of the loop, neither the move nor a reset later in the turn changes what is
not yet parsed. -/
def Process.Keeps (s : Process) : Prop :=
  unparsed (maintained s.rc s.buffer) = unparsed s.buffer ∧
    ∀ rc b, parseMessage s.rc (maintained s.rc s.buffer) = (.again, rc, b) →
      unparsed (resetIfDone rc b) = unparsed b

/-- The move is made, and the start of the buffer does not repeat the unparsed bytes. -/
def Process.Clobbers (s : Process) : Prop :=
  littleRoom s.rc s.buffer = true ∧
    cells s.buffer.mem 0 (s.buffer.last - s.buffer.pos) ≠ unparsed s.buffer

structure Process.Invariant (s : Process) : Prop where
  reachable : s.location ≠ .exited → Reachable s.rc
  marked : s.location ≠ .exited → s.rc.parseDone = true →
    s.buffer.pos = 0 ∨ s.rc.parseStart = s.buffer.pos ∧ s.buffer.pos ≤ s.buffer.last
  room : s.buffer.last ≤ redisBufferSize

section Maintenance

variable {rc : Connection} {b : Buffer} {s : Process}

@[simp] theorem maintained_pos (rc : Connection) (b : Buffer) : (maintained rc b).pos = b.pos := by
  rw [maintained]
  split <;> rfl

@[simp] theorem maintained_last (rc : Connection) (b : Buffer) :
    (maintained rc b).last = b.last := by
  rw [maintained]
  split <;> rfl

theorem unparsed_reset (rc : Connection) (b : Buffer) : unparsed (resetIfDone rc b) = unparsed b := by
  rw [resetIfDone]
  split
  · rename_i done
    simp [unparsed, cells, done.1]
  · rfl

/-- The arguments of the move are swapped: the start of the buffer is copied over the tail. -/
theorem unparsed_copied (start : rc.parseStart = b.pos) (inside : b.pos ≤ b.last)
    (room : b.last ≤ redisBufferSize) :
    unparsed (copied rc b) = cells b.mem 0 (b.last - b.pos) := by
  have count : (b.last + 2 ^ 64 - b.pos) % 2 ^ 64 = b.last - b.pos := by
    simp only [redisBufferSize] at room
    omega
  simp only [unparsed, copied, cells, start, count, Nat.sub_zero]
  apply List.map_congr_left
  intro k member
  have := List.mem_range.mp member
  rw [if_pos (by omega)]
  congr 1
  omega

/-- Room is short only where `parse_start` still marks `pos`. -/
theorem Process.Invariant.short (inv : s.Invariant) (running : s.location ≠ .exited)
    (little : littleRoom s.rc s.buffer = true) :
    s.rc.parseStart = s.buffer.pos ∧ s.buffer.pos ≤ s.buffer.last := by
  obtain ⟨done, small⟩ := Bool.and_eq_true_iff.mp little
  have small := of_decide_eq_true small
  simp only [redisBufferSize, websocketMaxMessageLength] at small
  rcases inv.marked running done with zero | marks
  · rw [zero] at small
    omega
  · exact marks

theorem keeps_iff (inv : s.Invariant) (running : s.location ≠ .exited) :
    s.Keeps ↔ ¬ s.Clobbers := by
  have move : unparsed (maintained s.rc s.buffer) = unparsed s.buffer ↔ ¬ s.Clobbers := by
    rw [maintained, Process.Clobbers]
    cases little : littleRoom s.rc s.buffer with
    | false => simp
    | true =>
      obtain ⟨start, inside⟩ := inv.short running little
      simp [unparsed_copied start inside inv.room]
  rw [Process.Keeps, move]
  exact and_iff_left fun rc b _ => unparsed_reset rc b

theorem read_preserves (inv : s.Invariant) (call : s.location = .call) (input : Input) :
    (s.read input).Invariant := by
  have running : s.location ≠ .exited := by simp [call]
  rw [Process.read]
  split
  · exact ⟨fun _ => inv.reachable running, fun _ => inv.marked running, inv.room⟩
  · have short := List.length_take_le (redisBufferSize - s.buffer.last) (input.arrived.getD [])
    have room := inv.room
    refine ⟨fun _ => inv.reachable running, fun _ done => ?_, ?_⟩
    · rcases inv.marked running done with zero | ⟨start, inside⟩
      · exact .inl zero
      · exact .inr ⟨start, Nat.le_add_right_of_le inside⟩
    · simp only [Buffer.received]
      omega

theorem parseMessage_last (rc : Connection) (b : Buffer) :
    (parseMessage rc b).2.2.last = b.last := by
  rw [parseMessage]
  split <;> rfl

/-- What a turn of the loop can do. -/
theorem turn_cases (s : Process) :
    (∃ rc b, parseMessage s.rc (maintained s.rc s.buffer) = (.ok, rc, b) ∧ rc.error = false ∧
      s.turn = ⟨{ rc with parseDone := true, parseStart := b.pos }, b,
        s.published ++ [extracted b.mem rc.toProgress], .top⟩) ∨
    (∃ rc b, parseMessage s.rc (maintained s.rc s.buffer) = (.again, rc, b) ∧
      s.turn = ⟨rc, resetIfDone rc b, s.published, .call⟩) ∨
    s.turn.location = .exited ∧ s.turn.buffer.last = s.buffer.last := by
  have last := parseMessage_last s.rc (maintained s.rc s.buffer)
  rw [maintained_last] at last
  rw [Process.turn]
  split
  · rename_i rc b parsed
    rw [parsed] at last ⊢
    cases error : rc.error with
    | true => exact .inr (.inr ⟨rfl, last⟩)
    | false => exact .inl ⟨rc, b, rfl, error, by simp [error]⟩
  · rename_i rc b parsed
    exact .inr (.inl ⟨rc, b, parsed, rfl⟩)
  · rename_i rc b _ _ parsed
    rw [parsed] at last
    exact .inr (.inr ⟨rfl, last⟩)

theorem reachable_parse {code : Code} {rc' : Connection} {b' : Buffer} (reachable : Reachable rc)
    (parsed : parseMessage rc b = (code, rc', b')) (goesOn : GoesOn (code, rc', b')) :
    Reachable rc' := by
  have reached := Reachable.parse b reachable (parsed ▸ goesOn)
  rwa [parsed] at reached

theorem turn_preserves_marks (inv : s.Invariant) (top : s.location = .top) : s.turn.Invariant := by
  have running : s.location ≠ .exited := by simp [top]
  have reachable := inv.reachable running
  have room := inv.room
  rcases turn_cases s with ⟨rc, b, parsed, quiet, eq⟩ | ⟨rc, b, parsed, eq⟩ | ⟨exited, last⟩
  · obtain ⟨-, last, -, inside, -⟩ := parse_ok reachable.ready parsed quiet
    have next := reachable_parse reachable parsed (.inr ⟨rfl, quiet⟩)
    rw [maintained_last] at last
    rw [eq]
    exact ⟨fun _ => .marked _ _ next, fun _ _ => .inr ⟨rfl, inside⟩, last.trans_le room⟩
  · obtain ⟨-, last, -, -, marks⟩ := parse_again reachable.ready parsed
    have next := reachable_parse reachable parsed (.inl rfl)
    rw [maintained_last] at last
    rw [eq]
    refine ⟨fun _ => next, fun _ done => ?_, ?_⟩
    · simp only [resetIfDone] at done ⊢
      split
      · exact .inl rfl
      · rcases marks with bad | ⟨rfl, rfl⟩
        · rw [bad] at done
          cases done
        · rw [maintained_pos, maintained_last]
          exact inv.marked running done
    · simp only [resetIfDone]
      split
      · exact Nat.zero_le _
      · exact last.trans_le room
  · exact ⟨fun bad => (bad exited).elim, fun bad => (bad exited).elim, last.trans_le room⟩

theorem step_keeps_invariant (inv : s.Invariant) (input : Input) : (s.step input).Invariant := by
  rw [Process.step]
  split
  · exact read_preserves inv ‹_› input
  · exact turn_preserves_marks inv ‹_›
  · exact inv

theorem run_keeps_invariant (inv : s.Invariant) (inputs : List Input) :
    (s.run inputs).Invariant := by
  induction inputs generalizing s with
  | nil => exact inv
  | cons input rest ih => exact ih (step_keeps_invariant inv input)

theorem initial_keeps_invariant (mem : Nat → UInt8) : (Process.initial mem).Invariant :=
  ⟨fun _ => .fresh, fun _ _ => .inl rfl, Nat.zero_le _⟩

end Maintenance

def Process.taken (s : Process) (input : Input) : List UInt8 :=
  match s.location with
  | .call => (input.arrived.getD []).take (redisBufferSize - s.buffer.last)
  | _ => []

def Process.advanced (s : Process) : Nat :=
  match s.location with
  | .top => (parseMessage s.rc (maintained s.rc s.buffer)).2.2.pos - s.buffer.pos
  | _ => 0

def received : Process → List Input → List UInt8
  | _, [] => []
  | s, input :: rest => s.taken input ++ received (s.step input) rest

def parsed : Process → List Input → Nat
  | _, [] => 0
  | s, input :: rest => s.advanced + parsed (s.step input) rest

/-- The buffer holds what was received but for the first `done` bytes. -/
structure Accounted (stream : List UInt8) (done : Nat) (b : Buffer) : Prop where
  bytes : unparsed b = stream.drop done
  count : done + b.last = stream.length + b.pos

section Stream

variable {stream : List UInt8} {done : Nat} {b : Buffer} {s : Process}

theorem Accounted.received (h : Accounted stream done b) (piece : List UInt8) :
    Accounted (stream ++ piece) done (b.received piece) := by
  obtain ⟨bytes, count⟩ := h
  refine ⟨?_, ?_⟩
  · simp only [unparsed, Buffer.received] at bytes ⊢
    by_cases inside : b.pos ≤ b.last
    · have before : done ≤ stream.length := by omega
      rw [← cells_append _ inside (Nat.le_add_right _ _), cells_store_front, cells_store_piece,
        bytes, List.drop_append_of_le_length before]
    · obtain ⟨k, past⟩ : ∃ k, b.pos = b.last + k := ⟨b.pos - b.last, by omega⟩
      have beyond : done = stream.length + k := by omega
      have none : stream.drop (stream.length + k) = [] := List.drop_eq_nil_of_le (by omega)
      rw [past, beyond, cells_drop, cells_store_piece, List.drop_append, none,
        Nat.add_sub_cancel_left, List.nil_append]
  · simp only [Buffer.received, List.length_append]
    omega

theorem Accounted.moved {b' : Buffer} (h : Accounted stream done b) (mem : b'.mem = b.mem)
    (last : b'.last = b.last) (le : b.pos ≤ b'.pos) :
    Accounted stream (done + (b'.pos - b.pos)) b' := by
  obtain ⟨bytes, count⟩ := h
  have further : b'.pos = b.pos + (b'.pos - b.pos) := by omega
  refine ⟨?_, by omega⟩
  rw [← List.drop_drop, ← bytes, unparsed, unparsed, mem, last, further, cells_drop]
  simp

theorem Accounted.reset (h : Accounted stream done b) (rc : Connection) :
    Accounted stream done (resetIfDone rc b) := by
  refine ⟨(unparsed_reset rc b).trans h.bytes, ?_⟩
  have count := h.count
  rw [resetIfDone]
  split
  · simp only
    omega
  · exact count

theorem step_accounted (inv : s.Invariant) (clean : s.location = .top → ¬ s.Clobbers)
    (h : s.location ≠ .exited → Accounted stream done s.buffer) (input : Input)
    (running : (s.step input).location ≠ .exited) :
    Accounted (stream ++ s.taken input) (done + s.advanced) (s.step input).buffer := by
  rw [Process.step, Process.taken, Process.advanced] at *
  cases place : s.location with
  | exited =>
    simp only [place] at running
    exact (running rfl).elim
  | call =>
    have account := h (by simp [place])
    simp only [Process.read, Nat.add_zero]
    split
    · rename_i nothing
      simpa [nothing] using account
    · exact account.received _
  | top =>
    have account := h (by simp [place])
    have alive : s.location ≠ .exited := by simp [place]
    have kept := ((keeps_iff inv alive).mpr (clean place)).1
    have account : Accounted stream done (maintained s.rc s.buffer) :=
      ⟨kept.trans account.bytes, by simpa using account.count⟩
    have ready := (inv.reachable alive).ready
    simp only [place, List.append_nil] at running ⊢
    rcases turn_cases s with ⟨rc, b, found, quiet, eq⟩ | ⟨rc, b, found, eq⟩ | ⟨exited, -⟩
    · obtain ⟨mem, last, le, -⟩ := parse_ok ready found quiet
      have moved := account.moved mem last le
      rw [maintained_pos] at moved
      rw [eq, found]
      exact moved
    · obtain ⟨mem, last, le, -⟩ := parse_again ready found
      have moved := (account.moved mem last le).reset rc
      rw [maintained_pos] at moved
      rw [eq, found]
      exact moved
    · exact (running exited).elim

theorem run_accounted (inv : s.Invariant) (inputs : List Input)
    (clean : ∀ before, before <+: inputs → (s.run before).location = .top →
      ¬ (s.run before).Clobbers)
    (h : s.location ≠ .exited → Accounted stream done s.buffer)
    (running : (s.run inputs).location ≠ .exited) :
    Accounted (stream ++ received s inputs) (done + parsed s inputs) (s.run inputs).buffer := by
  induction inputs generalizing s stream done with
  | nil => simpa [received, parsed, Process.run] using h running
  | cons input rest ih =>
    have here : s.location = .top → ¬ s.Clobbers := clean [] (List.nil_prefix)
    have later := ih (step_keeps_invariant inv input)
      (fun before isPrefix => clean (input :: before) (List.cons_prefix_cons.mpr ⟨rfl, isPrefix⟩))
      (step_accounted inv here h input) running
    rw [List.append_assoc, Nat.add_assoc] at later
    exact later

end Stream

/-- The maintenance of the buffer keeps the unparsed bytes exactly where it clobbers none; in
a run without such a turn the buffer always holds the received stream from the parser on. -/
theorem maintenance_keeps_unparsed (mem : Nat → UInt8) (inputs : List Input) :
    (∀ before, before <+: inputs → ((Process.initial mem).run before).location = .top →
      (((Process.initial mem).run before).Keeps ↔ ¬ ((Process.initial mem).run before).Clobbers)) ∧
    ((∀ before, before <+: inputs → ((Process.initial mem).run before).location = .top →
        ¬ ((Process.initial mem).run before).Clobbers) →
      ((Process.initial mem).run inputs).location ≠ .exited →
      unparsed ((Process.initial mem).run inputs).buffer =
        (received (Process.initial mem) inputs).drop (parsed (Process.initial mem) inputs)) := by
  have inv := initial_keeps_invariant mem
  refine ⟨fun before _ top => ?_, fun clean running => ?_⟩
  · exact keeps_iff (run_keeps_invariant inv before) (by simp [top])
  · have start : Accounted [] 0 (Process.initial mem).buffer := ⟨rfl, rfl⟩
    have account := run_accounted inv inputs clean (fun _ => start) running
    simpa using account.bytes

def fullPayload : Bulk :=
  ⟨List.replicate 256 97, by rw [List.length_replicate]; decide⟩

/-- The process after one read that fills the buffer with a reply and records of this size,
and after the three records that are complete in it. -/
def crowded : Process :=
  (Process.initial fun _ => 0).run
    [⟨some (qmxjChannel.stream 1 [fullPayload, fullPayload, fullPayload, fullPayload]), true⟩,
      ⟨none, true⟩, ⟨none, true⟩, ⟨none, true⟩]

/-- The start of the fourth record is overwritten with the subscribe reply, and the process
exits on it. -/
theorem maintenance_clobbers :
    crowded.location = .top ∧ crowded.published.length = 3 ∧ ¬ crowded.Keeps ∧
      (crowded.step ⟨none, true⟩).location = .exited := by
  have run : crowded.location = .top ∧ crowded.published.length = 3 ∧
      unparsed (maintained crowded.rc crowded.buffer) ≠ unparsed crowded.buffer ∧
      (crowded.step ⟨none, true⟩).location = .exited := by decide +kernel
  exact ⟨run.1, run.2.1, fun keeps => run.2.2.1 keeps.1, run.2.2.2⟩

end Ngx.Redis
