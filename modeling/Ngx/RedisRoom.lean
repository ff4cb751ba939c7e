import Ngx.RedisReconnect
import Mathlib.Data.List.Infix

/-! Room in the buffer for the next read. While no bytes are clobbered, the parser is on its way
through the stream that the server sends, and the buffer is reset where a read ends with the end
of a record. -/
namespace Ngx.Redis

open Resumable

/-- On a memory that holds what is left of a stream, the parser is on the way to the end of the
next record, or of the stream, which ends at `fin`. -/
def Ahead (ch : Channel) (mem : Nat → UInt8) (c : Cursor) : List Bulk → (fin : Nat) → Prop
  | [], fin => ∃ c', Path machine mem c [] c' ∧ AtRecord ch fin c'
  | _ :: ws, fin => ∃ c₁ c₂ o e, Path machine mem c [] c₁ ∧ step mem c₁ = .ok ([o], c₂) ∧
    AtRecord ch e c₂ ∧ Holds mem e (ws.map ch.record).flatten ∧
    fin = e + (ws.map ch.record).flatten.length

section Way

variable {ch : Channel} {mem whole : Nat → UInt8} {c c' : Cursor} {ws : List Bulk} {p last fin : Nat}

theorem Ahead.before {c₀ : Cursor} (path : Path machine mem c₀ [] c) (ahead : Ahead ch mem c ws fin) :
    Ahead ch mem c₀ ws fin := by
  cases ws with
  | nil =>
    obtain ⟨c', rest, place⟩ := ahead
    exact ⟨c', path.trans rest, place⟩
  | cons w ws =>
    obtain ⟨c₁, c₂, o, e, rest, later⟩ := ahead
    exact ⟨c₁, c₂, o, e, path.trans rest, later⟩

theorem AtRecord.ahead (place : AtRecord ch p c) (small : ∀ w ∈ ws, w.payload.length ≤ 256)
    (holds : Holds mem p (ws.map ch.record).flatten) :
    Ahead ch mem c ws (p + (ws.map ch.record).flatten.length) := by
  cases ws with
  | nil => exact ⟨c, .refl, by simpa using place⟩
  | cons w ws =>
    obtain ⟨record, rest⟩ := holds.split
    obtain ⟨c₁, c₂, o, jump, -, ⟨c₃, path, last⟩, -, -, next⟩ :=
      place.record (small w List.mem_cons_self) record
    have silent : Path machine mem c ([] ++ []) c₃ := .cons jump path
    exact ⟨c₃, c₂, o, _, silent, last, next, rest, by simp [Nat.add_assoc]⟩

theorem stream_ahead (clients : Nat) (small : ∀ w ∈ ws, w.payload.length ≤ 256)
    (holds : Holds mem 0 (ch.stream clients ws)) :
    Ahead ch mem .fresh ws (ch.stream clients ws).length := by
  obtain ⟨reply, records⟩ := holds.split
  obtain ⟨c₁, c₂, c₃, star, -, jump, -, crawl, place⟩ :=
    @reply_crawl mem Connection.fresh.toProgress 0 ch clients rfl reply
  have silent : Path machine mem .fresh ([] ++ ([] ++ [])) c₃ := star.path.trans (.cons jump crawl.path)
  have ahead := Ahead.before silent (place.ahead small records)
  simpa [Channel.stream] using ahead

/-- On a memory that agrees with the stream as far as the input goes, a round that has a result
does what it does on the stream. -/
theorem round_agrees {out : List Extracted} {c₁ : Cursor} (ready : c.Ready) (before : c.p < last)
    (same : ∀ i < last, mem i = whole i) (good : step whole c = .ok (out, c₁)) :
    (∀ c', parseByte mem c = .ok c' → out = [] ∧ c₁ = { c' with p := c'.p + 1 }) ∧
      ∀ rc p mem', parseByte mem c = .error (.done rc p mem') →
        (∃ o, out = [o]) ∧ c₁ = ⟨rc, .message, p + 1⟩ := by
  by_cases inside : c.reach ≤ last
  · have agree : step mem c = step whole c := step_looks ready fun i lt => same i (by omega)
    rw [good] at agree
    refine ⟨fun c' moved => ?_, fun rc p mem' done => ?_⟩
    · rw [step, moved] at agree
      cases agree
      exact ⟨rfl, rfl⟩
    · rw [step, done] at agree
      simp only at agree
      split at agree
      · cases agree
      · cases agree
        exact ⟨⟨_, rfl⟩, rfl⟩
  · -- only a prefix is compared beyond the input, and both comparisons have succeeded
    obtain ⟨rc, state, p⟩ := c
    cases state with
    | subscribe | message =>
      rcases step_cases good with ⟨rfl, c₂, there, rfl⟩ | ⟨rc₂, q, mem₂, there, -⟩
      · refine ⟨fun c' moved => ?_, fun rc' p' mem' done => ?_⟩
        · cases parseByte_moved moved with
          | carriage line => simp at line
          | _ =>
            cases parseByte_moved there with
            | carriage line => simp at line
            | _ => exact ⟨rfl, rfl⟩
        · obtain ⟨-, -, -, bad | ⟨bad, -⟩⟩ := parseByte_done done <;> cases bad
      · obtain ⟨-, -, -, bad | ⟨bad, -⟩⟩ := parseByte_done there <;> cases bad
    | _ =>
      simp only [Cursor.reach] at inside before
      omega

variable {rc : Connection} {b : Buffer}

/-- A round on a path that puts out nothing stays on it, unless the path is at its end. -/
theorem silent_kept {target : Cursor} (same : ∀ i < last, mem i = whole i)
    (here : c.Ready ∧ Path machine whole c [] target) (before : c.p < last)
    (further : c = target → ∀ c', parseByte mem c ≠ .ok c') (moved : parseByte mem c = .ok c') :
    Cursor.Ready { c' with p := c'.p + 1 } ∧
      Path machine whole { c' with p := c'.p + 1 } [] target := by
  obtain ⟨ready, path⟩ := here
  refine ⟨(parseByte_ok ready moved).1, ?_⟩
  generalize eq : [] = outputs at path
  cases path with
  | refl => exact (further rfl c' moved).elim
  | cons good rest =>
    obtain ⟨rfl, rfl⟩ := List.nil_eq_append_iff.mp eq
    obtain ⟨-, rfl⟩ := (round_agrees ready before same good).1 c' moved
    exact rest

/-- A message ends only where the path does. -/
theorem silent_done {target : Cursor} {progress : Progress} {q : Nat} {mem' : Nat → UInt8}
    (same : ∀ i < last, mem i = whole i) (ready : c.Ready) (path : Path machine whole c [] target)
    (before : c.p < last) (done : parseByte mem c = .error (.done progress q mem')) : c = target := by
  generalize eq : [] = outputs at path
  cases path with
  | refl => rfl
  | cons good rest =>
    obtain ⟨rfl, rfl⟩ := List.nil_eq_append_iff.mp eq
    obtain ⟨⟨o, bad⟩, -⟩ := (round_agrees ready before same good).2 _ _ _ done
    cases bad

/-- Before a message, the parser is on the way to the round that completes it. -/
theorem output_refuses {target next : Cursor} {o : Extracted} (ready : target.Ready)
    (same : ∀ i < last, mem i = whole i) (before : target.p < last)
    (output : step whole target = .ok ([o], next)) (c' : Cursor) : parseByte mem target ≠ .ok c' := by
  intro moved
  obtain ⟨bad, -⟩ := (round_agrees ready before same output).1 c' moved
  cases bad

/-- A call on the way that waits has gone further on it; one that succeeds has come to the end
of the record. -/
theorem Ahead.call (ready : rc.Ready) (same : ∀ i < b.last, b.mem i = whole i)
    (inside : b.last ≤ fin) (ahead : Ahead ch whole ⟨rc.toProgress, rc.state, b.pos⟩ ws fin) :
    (∀ {rc' b'}, parseMessage rc b = (.again, rc', b') →
      Ahead ch whole ⟨rc'.toProgress, rc'.state, b'.pos⟩ ws fin) ∧
    ∀ {rc' b'}, parseMessage rc b = (.ok, rc', b') → ∃ w rest, ws = w :: rest ∧
      AtRecord ch b'.pos ⟨rc'.toProgress, rc'.state, b'.pos⟩ ∧
      Holds whole b'.pos (rest.map ch.record).flatten ∧
      fin = b'.pos + (rest.map ch.record).flatten.length := by
  cases ws with
  | nil =>
    obtain ⟨target, path, place⟩ := ahead
    have kept {c c' : Cursor} (here : c.Ready ∧ Path machine whole c [] target) (before : c.p < b.last)
        (moved : parseByte b.mem c = .ok c') := silent_kept same here before (by
      rintro rfl
      have := place.position
      omega) moved
    refine ⟨fun {rc' b'} parsed => ?_, fun {rc' b'} parsed => ?_⟩
    · have round := parse_again_round ready kept ⟨ready _, path⟩ parsed
      exact ⟨target, round.1.2, place⟩
    · obtain ⟨c, p, here, before, -, -, -, done⟩ := parse_ok_round kept ⟨ready _, path⟩ parsed
      have stop := silent_done same here.1 here.2 before done
      have := place.position
      rw [stop] at before
      omega
  | cons w rest =>
    obtain ⟨target, next, o, e, path, output, place, holds, final⟩ := ahead
    have kept {c c' : Cursor} (here : c.Ready ∧ Path machine whole c [] target) (before : c.p < b.last)
        (moved : parseByte b.mem c = .ok c') := silent_kept same here before (by
      rintro rfl
      exact output_refuses here.1 same before output) moved
    refine ⟨fun {rc' b'} parsed => ?_, fun {rc' b'} parsed => ?_⟩
    · have round := parse_again_round ready kept ⟨ready _, path⟩ parsed
      exact ⟨target, next, o, e, round.1.2, output, place, holds, final⟩
    · obtain ⟨c, p, here, before, pos, -, state, done⟩ :=
        parse_ok_round kept ⟨ready _, path⟩ parsed
      have stop := silent_done same here.1 here.2 before done
      rw [stop] at before done
      obtain ⟨-, reached⟩ := (round_agrees (stop ▸ here.1) before same output).2 _ _ _ done
      have position : p + 1 = e := by
        have := place.position
        rw [reached] at this
        exact this
      rw [reached] at place
      rw [state, pos, position]
      exact ⟨w, rest, rfl, position ▸ place, holds, final⟩

end Way

def Channel.records (ch : Channel) (ws : List Bulk) : List UInt8 := (ws.map ch.record).flatten

/-- Where a run stands on a stream: the ends of the records `ws` have not been parsed yet, and
`future` has not arrived. -/
structure Process.Tracks (ch : Channel) (s : Process) (ws : List Bulk) (future : List UInt8)
    (whole : Nat → UInt8) : Prop where
  small : ∀ w ∈ ws, w.payload.length ≤ 256
  same : ∀ i < s.buffer.last, s.buffer.mem i = whole i
  arrives : Holds whole s.buffer.last future
  ahead : Ahead ch whole ⟨s.rc.toProgress, s.rc.state, s.buffer.pos⟩ ws
    (s.buffer.last + future.length)
  done : s.rc.parseDone = true → AtRecord ch s.buffer.pos ⟨s.rc.toProgress, s.rc.state, s.buffer.pos⟩ ∧
    Holds whole s.buffer.pos (ch.records ws) ∧
    s.buffer.last + future.length = s.buffer.pos + (ch.records ws).length

/-- There is room, or what has arrived ends with a record that is still to be parsed or was
parsed last. -/
def Process.Ends (ch : Channel) (s : Process) (ws : List Bulk) (future : List UInt8) : Prop :=
  s.buffer.last < redisBufferSize ∨ ∃ pending rest, ws = pending ++ rest ∧
    future = ch.records rest ∧
    (pending = [] → s.rc.parseDone = true ∧ s.buffer.pos = s.buffer.last)

section Tracks

variable {ch : Channel} {s : Process} {ws : List Bulk} {future piece : List UInt8}
  {whole : Nat → UInt8}

/-- A move that clobbers nothing leaves the buffer as it is. -/
theorem maintained_same (inv : s.Invariant) (running : s.location ≠ .exited) (clean : ¬ s.Clobbers)
    {i : Nat} (below : i < s.buffer.last) :
    (maintained s.rc s.buffer).mem i = s.buffer.mem i := by
  have kept := ((keeps_iff inv running).mpr clean).1
  rw [maintained] at kept ⊢
  split
  · rename_i little
    rw [if_pos little] at kept
    obtain ⟨start, inside⟩ := inv.short running little
    by_cases unread : s.buffer.pos ≤ i
    · have place := congrArg (fun xs => xs[i - s.buffer.pos]?) kept
      have width : i - s.buffer.pos < s.buffer.last - s.buffer.pos := by omega
      have back : s.buffer.pos + (i - s.buffer.pos) = i := by omega
      simpa [unparsed, copied, cells, width, back] using place
    · simp only [copied, start]
      rw [if_neg (by omega)]
  · rfl

/-- A read stores the next bytes of the stream. -/
theorem Process.Tracks.read (tracks : s.Tracks ch ws (piece ++ future) whole) :
    Process.Tracks ch { s with buffer := s.buffer.received piece, location := .top } ws future whole := by
  obtain ⟨small, same, arrives, ahead, done⟩ := tracks
  obtain ⟨here, later⟩ := arrives.split
  have length : s.buffer.last + (piece ++ future).length =
      s.buffer.last + piece.length + future.length := by
    simp [Nat.add_assoc]
  rw [length] at ahead done
  refine ⟨small, fun i below => ?_, later, ahead, done⟩
  exact (store_agrees (fun i lt => (same i lt).symm) here i below).symm

section Turn

variable {rc : Connection} {b : Buffer}

/-- A call with nothing unread changes nothing. -/
theorem parse_nothing (used : b.pos = b.last) : parseMessage rc b = (.again, rc, b) := by
  have none : b.last - b.pos = 0 := by omega
  simp [parseMessage, none, parseLoop]

theorem idle_turn (used : s.buffer.pos = s.buffer.last) :
    parseMessage s.rc (maintained s.rc s.buffer) = (.again, s.rc, maintained s.rc s.buffer) :=
  parse_nothing (by rw [maintained_pos, maintained_last, used])

/-- What the parser is given to read in a turn that clobbers nothing. -/
theorem Process.Tracks.inspect (known : s.Known) (top : s.location = .top) (clean : ¬ s.Clobbers)
    (tracks : s.Tracks ch ws future whole) :
    s.rc.Ready ∧ (∀ i < (maintained s.rc s.buffer).last, (maintained s.rc s.buffer).mem i = whole i) ∧
      Ahead ch whole ⟨s.rc.toProgress, s.rc.state, (maintained s.rc s.buffer).pos⟩ ws
        ((maintained s.rc s.buffer).last + future.length) := by
  have running : s.location ≠ .exited := by simp [top]
  have last : (maintained s.rc s.buffer).last = s.buffer.last := maintained_last _ _
  have pos : (maintained s.rc s.buffer).pos = s.buffer.pos := maintained_pos _ _
  refine ⟨(known.invariant.reachable running).ready, fun i below => ?_, ?_⟩
  · rw [last] at below
    exact (maintained_same known.invariant running clean below).trans (tracks.same i below)
  · rw [pos, last]
    exact tracks.ahead

/-- After a record the parser stands at the start of the next. -/
theorem Process.Tracks.publishes (known : s.Known) (top : s.location = .top) (clean : ¬ s.Clobbers)
    (tracks : s.Tracks ch ws future whole) (quiet : rc.error = false)
    (parsed : parseMessage s.rc (maintained s.rc s.buffer) = (.ok, rc, b))
    (published : List Extracted) : b.last = s.buffer.last ∧ ∃ w rest, ws = w :: rest ∧
      Process.Tracks ch ⟨{ rc with parseDone := true, parseStart := b.pos }, b, published, .top⟩ rest
        future whole ∧
      s.buffer.last + future.length = b.pos + (ch.records rest).length ∧ b.pos ≤ b.last := by
  obtain ⟨ready, same, ahead⟩ := tracks.inspect known top clean
  obtain ⟨w, rest, rfl, place, holds, final⟩ :=
    (Ahead.call ready same (Nat.le_add_right _ _) ahead).2 parsed
  obtain ⟨mem, last, -, inside, -⟩ := parse_ok ready parsed quiet
  have last : b.last = s.buffer.last := last.trans (maintained_last _ _)
  rw [maintained_last] at final
  have marked : AtRecord ch b.pos
      ⟨{ rc.toProgress with parseDone := true, parseStart := b.pos }, rc.state, b.pos⟩ :=
    ⟨place.state, rfl, place.recordStart, place.quiet⟩
  have small : ∀ w ∈ rest, w.payload.length ≤ 256 := fun w member =>
    tracks.small w (List.mem_cons_of_mem _ member)
  refine ⟨last, w, rest, rfl, ⟨small, fun i below => ?_, ?_, ?_, fun _ => ⟨marked, holds, ?_⟩⟩,
    final, inside⟩
  · rw [mem]
    exact same i (by rw [maintained_last, ← last]; exact below)
  · rw [last]
    exact tracks.arrives
  · simp only [last, final]
    exact marked.ahead small holds
  · rw [last]
    exact final

/-- What has arrived still ends with a record, one fewer of which is pending. -/
theorem Process.Ends.publishes {w : Bulk} {rest : List Bulk} {published : List Extracted}
    (ends : s.Ends ch (w :: rest) future) (last : b.last = s.buffer.last)
    (parsed : parseMessage s.rc (maintained s.rc s.buffer) = (.ok, rc, b))
    (final : s.buffer.last + future.length = b.pos + (ch.records rest).length) :
    Process.Ends ch ⟨{ rc with parseDone := true, parseStart := b.pos }, b, published, .top⟩ rest
      future := by
  rcases ends with room | ⟨pending, later, split, rfl, parsedLast⟩
  · exact .inl (by rw [last]; exact room)
  · cases pending with
    | nil =>
      have stays := idle_turn (parsedLast rfl).2
      rw [stays] at parsed
      cases parsed
    | cons w' pending =>
      simp only [List.cons_append, List.cons.injEq] at split
      obtain ⟨rfl, rfl⟩ := split
      refine .inr ⟨pending, later, rfl, rfl, ?_⟩
      rintro rfl
      refine ⟨rfl, ?_⟩
      rw [List.nil_append] at final
      simp only
      omega

/-- A call that waits keeps to the way; where `parse_done` is set it has done nothing. -/
theorem Process.Tracks.waits (known : s.Known) (top : s.location = .top) (clean : ¬ s.Clobbers)
    (tracks : s.Tracks ch ws future whole)
    (parsed : parseMessage s.rc (maintained s.rc s.buffer) = (.again, rc, b))
    (published : List Extracted) : b.last = s.buffer.last ∧ b.last ≤ b.pos ∧
      (rc.parseDone = true → rc = s.rc ∧ b.pos = s.buffer.pos) ∧
      Process.Tracks ch ⟨rc, b, published, .call⟩ ws future whole := by
  obtain ⟨ready, same, ahead⟩ := tracks.inspect known top clean
  have next := (Ahead.call ready same (Nat.le_add_right _ _) ahead).1 parsed
  have behind := (parse_again_round (I := fun _ => True) ready (fun _ _ _ => trivial) trivial
    parsed).2
  obtain ⟨mem, last, -, -, marks⟩ := parse_again ready parsed
  have last' : b.last = s.buffer.last := last.trans (maintained_last _ _)
  rw [maintained_last] at next
  have untouched (set : rc.parseDone = true) : rc = s.rc ∧ b.pos = s.buffer.pos := by
    rcases marks with clear | ⟨rfl, rfl⟩
    · rw [set] at clear
      cases clear
    · exact ⟨rfl, maintained_pos _ _⟩
  refine ⟨last', by omega, untouched, tracks.small, fun i below => ?_, ?_, ?_, fun set => ?_⟩
  · rw [mem]
    exact same i (by rw [← last]; exact below)
  · rw [last']
    exact tracks.arrives
  · rw [last']
    exact next
  · obtain ⟨rfl, pos⟩ := untouched set
    simp only [pos, last']
    exact tracks.done set

/-- In a full buffer whose end is the end of a record, the parser waits behind that record only. -/
theorem Process.Ends.waits (known : s.Known) (top : s.location = .top) (clean : ¬ s.Clobbers)
    (tracks : s.Tracks ch ws future whole) (ends : s.Ends ch ws future)
    (parsed : parseMessage s.rc (maintained s.rc s.buffer) = (.again, rc, b)) :
    b.last < redisBufferSize ∨ b.pos = b.last ∧ rc.parseDone = true := by
  obtain ⟨last, behind, -, next⟩ := tracks.waits known top clean parsed []
  rcases ends with room | ⟨pending, later, rfl, rfl, parsedLast⟩
  · exact .inl (by rw [last]; exact room)
  · cases pending with
    | nil =>
      obtain ⟨set, used⟩ := parsedLast rfl
      have stays := idle_turn used
      rw [stays] at parsed
      cases parsed
      refine .inr ⟨?_, set⟩
      rw [maintained_pos, maintained_last]
      exact used
    | cons w pending =>
      -- a call that waits has not come to the end of the record, which has arrived
      obtain ⟨ready, -, -⟩ := tracks.inspect known top clean
      obtain ⟨-, -, -, next_ready, -⟩ := parse_again ready parsed
      obtain ⟨c₁, c₂, o, e, path, output, place, -, final⟩ := next.ahead
      have ready₁ := path.valid (next_ready _)
      have before : b.pos ≤ c₁.p := path.pos_le (next_ready _)
      have forward : c₁.p < c₁.reach := machine.forward ready₁
      have stop : c₂.p = c₁.reach := (machine.moves ready₁ output).2
      have position := place.position
      have final : b.last + (ch.records later).length =
          e + (ch.records (pending ++ later)).length := final
      simp only [Channel.records, List.map_append, List.flatten_append, List.length_append] at final
      omega

/-- A buffer that has been reset begins with the next record. -/
theorem Process.Tracks.resets (tracks : s.Tracks ch ws future whole) (set : s.rc.parseDone = true)
    (used : s.buffer.pos = s.buffer.last) (published : List Extracted) :
    Process.Tracks ch ⟨s.rc, { s.buffer with pos := 0, last := 0 }, published, .call⟩ ws future
      (memoryOf future) := by
  obtain ⟨place, holds, final⟩ := tracks.done set
  have rest : future = ch.records ws := by
    apply List.ext_getElem
    · omega
    · intro i here there
      rw [← holds i there, ← tracks.arrives i here, used]
  have start : AtRecord ch 0 ⟨s.rc.toProgress, s.rc.state, 0⟩ :=
    ⟨place.state, rfl, place.recordStart, place.quiet⟩
  have here : Holds (memoryOf future) 0 (ch.records ws) := rest ▸ memoryOf_holds future
  refine ⟨tracks.small, by simp, memoryOf_holds future, ?_, fun _ => ⟨start, here, by rw [rest]⟩⟩
  have way := start.ahead tracks.small here
  rw [rest] at way ⊢
  exact way

/-- What a turn that does not exit makes of the place on the stream. -/
theorem Process.Tracks.turn (known : s.Known) (top : s.location = .top) (clean : ¬ s.Clobbers)
    (tracks : s.Tracks ch ws future whole) (ends : s.Ends ch ws future) :
    s.turn.location = .exited ∨
      (s.turn.location = .top ∧ ∃ w rest, ws = w :: rest ∧ s.turn.Tracks ch rest future whole ∧
        s.turn.Ends ch rest future ∧ future.length ≤ (ch.records rest).length) ∨
      s.turn.location = .call ∧ s.turn.buffer.last < redisBufferSize ∧
        ∃ whole', s.turn.Tracks ch ws future whole' := by
  rcases turn_cases s with ⟨rc, b, parsed, quiet, eq⟩ | ⟨rc, b, parsed, eq⟩ | ⟨exited, -⟩
  · obtain ⟨last, w, rest, rfl, next, final, inside⟩ :=
      tracks.publishes known top clean quiet parsed (s.published ++ [extracted b.mem rc.toProgress])
    rw [eq]
    refine .inr (.inl ⟨rfl, w, rest, rfl, next, ends.publishes last parsed final, ?_⟩)
    omega
  · obtain ⟨last, -, untouched, next⟩ := tracks.waits known top clean parsed s.published
    rw [eq]
    refine .inr (.inr ⟨rfl, ?_⟩)
    by_cases reset : b.pos = b.last ∧ rc.parseDone = true
    · obtain ⟨rfl, -⟩ := untouched reset.2
      simp only [resetIfDone, if_pos reset]
      exact ⟨by decide, memoryOf future, next.resets reset.2 reset.1 s.published⟩
    · have room := (ends.waits known top clean tracks parsed).resolve_right reset
      simp only [resetIfDone, if_neg reset]
      exact ⟨room, whole, next⟩
  · exact .inl exited

end Turn

def Process.Fills (s : Process) (input : Input) : Prop :=
  s.location = .call ∧ s.buffer.last + (s.taken input).length = redisBufferSize

/-- The process is on its way through a stream with the records `all`, and it reads with room. -/
def Process.OnStream (ch : Channel) (all : List Bulk) (s : Process) (future : List UInt8) : Prop :=
  ∃ ws whole, ws <:+ all ∧ s.Tracks ch ws future whole ∧
    (ws = all ∨ future.length ≤ (ch.records ws).length) ∧
    (s.location = .call → s.buffer.last < redisBufferSize) ∧
    (s.location = .top → s.Ends ch ws future)

variable {all : List Bulk}

/-- What is left of a stream after the end of a record that has just arrived. -/
theorem pending_records {n : Nat} (suffix : ws <:+ all)
    (arrived : ws = all ∨ (piece ++ future).length ≤ (ch.records ws).length) (some : piece ≠ [])
    (positive : 0 < n) (short : n ≤ all.length) (rest : future = ch.records (all.drop n)) :
    ∃ pending, pending ≠ [] ∧ ws = pending ++ all.drop n := by
  have few := List.length_pos_iff.mpr some
  have fewer : (all.drop n).length < all.length := by
    rw [List.length_drop]
    omega
  rcases List.suffix_or_suffix_of_suffix (List.drop_suffix n all) suffix with
    ⟨pending, eq⟩ | ⟨before, eq⟩
  · refine ⟨pending, ?_, eq.symm⟩
    rintro rfl
    rw [List.nil_append] at eq
    rcases arrived with whole | arrived
    · rw [eq, whole] at fewer
      omega
    · rw [rest, ← eq, List.length_append] at arrived
      omega
  · exfalso
    rcases arrived with whole | arrived
    · rw [← eq, whole, List.length_append] at fewer
      omega
    · rw [rest, ← eq, List.length_append] at arrived
      simp only [Channel.records, List.map_append, List.flatten_append, List.length_append] at arrived
      omega

theorem Process.OnStream.step (known : s.Known) (clean : s.location = .top → ¬ s.Clobbers)
    (input : Input) (on : s.OnStream ch all (s.taken input ++ future))
    (fills : s.Fills input → ∃ n, 0 < n ∧ n ≤ all.length ∧ future = ch.records (all.drop n))
    (running : (s.step input).location ≠ .exited) : (s.step input).OnStream ch all future := by
  obtain ⟨ws, whole, suffix, tracks, arrived, room, ends⟩ := on
  cases place : s.location with
  | exited =>
    rw [Process.step, place] at running
    exact (running place).elim
  | call =>
    have taken : s.taken input = (input.arrived.getD []).take (redisBufferSize - s.buffer.last) := by
      rw [Process.taken, place]
    have space := room place
    have fits : (s.taken input).length ≤ redisBufferSize - s.buffer.last := by
      rw [taken]
      exact List.length_take_le _ _
    simp only [Process.step, place, Process.read, ← taken] at running ⊢
    by_cases nothing : s.taken input = []
    · simp only [if_pos nothing] at running ⊢
      rw [nothing, List.nil_append] at tracks arrived
      have connected : input.reconnected = true := by
        by_contra refused
        exact running (by rw [if_neg refused])
      simp only [connected, if_true]
      refine ⟨ws, whole, suffix, ⟨tracks.small, tracks.same, tracks.arrives, tracks.ahead, tracks.done⟩,
        arrived, by simp, fun _ => .inl space⟩
    · simp only [if_neg nothing]
      refine ⟨ws, whole, suffix, tracks.read, ?_, by simp, fun _ => ?_⟩
      · refine arrived.imp_right fun le => ?_
        rw [List.length_append] at le
        omega
      · by_cases full : s.buffer.last + (s.taken input).length = redisBufferSize
        · obtain ⟨n, positive, short, rest⟩ := fills ⟨place, full⟩
          obtain ⟨pending, some, split⟩ :=
            pending_records suffix arrived nothing positive short rest
          exact .inr ⟨pending, all.drop n, split, rest, fun bad => (some bad).elim⟩
        · refine .inl ?_
          simp only [Buffer.received]
          omega
  | top =>
    have taken : s.taken input = [] := by rw [Process.taken, place]
    rw [taken, List.nil_append] at tracks arrived ends
    simp only [Process.step, place] at running ⊢
    rcases tracks.turn known place (clean place) (ends place) with
      exited | ⟨top, w, rest, rfl, next, later, le⟩ | ⟨call, less, whole', next⟩
    · exact (running exited).elim
    · refine ⟨rest, whole, (List.suffix_cons w rest).trans suffix, next, .inr le, ?_, fun _ => later⟩
      simp [top]
    · refine ⟨ws, whole', suffix, next, arrived, fun _ => less, ?_⟩
      simp [call]

end Tracks

/-- A run that has left no record end unread in a full buffer and has clobbered nothing. -/
theorem run_has_room {ch : Channel} {all : List Bulk} {s : Process} {future : List UInt8}
    (inputs : List Input) (known : s.Known) (on : s.location ≠ .exited → s.OnStream ch all future)
    (valid : received s inputs <+: future)
    (clean : ∀ before, before <+: inputs → (s.run before).location = .top → ¬ (s.run before).Clobbers)
    (ends : ∀ before input, before ++ [input] <+: inputs → (s.run before).Fills input →
      ∃ n, 0 < n ∧ n ≤ all.length ∧
        future = received s (before ++ [input]) ++ ch.records (all.drop n)) :
    ∀ before, before <+: inputs → (s.run before).location = .call →
      (s.run before).buffer.last < redisBufferSize := by
  induction inputs generalizing s future with
  | nil =>
    intro before isPrefix call
    rw [List.prefix_nil.mp isPrefix] at call ⊢
    have call : s.location = .call := call
    obtain ⟨-, -, -, -, -, room, -⟩ := on (by simp [call])
    exact room call
  | cons input rest ih =>
    obtain ⟨later, rfl⟩ := valid
    rw [Redis.received, List.append_assoc] at on ends
    have next : (s.step input).location ≠ .exited →
        (s.step input).OnStream ch all (received (s.step input) rest ++ later) := by
      intro running
      have alive : s.location ≠ .exited := by
        intro exited
        rw [Process.step, exited] at running
        exact running exited
      refine (on alive).step known (clean [] List.nil_prefix) input (fun fills => ?_) running
      obtain ⟨n, positive, short, eq⟩ := ends [] input (by simp) fills
      refine ⟨n, positive, short, ?_⟩
      simpa [Redis.received] using eq
    rw [run_states (P := fun s => s.location = .call → s.buffer.last < redisBufferSize)]
    refine ⟨fun call => ?_, ih (step_known known input) next (List.prefix_append _ _) ?_ ?_⟩
    · obtain ⟨-, -, -, -, -, room, -⟩ := on (by simp [call])
      exact room call
    · exact fun before isPrefix =>
        clean (input :: before) (List.cons_prefix_cons.mpr ⟨rfl, isPrefix⟩)
    · intro before input' isPrefix fills
      obtain ⟨n, positive, short, eq⟩ := ends (input :: before) input'
        (List.cons_prefix_cons.mpr ⟨rfl, isPrefix⟩) fills
      refine ⟨n, positive, short, ?_⟩
      simpa [Redis.received] using eq

theorem Channel.stream_split (ch : Channel) (clients n : Nat) (ws : List Bulk) :
    ch.stream clients ws = ch.stream clients (ws.take n) ++ ch.records (ws.drop n) := by
  rw [Channel.stream, Channel.stream, Channel.records, List.append_assoc, ← List.flatten_append,
    ← List.map_append, List.take_append_drop]

theorem initial_onStream {ch : Channel} (clients : Nat) {ws : List Bulk}
    (small : ∀ w ∈ ws, w.payload.length ≤ 256) (mem : Nat → UInt8) :
    (Process.initial mem).OnStream ch ws (ch.stream clients ws) := by
  have holds := memoryOf_holds (ch.stream clients ws)
  have ahead := stream_ahead clients small holds
  refine ⟨ws, memoryOf (ch.stream clients ws), List.suffix_refl ws, ⟨small, ?_, holds, ?_, ?_⟩,
    .inl rfl, fun _ => Nat.zero_lt_succ 1023, ?_⟩
  · exact fun i below => absurd below (Nat.not_lt_zero i)
  · rw [← Nat.zero_add (ch.stream clients ws).length] at ahead
    exact ahead
  · exact fun bad => (by cases bad)
  · exact fun bad => (by cases bad)

/-- The server's stream is read with room in the buffer as long as no unparsed bytes are
clobbered and each read that fills the buffer ends with the end of a record. -/
theorem redis_buffer_has_room (ch : Channel) (clients : Nat) (ws : List Bulk)
    (small : ∀ w ∈ ws, w.payload.length ≤ 256) (mem : Nat → UInt8) (inputs : List Input)
    (valid : received (Process.initial mem) inputs <+: ch.stream clients ws)
    (clean : ∀ before, before <+: inputs → ((Process.initial mem).run before).location = .top →
      ¬ ((Process.initial mem).run before).Clobbers)
    (whole : ∀ before input, before ++ [input] <+: inputs →
      ((Process.initial mem).run before).Fills input → ∃ n, 0 < n ∧ n ≤ ws.length ∧
        received (Process.initial mem) (before ++ [input]) = ch.stream clients (ws.take n)) :
    ∀ before, before <+: inputs → ((Process.initial mem).run before).location = .call →
      ((Process.initial mem).run before).buffer.last < redisBufferSize := by
  refine run_has_room inputs (initial_known mem) (fun _ => initial_onStream clients small mem) valid
    clean fun before input isPrefix fills => ?_
  obtain ⟨n, positive, short, eq⟩ := whole before input isPrefix fills
  exact ⟨n, positive, short, by rw [eq, ← ch.stream_split]⟩

instance (s : Process) : Decidable s.Clobbers := inferInstanceAs (Decidable (_ ∧ _))

def greetingInputs : List Input :=
  [⟨some (qmxjChannel.stream 1 [greeting]), true⟩, ⟨none, true⟩, ⟨none, true⟩]

instance (s : Process) (input : Input) : Decidable (s.Fills input) :=
  inferInstanceAs (Decidable (_ ∧ _))

theorem redis_buffer_has_room_greeting :
    ((Process.initial fun _ => 0).run greetingInputs).location = .call ∧
      ∀ before, before <+: greetingInputs →
        ((Process.initial fun _ => 0).run before).location = .call →
        ((Process.initial fun _ => 0).run before).buffer.last < redisBufferSize := by
  have clean : ∀ before ∈ greetingInputs.inits,
      ((Process.initial fun _ => 0).run before).location = .top →
      ¬ ((Process.initial fun _ => 0).run before).Clobbers := by decide +kernel
  have spare : ∀ before ∈ greetingInputs.inits, ∀ input ∈ greetingInputs,
      ¬ ((Process.initial fun _ => 0).run before).Fills input := by decide +kernel
  refine ⟨by decide +kernel, redis_buffer_has_room qmxjChannel 1 [greeting] (by decide +kernel)
    (fun _ => 0) greetingInputs (by decide +kernel)
    (fun before isPrefix => clean before ((List.mem_inits _ _).mpr isPrefix))
    fun before input isPrefix fills => ?_⟩
  have early := (List.mem_inits _ _).mpr ((List.prefix_append before [input]).trans isPrefix)
  have member : input ∈ greetingInputs := isPrefix.subset (by simp)
  exact (spare before early input member fills).elim

def shortPayload : Bulk :=
  ⟨List.replicate 60 97, by rw [List.length_replicate]; decide⟩

def brimfulRecords : List Bulk := [fullPayload, fullPayload, shortPayload, fullPayload]

/-- A valid stream arrives in one read, as far as there is room; the turns that follow publish
the three complete records and leave the fourth to be completed. -/
def brimfulInputs : List Input :=
  [⟨some (qmxjChannel.stream 1 brimfulRecords), true⟩, ⟨none, true⟩, ⟨none, true⟩, ⟨none, true⟩,
    ⟨none, true⟩]

/-- The next read has no room: it yields 0, and the process reconnects. -/
theorem redis_buffer_is_full :
    (∀ w ∈ brimfulRecords, w.payload.length ≤ 256) ∧
      received (Process.initial fun _ => 0) brimfulInputs <+: qmxjChannel.stream 1 brimfulRecords ∧
      ((Process.initial fun _ => 0).run brimfulInputs).location = .call ∧
      ((Process.initial fun _ => 0).run brimfulInputs).buffer.last = redisBufferSize := by
  have run : received (Process.initial fun _ => 0) brimfulInputs =
        (qmxjChannel.stream 1 brimfulRecords).take redisBufferSize ∧
      ((Process.initial fun _ => 0).run brimfulInputs).location = .call ∧
      ((Process.initial fun _ => 0).run brimfulInputs).buffer.last = redisBufferSize := by
    decide +kernel
  refine ⟨by decide +kernel, ?_, run.2⟩
  rw [run.1]
  exact List.take_prefix _ _

end Ngx.Redis
