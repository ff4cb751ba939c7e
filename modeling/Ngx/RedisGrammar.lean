import Ngx.MessageProcess

/-! Which message records are accepted. The parser takes digits and carriage returns in any
order for a length line, and after the declared bytes it skips everything up to the next line
end; `after_cr`, still set from the length line, lets a bare line feed end the record. -/
namespace Ngx.Redis

open Resumable

def Cursor.Calm (c : Cursor) : Prop := c.state = .message → c.rc.afterCr = false

theorem parseByte_calm {mem : Nat → UInt8} {c c' : Cursor} (ok : parseByte mem c = .ok c') :
    c'.Calm := by
  intro message
  cases parseByte_moved ok with
  | carriage line => exact absurd message line.2.2
  | clients => rfl
  | _ => cases message

theorem parseByte_done_calm {mem mem' : Nat → UInt8} {c : Cursor} {rc : Progress} {p : Nat}
    (done : parseByte mem c = .error (.done rc p mem')) : rc.afterCr = false := by
  cases parseByte_completed done <;> rfl

theorem parseMessage_calm {rc : Connection} {b : Buffer}
    (calm : rc.state = .message → rc.afterCr = false) (goesOn : GoesOn (parseMessage rc b)) :
    (parseMessage rc b).2.1.state = .message → (parseMessage rc b).2.1.afterCr = false := by
  have kept {c c' : Cursor} (_ : c.Calm) (_ : c.p < b.last) (moved : parseByte b.mem c = .ok c') :
      Cursor.Calm { c' with p := c'.p + 1 } := by
    have calm : c'.Calm := parseByte_calm moved
    exact calm
  have start : Cursor.Calm ⟨rc.toProgress, rc.state, b.pos⟩ := calm
  rcases parsed : parseMessage rc b with ⟨code, rc', b'⟩
  rw [parsed] at goesOn
  rcases goesOn with again | ⟨ok, -⟩
  · cases again
    have here : Cursor.Calm ⟨rc'.toProgress, rc'.state, b'.pos⟩ :=
      (parse_again_rounds kept start parsed).1
    exact here
  · cases ok
    obtain ⟨c, p, -, -, -, -, -, round⟩ := parse_ok_round kept start parsed
    exact fun _ => parseByte_done_calm round

theorem Reachable.calm {rc : Connection} (reachable : Reachable rc) :
    rc.state = .message → rc.afterCr = false := by
  induction reachable with
  | fresh => exact fun _ => rfl
  | parse b _ goesOn ih => exact parseMessage_calm ih goesOn
  | marked parseStart parseDone _ ih => exact ih

/-- What stands before the line end of a length line: digits and carriage returns. -/
def LengthBytes (line : List UInt8) : Prop := ∀ ch ∈ line, ch = cr ∨ Decimal.isDigit ch = true

structure Counting (length : Int) (start : Nat) (c : Cursor) : Prop where
  afterCr : c.rc.afterCr = true
  left : c.rc.messageLength = length - (c.p - start : Nat)
  inside : 0 ≤ length → c.p ≤ start + length

structure Searching (mem : Nat → UInt8) (stop : Nat) (c : Cursor) : Prop where
  past : stop < c.p
  counted : c.rc.messageLength = 0
  afterCr : c.rc.afterCr = true ↔ mem (c.p - 1) = cr
  unended : ∀ i, stop ≤ i → i + 1 < c.p → mem i = cr → mem (i + 1) ≠ lf

structure LengthRead (mem : Nat → UInt8) (o start : Nat) (line : List UInt8) : Prop where
  after : o < start
  bytes : LengthBytes line
  cells_eq : cells mem o (start - 1) = line ++ [cr]
  lineFeed : mem (start - 1) = lf

/-- Progress on a record whose length line starts at `o`, with all its end depends on. -/
def Parsing (mem : Nat → UInt8) (last o : Nat) (c : Cursor) : Prop :=
  match c.state with
  | .message => c.p + c.rc.channelMessagePrefix.length = o ∧ c.rc.afterCr = false
  | .messageLength => o ≤ c.p ∧ (o < c.p → c.p ≤ last) ∧ LengthBytes (cells mem o c.p) ∧
    c.rc.number = (cells mem o c.p).filter Decimal.isDigit ∧
    (c.rc.afterCr = true → o < c.p ∧ mem (c.p - 1) = cr)
  | .messageValue => c.rc.messageStart ≤ c.p ∧ c.p ≤ last ∧
    ∃ line, LengthRead mem o c.rc.messageStart line ∧
      (Counting (atoi (line.filter Decimal.isDigit)) c.rc.messageStart c ∨
        ∃ n : Nat, atoi (line.filter Decimal.isDigit) = n ∧
          Searching mem (c.rc.messageStart + n) c)
  | _ => False

section Steps

variable {mem : Nat → UInt8} {last o : Nat} {c c' : Cursor}

theorem cr_not_digit : Decimal.isDigit cr = false := by decide

theorem LengthBytes.concat {line : List UInt8} {ch : UInt8} (bytes : LengthBytes line)
    (accepts : ch = cr ∨ Decimal.isDigit ch = true) : LengthBytes (line ++ [ch]) := by
  intro x member
  rcases List.mem_append.mp member with early | here
  · exact bytes x early
  · rwa [List.mem_singleton.mp here]

/-- Where a line end is looked for in the value of a record, be it that the count has just run
out. -/
theorem value_looks {rc : Progress} {p : Nat} {line : List UInt8} (none : rc.messageLength = 0)
    (progress : Counting (atoi (line.filter Decimal.isDigit)) rc.messageStart ⟨rc, .messageValue, p⟩ ∨
      ∃ n : Nat, atoi (line.filter Decimal.isDigit) = n ∧
        Searching mem (rc.messageStart + n) ⟨rc, .messageValue, p⟩)
    (start : rc.messageStart ≤ p) (unfed : rc.afterCr = true → mem p ≠ lf) :
    ∃ n : Nat, atoi (line.filter Decimal.isDigit) = n ∧ rc.messageStart + n ≤ p ∧
      ∀ i, rc.messageStart + n ≤ i → i + 1 < p + 1 → mem i = cr → mem (i + 1) ≠ lf := by
  rcases progress with counting | ⟨n, length, searching⟩
  · have count := counting.left
    simp only [none] at count
    exact ⟨p - rc.messageStart, by omega, by omega, fun i from_stop => by omega⟩
  · refine ⟨n, length, Nat.le_of_lt searching.past, fun i from_stop below carriage => ?_⟩
    by_cases here : i + 1 = p
    · rw [here]
      apply unfed
      apply searching.afterCr.mpr
      simp only [← here]
      exact carriage
    · exact searching.unended i from_stop (by simp only; omega) carriage

/-- A round in the value of a record; it goes on unless a line end is complete. -/
theorem value_parsing {rc : Progress} {p : Nat} (before : p < last)
    (parsing : Parsing mem last o ⟨rc, .messageValue, p⟩)
    (moved : parseByte mem ⟨rc, .messageValue, p⟩ = .ok c') :
    Parsing mem last o { c' with p := c'.p + 1 } := by
  obtain ⟨start, -, line, read, progress⟩ := parsing
  simp only at start read progress
  cases parseByte_moved moved with
  | counted left =>
    refine ⟨Nat.le_succ_of_le start, before, line, read, .inl ?_⟩
    rcases progress with counting | ⟨n, -, searching⟩
    · have inside := counting.inside
      have count := counting.left
      simp only at inside count
      exact ⟨counting.afterCr, by simp only; omega, fun positive => by simp only; omega⟩
    · exact (left searching.counted).elim
  | carriage _ counted carriage =>
    have none := counted rfl
    have unfed : rc.afterCr = true → mem p ≠ lf := fun _ => by
      rw [carriage]
      decide
    obtain ⟨n, length, stop, unended⟩ := value_looks none progress start unfed
    refine ⟨Nat.le_succ_of_le start, before, line, read, .inr ⟨n, length, ?_⟩⟩
    exact ⟨Nat.lt_succ_of_le stop, none, by simpa using carriage, unended⟩
  | searched none notCr notEnd =>
    have unfed (after : rc.afterCr = true) (feed : mem p = lf) : False := notEnd ⟨feed, after⟩
    obtain ⟨n, length, stop, unended⟩ := value_looks none progress start unfed
    refine ⟨Nat.le_succ_of_le start, before, line, read, .inr ⟨n, length, ?_⟩⟩
    exact ⟨Nat.lt_succ_of_le stop, none, by simpa using notCr, unended⟩

/-- A round in the length line of a record. -/
theorem length_parsing {rc : Progress} {p : Nat} (before : p < last)
    (parsing : Parsing mem last o ⟨rc, .messageLength, p⟩)
    (moved : parseByte mem ⟨rc, .messageLength, p⟩ = .ok c') :
    Parsing mem last o { c' with p := c'.p + 1 } := by
  obtain ⟨le, -, bytes, number, after⟩ := parsing
  simp only at le bytes number after
  cases parseByte_moved moved with
  | carriage _ _ carriage =>
    refine ⟨Nat.le_succ_of_le le, fun _ => before, ?_, ?_, fun _ => ⟨Nat.lt_succ_of_le le, carriage⟩⟩
    · simp only [cells_concat le]
      exact bytes.concat (.inl carriage)
    · simp [cells_concat le, number, carriage, cr_not_digit]
  | length ended =>
    obtain ⟨behind, carriage⟩ := after ended.2
    have line : cells mem o p = cells mem o (p - 1) ++ [cr] := by
      have width : p = p - 1 + 1 := by omega
      rw [width, cells_concat (by omega), ← width, carriage]
    rw [line] at bytes number
    refine ⟨le_refl _, before, cells mem o (p - 1), ⟨Nat.lt_succ_of_le le, ?_, line, ended.1⟩, .inl ?_⟩
    · exact fun ch member => bytes ch (List.mem_append_left _ member)
    · refine ⟨ended.2, ?_, by simp⟩
      simp [number, cr_not_digit]
  | digit digit =>
    refine ⟨Nat.le_succ_of_le le, fun _ => before, ?_, ?_, by simp⟩
    · simp only [cells_concat le]
      exact bytes.concat (.inr digit)
    · simp [cells_concat le, number, digit]

theorem parsing_step (ready : c.Ready) (parsing : Parsing mem last o c) (before : c.p < last)
    (moved : parseByte mem c = .ok c') : Parsing mem last o { c' with p := c'.p + 1 } := by
  have reach := (parseByte_ok ready moved).2
  obtain ⟨rc, state, p⟩ := c
  cases state with
  | message =>
    obtain ⟨position, calm⟩ := parsing
    simp only [Cursor.reach, position] at reach position
    cases parseByte_moved moved with
    | begun =>
      simp only at reach calm
      simp [Parsing, reach, calm, cells_nil, LengthBytes]
    | carriage line => exact absurd rfl line.2.2
  | messageLength => exact length_parsing before parsing moved
  | messageValue => exact value_parsing before parsing moved
  | _ => exact parsing.elim

theorem parsing_received {b : Buffer} {rc : Progress} {state : State} (piece : List UInt8)
    (parsing : Parsing b.mem b.last o ⟨rc, state, b.pos⟩) :
    Parsing (b.received piece).mem (b.received piece).last o ⟨rc, state, b.pos⟩ := by
  have old (i : Nat) (lt : i < b.last) : (b.received piece).mem i = b.mem i := by
    simp only [Buffer.received, Resumable.store]
    rw [if_neg (by omega)]
  have same {i j : Nat} (inside : j ≤ b.last) : cells (b.received piece).mem i j = cells b.mem i j :=
    cells_congr fun k lt => old k (by omega)
  have grown : b.last ≤ (b.received piece).last := Nat.le_add_right _ _
  cases state with
  | message => exact parsing
  | messageLength =>
    obtain ⟨le, inside, bytes, number, after⟩ := parsing
    simp only at le inside bytes number after
    have line : cells (b.received piece).mem o b.pos = cells b.mem o b.pos := by
      by_cases some : o < b.pos
      · exact same (inside some)
      · rw [cells_nil (by omega), cells_nil (by omega)]
    refine ⟨le, fun some => (inside some).trans grown, ?_, ?_, fun set => ?_⟩
    · simpa only [line] using bytes
    · simpa only [line] using number
    · obtain ⟨some, carriage⟩ := after set
      have := inside some
      exact ⟨some, by rwa [old _ (by simp only; omega)]⟩
  | messageValue =>
    obtain ⟨start, inside, line, read, progress⟩ := parsing
    simp only at start inside read progress
    have behind := read.after
    refine ⟨start, inside.trans grown, line, ⟨behind, read.bytes, ?_, ?_⟩, ?_⟩
    · simp only [same (show rc.messageStart - 1 ≤ b.last by omega)]
      exact read.cells_eq
    · rw [old _ (by simp only; omega)]
      exact read.lineFeed
    · rcases progress with counting | ⟨n, length, past, counted, after, unended⟩
      · exact .inl counting
      · refine .inr ⟨n, length, past, counted, ?_, fun i from_stop below => ?_⟩
        · simp only at past ⊢
          rwa [old _ (by omega)]
        · simp only at below
          rw [old i (by omega), old (i + 1) (by omega)]
          exact unended i from_stop below
  | _ => exact parsing.elim

structure Ended (o : Nat) (rc : Connection) (b : Buffer) (line : List UInt8) (n : Nat) : Prop where
  read : LengthRead b.mem o rc.messageStart line
  length : atoi (line.filter Decimal.isDigit) = n
  start : rc.messageStart < b.pos
  inside : b.pos ≤ b.last
  messageEnd : rc.messageEnd = b.pos - 2
  lineFeed : b.mem (b.pos - 1) = lf
  stop : rc.messageStart + n = b.pos - 1 ∨
    rc.messageStart + n < b.pos - 1 ∧ b.mem (b.pos - 2) = cr ∧
      ∀ i, rc.messageStart + n ≤ i → i + 1 < b.pos - 1 → b.mem i = cr → b.mem (i + 1) ≠ lf

theorem parsing_done {rc : Progress} {p : Nat} {mem' : Nat → UInt8}
    (parsing : Parsing mem last o c) (before : c.p < last)
    (done : parseByte mem c = .error (.done rc p mem')) :
    mem' = mem ∧ ∃ line n,
      Ended o { toProgress := rc, state := .message } ⟨mem', p + 1, last⟩ line n := by
  cases parseByte_completed done with
  | error => exact parsing.elim
  | @message rc₀ p none ended =>
    obtain ⟨start, -, line, read, progress⟩ := parsing
    simp only at start read progress before
    obtain ⟨n, length, stop⟩ : ∃ n : Nat, atoi (line.filter Decimal.isDigit) = n ∧
        (rc₀.messageStart + n = p ∨ rc₀.messageStart + n < p ∧ mem (p - 1) = cr ∧
          ∀ i, rc₀.messageStart + n ≤ i → i + 1 < p → mem i = cr → mem (i + 1) ≠ lf) := by
      rcases progress with counting | ⟨n, length, searching⟩
      · have count := counting.left
        simp only [none] at count
        exact ⟨p - rc₀.messageStart, by omega, .inl (by omega)⟩
      · exact ⟨n, length, .inr ⟨searching.past, searching.afterCr.mp ended.2, searching.unended⟩⟩
    exact ⟨rfl, line, n, read, length, Nat.lt_succ_of_le start, before, rfl, ended.1, stop⟩

end Steps

def Buffer.receivedAll (b : Buffer) (pieces : List (List UInt8)) : Buffer :=
  pieces.foldl Buffer.received b

/-- What the parser must see in a record it accepts: the start of the channel's records, a
decimal number, CR LF, as many payload bytes, CR LF, with the payload as the message. -/
def WellFormed (rc : Connection) (b : Buffer) (rc' : Connection) (b' : Buffer) : Prop :=
  ∃ digits payload, digits ≠ [] ∧ (∀ ch ∈ digits, Decimal.isDigit ch = true) ∧
    Decimal.value digits = payload.length ∧
    cells b'.mem b.pos b'.pos =
      rc.channelMessagePrefix ++ ((digits ++ crlf) ++ (payload ++ crlf)) ∧
    rc'.messageStart = b.pos + rc.channelMessagePrefix.length + (digits ++ crlf).length ∧
    rc'.messageEnd = rc'.messageStart + payload.length

def lengthLine (start input : List UInt8) : List UInt8 :=
  (input.drop start.length).takeWhile (· ≠ lf)

/-- The input of a record on which the parser goes right: the start has arrived as it was
compared, the length line is digits up to its line end, and where the number says so there is
a line end. -/
def Regular (start input : List UInt8) : Prop :=
  let digits := (lengthLine start input).dropLast
  start <+: input ∧ digits ≠ [] ∧ (∀ ch ∈ digits, Decimal.isDigit ch = true) ∧
    crlf <+: input.drop (start.length + (digits ++ crlf).length + Decimal.value digits)

instance (start input : List UInt8) : Decidable (Regular start input) :=
  inferInstanceAs (Decidable (_ ∧ _ ∧ _ ∧ _))

section Accepted

variable {rc rc' : Connection} {b b' : Buffer} {pieces : List (List UInt8)}

theorem receivedAll_keeps (b : Buffer) (pieces : List (List UInt8)) :
    (b.receivedAll pieces).pos = b.pos ∧ b.last ≤ (b.receivedAll pieces).last ∧
      ∀ i < b.last, (b.receivedAll pieces).mem i = b.mem i := by
  induction pieces generalizing b with
  | nil => exact ⟨rfl, le_refl _, fun _ _ => rfl⟩
  | cons piece rest ih =>
    obtain ⟨pos, grown, same⟩ := ih (b.received piece)
    have further : b.last ≤ (b.received piece).last := Nat.le_add_right _ _
    refine ⟨pos, further.trans grown, fun i lt => (same i (by omega)).trans ?_⟩
    simp only [Buffer.received, Resumable.store]
    rw [if_neg (by omega)]

/-- How an accepted record ends, on the memory that holds all that arrives. -/
theorem accepted_ended (reachable : Reachable rc) (start : rc.state = .message)
    (accepted : readRecord rc b pieces = some (rc', b')) :
    b'.last ≤ (b.receivedAll pieces).last ∧
      (∀ i < b'.last, (b.receivedAll pieces).mem i = b'.mem i) ∧
      ∃ line n, Ended (b.pos + rc.channelMessagePrefix.length) rc' b' line n := by
  have calm := reachable.calm start
  apply readRecord_rule (I := fun rest mem last c => c.Ready ∧
    Parsing mem last (b.pos + rc.channelMessagePrefix.length) c ∧
    Buffer.receivedAll ⟨mem, b.pos, last⟩ rest = b.receivedAll pieces) _ _ _ _ accepted
  · intro rest mem last c c' h before moved
    exact ⟨(parseByte_ok h.1 moved).1, parsing_step h.1 h.2.1 before moved, h.2.2⟩
  · intro piece rest b₁ progress state h
    exact ⟨h.1, parsing_received piece h.2.1, h.2.2⟩
  · intro rest mem last c progress p mem' h before done
    obtain ⟨rfl, ended⟩ := parsing_done h.2.1 before done
    obtain ⟨-, grown, same⟩ := receivedAll_keeps ⟨mem', b.pos, last⟩ rest
    rw [h.2.2] at grown same
    exact ⟨grown, same, ended⟩
  · refine ⟨reachable.ready b.pos, ?_, rfl⟩
    rw [start]
    exact ⟨rfl, calm⟩

theorem takeWhile_line {line : List UInt8} (bytes : LengthBytes line) (rest : List UInt8) :
    ((line ++ [cr]) ++ lf :: rest).takeWhile (· ≠ lf) = line ++ [cr] := by
  have plain : ∀ ch ∈ line ++ [cr], (decide (ch ≠ lf)) = true := by
    intro ch member
    rcases (bytes.concat (.inl rfl)) ch member with rfl | digit
    · decide
    · simpa using (digit_not_line_end digit).2
  rw [List.takeWhile_append_of_pos plain]
  simp

theorem Regular.of_wellFormed (grown : b'.last ≤ (b.receivedAll pieces).last)
    (same : ∀ i < b'.last, (b.receivedAll pieces).mem i = b'.mem i) (inside : b'.pos ≤ b'.last)
    (wellFormed : WellFormed rc b rc' b') :
    Regular rc.channelMessagePrefix (unparsed (b.receivedAll pieces)) := by
  obtain ⟨digits, payload, some, all, count, consumed, -⟩ := wellFormed
  obtain ⟨pos, -⟩ := receivedAll_keeps b pieces
  have read : b.pos ≤ b'.pos := by
    have width := congrArg List.length consumed
    have positive := List.length_pos_iff.mpr some
    simp only [cells_length, List.length_append] at width
    omega
  have input : unparsed (b.receivedAll pieces) =
      rc.channelMessagePrefix ++ (digits ++ cr :: lf :: (payload ++ (crlf ++
        cells (b.receivedAll pieces).mem b'.pos (b.receivedAll pieces).last))) := by
    rw [unparsed, pos, ← cells_append _ read (inside.trans grown)]
    rw [cells_congr fun k lt => same k (by omega), consumed]
    simp [crlf]
  have line : lengthLine rc.channelMessagePrefix (unparsed (b.receivedAll pieces)) =
      digits ++ [cr] := by
    rw [lengthLine, input, List.drop_left, ← List.singleton_append, ← List.append_assoc]
    exact takeWhile_line (fun ch digit => .inr (all ch digit)) _
  rw [Regular, line, List.dropLast_concat]
  refine ⟨⟨_, input.symm⟩, some, all, ⟨cells (b.receivedAll pieces).mem b'.pos
    (b.receivedAll pieces).last, ?_⟩⟩
  rw [input, count]
  have skipped : rc.channelMessagePrefix ++ (digits ++ cr :: lf :: (payload ++ (crlf ++
        cells (b.receivedAll pieces).mem b'.pos (b.receivedAll pieces).last))) =
      (rc.channelMessagePrefix ++ (digits ++ crlf) ++ payload) ++ (crlf ++
        cells (b.receivedAll pieces).mem b'.pos (b.receivedAll pieces).last) := by
    simp [crlf]
  rw [skipped, List.drop_left' (by simp [Nat.add_assoc])]

/-- The value of a cell that arrives, read off the input. -/
theorem cell_of_unparsed {xs : List UInt8} {k : Nat}
    (tail : xs <+: (unparsed (b.receivedAll pieces)).drop k) {i : Nat} (lt : i < xs.length) :
    b.pos + (k + i) < (b.receivedAll pieces).last ∧
      (b.receivedAll pieces).mem (b.pos + (k + i)) = xs[i] := by
  obtain ⟨pos, -⟩ := receivedAll_keeps b pieces
  obtain ⟨rest, eq⟩ := tail
  rw [unparsed, pos, ← cells_drop] at eq
  have inside := congrArg List.length eq
  simp only [cells_length, List.length_append] at inside
  have here : Holds (b.receivedAll pieces).mem (b.pos + k) (xs ++ rest) := cells_holds eq
  refine ⟨by omega, ?_⟩
  rw [← here.split.1 i lt, Nat.add_assoc]

/-- The length line found in the input is the one that was parsed. -/
theorem Ended.lengthLine_eq {line : List UInt8} {n : Nat}
    (grown : b'.last ≤ (b.receivedAll pieces).last)
    (same : ∀ i < b'.last, (b.receivedAll pieces).mem i = b'.mem i)
    (ended : Ended (b.pos + rc.channelMessagePrefix.length) rc' b' line n) :
    lengthLine rc.channelMessagePrefix (unparsed (b.receivedAll pieces)) = line ++ [cr] := by
  obtain ⟨read, -, start, inside, -, -, -⟩ := ended
  obtain ⟨pos, -⟩ := receivedAll_keeps b pieces
  have behind := read.after
  have one : rc'.messageStart - 1 + 1 = rc'.messageStart := by omega
  have rest : cells (b.receivedAll pieces).mem (b.pos + rc.channelMessagePrefix.length)
      (b.receivedAll pieces).last = (line ++ [cr]) ++
        lf :: cells (b.receivedAll pieces).mem rc'.messageStart (b.receivedAll pieces).last := by
    rw [← cells_append _ (show _ ≤ rc'.messageStart - 1 by omega) (by omega),
      cells_congr (fun k (lt : k < rc'.messageStart - 1) => same k (by omega)), read.cells_eq,
      cells_cons (by omega), same _ (by omega), read.lineFeed, one]
  rw [lengthLine, unparsed, pos, ← cells_drop, rest]
  exact takeWhile_line read.bytes _

/-- A record ends with the line end behind the declared bytes, where there is one. -/
theorem Ended.pos_eq {o : Nat} {line : List UInt8} {n : Nat} (ended : Ended o rc' b' line n)
    (carriage : b'.mem (rc'.messageStart + n) = cr)
    (feed : rc'.messageStart + n + 1 < b'.pos → b'.mem (rc'.messageStart + n + 1) = lf) :
    b'.pos = rc'.messageStart + n + 2 := by
  have start := ended.start
  rcases ended.stop with here | ⟨past, -, unended⟩
  · rw [here, ended.lineFeed] at carriage
    cases carriage
  · by_contra beyond
    exact unended (rc'.messageStart + n) (le_refl _) (by omega) carriage (feed (by omega))

theorem Regular.wellFormed {line : List UInt8} {n : Nat}
    (room : (b.receivedAll pieces).last ≤ redisBufferSize)
    (grown : b'.last ≤ (b.receivedAll pieces).last)
    (same : ∀ i < b'.last, (b.receivedAll pieces).mem i = b'.mem i)
    (ended : Ended (b.pos + rc.channelMessagePrefix.length) rc' b' line n)
    (regular : Regular rc.channelMessagePrefix (unparsed (b.receivedAll pieces))) :
    WellFormed rc b rc' b' := by
  have found := ended.lengthLine_eq grown same
  have read := ended.read
  have length := ended.length
  have start := ended.start
  have inside := ended.inside
  have stop := ended.stop
  obtain ⟨pos, -⟩ := receivedAll_keeps b pieces
  let o := b.pos + rc.channelMessagePrefix.length
  let s := rc'.messageStart
  have behind : o < s := read.after
  have width : s = o + line.length + 2 := by
    have := congrArg List.length read.cells_eq
    simp only [cells_length, List.length_append, List.length_singleton] at this
    omega
  rw [Regular, found, List.dropLast_concat] at regular
  obtain ⟨starts, some, digits, closed⟩ := regular
  have only : line.filter Decimal.isDigit = line := List.filter_eq_self.mpr digits
  have place (k : Nat) : b.pos + (rc.channelMessagePrefix.length + (line ++ crlf).length +
      Decimal.value line + k) = s + Decimal.value line + k := by
    simp [crlf]
    omega
  obtain ⟨below, carriage⟩ := cell_of_unparsed closed (show 0 < crlf.length by decide)
  obtain ⟨below', feed⟩ := cell_of_unparsed closed (show 1 < crlf.length by decide)
  rw [place] at below carriage below' feed
  -- so the number is the one counted down
  obtain rfl : n = Decimal.value line := by
    have small : Decimal.value line < 2 ^ 31 := by
      simp only [redisBufferSize] at room
      omega
    rw [only, atoi_small small] at length
    omega
  have near : s + Decimal.value line < b'.pos := by omega
  have last : b'.pos = s + Decimal.value line + 2 := by
    apply ended.pos_eq
    · rw [← same _ (by omega)]
      exact carriage
    · intro further
      rw [← same _ (by omega)]
      exact feed
  have old {i j : Nat} (le : j ≤ b'.pos) : cells (b.receivedAll pieces).mem i j = cells b'.mem i j :=
    cells_congr fun k lt => same k (by omega)
  have first : cells b'.mem b.pos o = rc.channelMessagePrefix := by
    obtain ⟨rest, eq⟩ := starts
    rw [unparsed, pos] at eq
    rw [← (cells_holds eq).split.1.cells_eq, old (by omega)]
  have ends : cells b'.mem (s + Decimal.value line) b'.pos = crlf := by
    rw [← old (le_refl _), last, cells_cons (by omega), cells_cons (by omega), cells_nil (by omega)]
    exact congrArg₂ (fun x y => [x, y]) carriage feed
  have one : cells b'.mem (s - 1) s = [lf] := by
    rw [cells_cons (by omega), cells_nil (by omega), read.lineFeed]
  refine ⟨line, cells b'.mem s (s + Decimal.value line), some, digits, ?_, ?_, ?_, ?_⟩
  · simp [cells_length]
  · calc cells b'.mem b.pos b'.pos
        = cells b'.mem b.pos o ++ ((cells b'.mem o (s - 1) ++ cells b'.mem (s - 1) s) ++
            (cells b'.mem s (s + Decimal.value line) ++
              cells b'.mem (s + Decimal.value line) b'.pos)) := by
          rw [cells_append _ (by omega) (by omega), cells_append _ (by omega) (by omega),
            cells_append _ (by omega) (by omega), cells_append _ (by omega) (by omega)]
      _ = _ := by
          rw [first, read.cells_eq, one, ends]
          simp [crlf]
  · simp only [crlf, List.length_append, List.length_cons, List.length_nil]
    omega
  · rw [ended.messageEnd, cells_length]
    omega

/-- An accepted record is well formed exactly when its start has arrived as it was compared,
its length line is digits alone and a line end stands where the number says. -/
theorem record_well_formed_iff (reachable : Reachable rc) (start : rc.state = .message)
    (room : (b.receivedAll pieces).last ≤ redisBufferSize)
    (accepted : readRecord rc b pieces = some (rc', b')) :
    WellFormed rc b rc' b' ↔
      Regular rc.channelMessagePrefix (unparsed (b.receivedAll pieces)) := by
  obtain ⟨grown, same, line, n, ended⟩ := accepted_ended reachable start accepted
  constructor
  · exact Regular.of_wellFormed grown same ended.inside
  · exact Regular.wellFormed room grown same ended

end Accepted

theorem record_well_formed_greeting :
    WellFormed subscribed (bufferOf (qmxjChannel.record greeting)) greeted.1 greeted.2 ↔
      Regular subscribed.channelMessagePrefix
        (unparsed ((bufferOf (qmxjChannel.record greeting)).receivedAll [])) :=
  record_well_formed_iff subscribed_reachable (by decide +kernel) (by decide +kernel) greeted_eq

def surplusRecord : List UInt8 := qmxjChannel.recordStart ++ bytes "2\r\nhixyz\r\n"

theorem surplus_accepted : (readRecord subscribed (bufferOf surplusRecord) []).isSome = true := by
  decide +kernel

/-- The surplus is skipped and becomes part of the message. -/
theorem surplus_record_accepted :
    Reachable subscribed ∧ subscribed.state = .message ∧
      ∃ rc' b', readRecord subscribed (bufferOf surplusRecord) [] = some (rc', b') ∧
        cells b'.mem rc'.messageStart rc'.messageEnd = bytes "hixyz" ∧
        ¬ WellFormed subscribed (bufferOf surplusRecord) rc' b' := by
  have ended := accepted_ended subscribed_reachable (by decide +kernel)
    (Option.some_get surplus_accepted).symm
  obtain ⟨grown, same, line, n, ended⟩ := ended
  refine ⟨subscribed_reachable, by decide +kernel, _, _, (Option.some_get surplus_accepted).symm,
    by decide +kernel, fun wellFormed => ?_⟩
  have regular := Regular.of_wellFormed grown same ended.inside wellFormed
  revert regular
  decide +kernel

end Ngx.Redis
