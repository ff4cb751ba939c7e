import Ngx.RedisResume
import Mathlib.Data.List.TakeWhile

/-! Streams of the redis server, a subscribe reply and then message records, and the cuts the
parser survives: it can be interrupted everywhere but inside a prefix that it compares as a
whole. -/
namespace Ngx.Redis

open Resumable

structure Channel where
  name : List UInt8
  nonempty : name ≠ []
  short : name.length ≤ 20
  plain : ∀ ch ∈ name, ch ≠ cr ∧ ch ≠ 0

/-- A bulk string; its length fits the `int` that `atoi` returns. -/
structure Bulk where
  payload : List UInt8
  bound : payload.length < 2 ^ 31

def crlf : List UInt8 := [cr, lf]

def numberLine (n : Nat) : List UInt8 := Decimal.numeral n ++ crlf

def Channel.recordStart (ch : Channel) : List UInt8 := messagePrefix ch.name.length ch.name

def Channel.subscribeReply (ch : Channel) (clients : Nat) : List UInt8 :=
  42 :: (subscribePrefix ++ ((numberLine ch.name.length ++ (ch.name ++ crlf)) ++
    (58 :: numberLine clients)))

def Channel.record (ch : Channel) (w : Bulk) : List UInt8 :=
  ch.recordStart ++ (numberLine w.payload.length ++ (w.payload ++ crlf))

def Channel.stream (ch : Channel) (clients : Nat) (ws : List Bulk) : List UInt8 :=
  ch.subscribeReply clients ++ (ws.map ch.record).flatten

section Rounds

variable {mem : Nat → UInt8} {rc : Progress} {state : State} {p : Nat}

def State.Bytewise : State → Prop
  | .subscribe | .message => False
  | _ => True

theorem crawl_byte {c' : Cursor} {out : List Extracted} (ready : Cursor.Ready ⟨rc, state, p⟩)
    (plain : state.Bytewise) (moved : step mem ⟨rc, state, p⟩ = .ok (out, c')) :
    Crawl machine mem ⟨rc, state, p⟩ out c' := by
  apply Crawl.byte ready moved
  cases state with
  | subscribe | message => exact plain.elim
  | _ => rfl

theorem startsWith_holds {s : List UInt8} (holds : Holds mem p s) : startsWith mem p s = true := by
  induction s generalizing p with
  | nil => rfl
  | cons b s ih => simp [startsWith, holds.head.1, ih holds.head.2]

theorem digit_not_line_end {ch : UInt8} (digit : Decimal.isDigit ch = true) : ch ≠ cr ∧ ch ≠ lf := by
  constructor
  all_goals
    intro eq
    subst eq
    revert digit
    decide

theorem digit_step (length : state = .messageLength ∨ state = .subscribeChannelLength)
    (digit : Decimal.isDigit (mem p) = true) (room : rc.number.length < numberSize) :
    step mem ⟨rc, state, p⟩ = .ok ([], ⟨{ rc with
      parseDone := false
      afterCr := false
      number := rc.number ++ [mem p] }, state, p + 1⟩) := by
  obtain ⟨notCr, notLf⟩ := digit_not_line_end digit
  rcases length with rfl | rfl <;>
    simp [step, parseByte, digitStored, notCr, notLf, digit, room]

theorem cr_step (accepts : state = .messageLength ∨ state = .subscribeChannelLength ∨
      state = .subscribeChannelName ∨ state = .subscribeChannelClinet ∨
      state = .messageValue ∧ rc.messageLength = 0) (here : mem p = cr) :
    step mem ⟨rc, state, p⟩ =
      .ok ([], ⟨{ rc with parseDone := false, afterCr := true }, state, p + 1⟩) := by
  have colon : cr ≠ 58 := by decide
  rcases accepts with rfl | rfl | rfl | rfl | ⟨rfl, none⟩ <;>
    simp_all [step, parseByte]

end Rounds

theorem atoi_small {ds : List UInt8} (bound : Decimal.value ds < 2 ^ 31) :
    atoi ds = Decimal.value ds := by
  have small : (Decimal.value ds : Int) ≤ longMax := by
    simp only [longMax]
    omega
  rw [atoi, min_eq_left small]
  exact Int.bmod_eq_of_le (by omega) (by omega)

theorem atoi_numeral {n : Nat} (bound : n < 2 ^ 31) : atoi (Decimal.numeral n) = n := by
  rw [atoi_small (by rwa [Decimal.value_numeral]), Decimal.value_numeral]

theorem numeral_room {n : Nat} (bound : n < 2 ^ 31) : (Decimal.numeral n).length < numberSize := by
  have short := Decimal.numeral_length_le (n := n) (k := 19) (by omega) (by omega)
  simp only [numberSize]
  omega

section Numbers

variable {mem : Nat → UInt8} {rc : Progress} {state : State} {p : Nat}

theorem digits_crawl (length : state = .messageLength ∨ state = .subscribeChannelLength)
    (d : UInt8) (ds : List UInt8) (ready : Cursor.Ready ⟨rc, state, p⟩)
    (digits : ∀ ch ∈ d :: ds, Decimal.isDigit ch = true)
    (room : rc.number.length + (d :: ds).length ≤ numberSize) (holds : Holds mem p (d :: ds)) :
    Crawl machine mem ⟨rc, state, p⟩ [] ⟨{ rc with
      parseDone := false
      afterCr := false
      number := rc.number ++ d :: ds }, state, p + (d :: ds).length⟩ := by
  have bytewise : state.Bytewise := by rcases length with rfl | rfl <;> trivial
  induction ds generalizing d rc p with
  | nil =>
    obtain ⟨rfl, -⟩ := holds.head
    have space : rc.number.length < numberSize := room
    have moved := digit_step length (digits _ List.mem_cons_self) space
    exact crawl_byte ready bytewise moved
  | cons d' ds ih =>
    obtain ⟨rfl, later⟩ := holds.head
    have space : rc.number.length < numberSize := by
      simp only [List.length_cons] at room
      omega
    have moved := digit_step length (digits _ List.mem_cons_self) space
    have rest := ih d' (machine.moves ready moved).1
      (fun ch member => digits ch (List.mem_cons_of_mem _ member))
      (by simp only [List.length_append, List.length_cons, List.length_nil] at room ⊢; omega) later
    have crawl := Crawl.trans ready (crawl_byte ready bytewise moved) rest
    simpa [Nat.add_assoc, Nat.add_comm 1] using crawl

/-- A number up to its line feed; `after_cr` is set there. -/
theorem number_crawl (length : state = .messageLength ∨ state = .subscribeChannelLength) {n : Nat}
    (ready : Cursor.Ready ⟨rc, state, p⟩) (empty : rc.number = []) (bound : n < 2 ^ 31)
    (holds : Holds mem p (numberLine n)) :
    Crawl machine mem ⟨rc, state, p⟩ [] ⟨{ rc with
      parseDone := false
      afterCr := true
      number := Decimal.numeral n }, state, p + (Decimal.numeral n).length + 1⟩ ∧
      mem (p + (Decimal.numeral n).length + 1) = lf := by
  obtain ⟨numeral, ends⟩ := holds.split
  have bytewise : state.Bytewise := by rcases length with rfl | rfl <;> trivial
  have room := numeral_room bound
  cases eq : Decimal.numeral n with
  | nil => exact (Decimal.numeral_ne_nil n eq).elim
  | cons d ds =>
    have digits : ∀ ch ∈ d :: ds, Decimal.isDigit ch = true :=
      fun ch member => Decimal.numeral_isDigit (eq ▸ member)
    rw [eq] at numeral ends room
    have crawl := digits_crawl length d ds ready digits (by rw [empty]; simp at room ⊢; omega) numeral
    have next := crawl.path.valid ready
    have accepts : state = .messageLength ∨ state = .subscribeChannelLength ∨
        state = .subscribeChannelName ∨ state = .subscribeChannelClinet ∨
        state = .messageValue ∧ rc.messageLength = 0 := by
      rcases length with rfl | rfl <;> simp
    have moved := @cr_step mem { rc with
      parseDone := false
      afterCr := false
      number := rc.number ++ d :: ds } state _ accepts ends.head.1
    rw [empty] at moved crawl next
    exact ⟨crawl.trans ready (crawl_byte next bytewise moved), ends.head.2.head.1⟩

end Numbers

section Records

variable {mem : Nat → UInt8} {rc : Progress} {p n : Nat}

theorem length_step (here : mem p = lf) (after : rc.afterCr = true)
    (number : rc.number = Decimal.numeral n) (small : n ≤ 256) :
    step mem ⟨rc, .messageLength, p⟩ = .ok ([], ⟨{ rc with
      parseDone := false
      messageLength := n
      messageStart := p + 1 }, .messageValue, p + 1⟩) := by
  have bound : n < 2 ^ 31 := by omega
  have room : ¬ numberSize ≤ (Decimal.numeral n).length := Nat.not_le.mpr (numeral_room bound)
  have length : ¬ maxMessageLength < (n : Int) := by
    simp only [maxMessageLength]
    omega
  have notCr : lf ≠ cr := by decide
  simp only [step, parseByte, here, if_neg notCr, after, and_self, if_true, if_neg room, number,
    atoi_numeral bound, if_neg length]

theorem length_halt (here : mem p = lf) (after : rc.afterCr = true)
    (number : rc.number = Decimal.numeral n) (bound : n < 2 ^ 31) (large : 256 < n) :
    step mem ⟨rc, .messageLength, p⟩ = .error .invalidMessage := by
  have room : ¬ numberSize ≤ (Decimal.numeral n).length := Nat.not_le.mpr (numeral_room bound)
  have length : maxMessageLength < (n : Int) := by
    simp only [maxMessageLength]
    omega
  have notCr : lf ≠ cr := by decide
  simp only [step, parseByte, here, if_neg notCr, after, and_self, if_true, if_neg room, number,
    atoi_numeral bound, if_pos length]

theorem value_step (length : rc.messageLength = (n + 1 : Nat)) :
    step mem ⟨rc, .messageValue, p⟩ = .ok ([], ⟨{ rc with
      parseDone := false
      messageLength := n }, .messageValue, p + 1⟩) := by
  have left : ((n + 1 : Nat) : Int) ≠ 0 := by omega
  have less : ((n + 1 : Nat) : Int) - 1 = n := by omega
  simp only [step, parseByte, length, if_pos left, less]

/-- The payload is counted, whatever its bytes. -/
theorem value_crawl (ready : Cursor.Ready ⟨rc, .messageValue, p⟩) (length : rc.messageLength = n)
    (busy : rc.parseDone = false) :
    Crawl machine mem ⟨rc, .messageValue, p⟩ []
      ⟨{ rc with messageLength := 0 }, .messageValue, p + n⟩ := by
  induction n generalizing rc p with
  | zero =>
    have same : { rc with messageLength := 0 } = rc := by rw [← Int.natCast_zero, ← length]
    rw [same]
    exact .refl
  | succ n ih =>
    have moved : step mem ⟨rc, .messageValue, p⟩ = _ := value_step length
    have rest := @ih { rc with parseDone := false, messageLength := n } (p + 1) ready rfl rfl
    have crawl := Crawl.trans ready (crawl_byte ready trivial moved) rest
    rw [← busy, Nat.add_assoc, Nat.add_comm 1 n] at crawl
    exact crawl

theorem message_end_step (here : mem p = lf) (after : rc.afterCr = true)
    (length : rc.messageLength = 0) (quiet : rc.error = false) :
    step mem ⟨rc, .messageValue, p⟩ =
      .ok ([extracted mem { rc with messageEnd := p - 1 }],
        ⟨{ rc with parseDone := false, afterCr := false, messageEnd := p - 1 }, .message, p + 1⟩) := by
  have notCr : lf ≠ cr := by decide
  simp [step, parseByte, here, notCr, after, length, quiet, extracted]

theorem extracted_holds {bs : List UInt8} (holds : Holds mem p bs) (start : rc.messageStart = p)
    (stop : rc.messageEnd = p + bs.length) : extracted mem rc = ⟨p, p + bs.length, bs⟩ := by
  rw [extracted, start, stop, holds.cells_eq]

/-- The rest of a record after its prefix, for at most 256 bytes of payload. -/
theorem body_crawl {payload : List UInt8} (ready : rc.channelMessagePrefix ≠ [])
    (empty : rc.number = []) (quiet : rc.error = false) (small : payload.length ≤ 256)
    (holds : Holds mem p (numberLine payload.length ++ (payload ++ crlf))) :
    ∃ o rc', Crawl machine mem ⟨rc, .messageLength, p⟩ [o]
        ⟨rc', .message, p + ((numberLine payload.length).length + (payload.length + 2))⟩ ∧
      (∃ c, Path machine mem ⟨rc, .messageLength, p⟩ [] c ∧ step mem c = .ok ([o],
        ⟨rc', .message, p + ((numberLine payload.length).length + (payload.length + 2))⟩)) ∧
      o.bytes = payload ∧ o.messageEnd = o.messageStart + payload.length ∧
      rc'.channelMessagePrefix = rc.channelMessagePrefix ∧ rc'.error = false := by
  obtain ⟨line, rest⟩ := holds.split
  obtain ⟨value, ends⟩ := rest.split
  let rc₁ : Progress := { rc with
    parseDone := false
    afterCr := true
    number := Decimal.numeral payload.length }
  let q := p + (Decimal.numeral payload.length).length + 1
  let start := q + 1
  have lineEnd : p + (numberLine payload.length).length = start := by
    simp only [numberLine, crlf, start, q, List.length_append, List.length_cons, List.length_nil]
    omega
  rw [lineEnd] at value ends
  obtain ⟨number, lineFeed⟩ : Crawl machine mem ⟨rc, .messageLength, p⟩ []
      ⟨rc₁, .messageLength, q⟩ ∧ mem q = lf :=
    number_crawl (.inl rfl) ready empty (by omega) line
  let rc₂ : Progress := { rc₁ with
    parseDone := false
    messageLength := payload.length
    messageStart := start }
  have length : Crawl machine mem ⟨rc₁, .messageLength, q⟩ [] ⟨rc₂, .messageValue, start⟩ :=
    crawl_byte ready trivial (length_step lineFeed rfl rfl small)
  let stop := start + payload.length
  have counted : Crawl machine mem ⟨rc₂, .messageValue, start⟩ []
      ⟨{ rc₂ with messageLength := 0 }, .messageValue, stop⟩ :=
    value_crawl ready rfl rfl
  let rc₃ : Progress := { rc₂ with messageLength := 0, parseDone := false, afterCr := true }
  have carriage : Crawl machine mem ⟨{ rc₂ with messageLength := 0 }, .messageValue, stop⟩ []
      ⟨rc₃, .messageValue, stop + 1⟩ :=
    crawl_byte ready trivial (cr_step (.inr (.inr (.inr (.inr ⟨rfl, rfl⟩)))) ends.head.1)
  let rc₄ : Progress := { rc₃ with parseDone := false, afterCr := false, messageEnd := stop }
  have moved : step mem ⟨rc₃, .messageValue, stop + 1⟩ =
      .ok ([extracted mem { rc₃ with messageEnd := stop }], ⟨rc₄, .message, stop + 2⟩) :=
    message_end_step ends.head.2.head.1 rfl rfl quiet
  have ends : p + ((numberLine payload.length).length + (payload.length + 2)) = stop + 2 := by
    omega
  have payload : (extracted mem { rc₃ with messageEnd := stop }).bytes = payload := by
    rw [extracted_holds value rfl rfl]
  have silent := number.trans ready (length.trans ready (counted.trans ready carriage))
  rw [ends]
  exact ⟨_, rc₄, silent.trans ready (crawl_byte ready trivial moved), ⟨_, silent.path, moved⟩,
    payload, rfl, rfl, quiet⟩

structure AtRecord (ch : Channel) (p : Nat) (c : Cursor) : Prop where
  state : c.state = .message
  position : c.p = p
  recordStart : c.rc.channelMessagePrefix = ch.recordStart
  quiet : c.rc.error = false

variable {ch : Channel} {c : Cursor} {w : Bulk}

theorem AtRecord.ready (h : AtRecord ch p c) : c.Ready := by
  rw [Cursor.Ready, h.state, h.recordStart]
  exact messagePrefix_ne_nil _ _

theorem AtRecord.reach (h : AtRecord ch p c) : c.reach = p + ch.recordStart.length := by
  rw [Cursor.reach, h.state, h.position, h.recordStart]

/-- The start of a record is passed in one step. -/
theorem AtRecord.jump (h : AtRecord ch p c) (holds : Holds mem p ch.recordStart) :
    step mem c = .ok ([], ⟨{ c.rc with parseDone := false, number := [] }, .messageLength,
      p + ch.recordStart.length⟩) := by
  obtain ⟨rc, state, p'⟩ := c
  obtain ⟨rfl, rfl, start, -⟩ := h
  simp only at start
  have same := startsWith_holds holds
  have positive := List.length_pos_iff.mpr (messagePrefix_ne_nil ch.name.length ch.name)
  have land : p' + ch.recordStart.length - 1 + 1 = p' + ch.recordStart.length := by
    simp only [Channel.recordStart]
    omega
  simp only [step, parseByte, start, same, if_true, land]

/-- A record of at most 256 bytes yields its payload; past its prefix it can be interrupted
everywhere. -/
theorem AtRecord.record (h : AtRecord ch p c) (small : w.payload.length ≤ 256)
    (holds : Holds mem p (ch.record w)) :
    ∃ c₁ c₂ o, step mem c = .ok ([], c₁) ∧ Crawl machine mem c₁ [o] c₂ ∧
      (∃ c', Path machine mem c₁ [] c' ∧ step mem c' = .ok ([o], c₂)) ∧ o.bytes = w.payload ∧
      o.messageEnd = o.messageStart + o.bytes.length ∧
      AtRecord ch (p + (ch.record w).length) c₂ := by
  obtain ⟨start, body⟩ := holds.split
  have jump := h.jump start
  have ready : c.rc.channelMessagePrefix ≠ [] := by
    rw [h.recordStart]
    exact messagePrefix_ne_nil _ _
  obtain ⟨o, rc', crawl, last, payload, span, keep, quiet⟩ :=
    @body_crawl mem { c.rc with parseDone := false, number := [] } (p + ch.recordStart.length)
      w.payload ready rfl h.quiet small body
  refine ⟨_, _, o, jump, crawl, last, payload, by rw [payload, span], rfl, ?_,
    keep.trans h.recordStart, quiet⟩
  simp [Channel.record, crlf, Nat.add_assoc]

/-- A larger record is refused at the end of its length line. -/
theorem AtRecord.refused (h : AtRecord ch p c) (large : 256 < w.payload.length)
    (holds : Holds mem p (ch.record w)) :
    ∃ c₁ c₂, step mem c = .ok ([], c₁) ∧ Crawl machine mem c₁ [] c₂ ∧
      step mem c₂ = .error .invalidMessage ∧ c₂.reach = c₂.p + 1 ∧
      c₂.p < p + (ch.record w).length := by
  obtain ⟨start, body⟩ := holds.split
  obtain ⟨line, -⟩ := body.split
  have jump := h.jump start
  have ready : c.rc.channelMessagePrefix ≠ [] := by
    rw [h.recordStart]
    exact messagePrefix_ne_nil _ _
  obtain ⟨number, lineFeed⟩ :=
    @number_crawl mem { c.rc with parseDone := false, number := [] } .messageLength
      (p + ch.recordStart.length) (.inl rfl) _ ready rfl w.bound line
  refine ⟨_, _, jump, number, length_halt lineFeed rfl rfl w.bound large, rfl, ?_⟩
  simp [Channel.record, numberLine, crlf]
  omega

end Records

section Reply

variable {mem : Nat → UInt8} {rc : Progress} {p n : Nat}

theorem channelLength_step (here : mem p = lf) (after : rc.afterCr = true)
    (number : rc.number = Decimal.numeral n) (positive : 0 < n) (small : n ≤ 20) :
    step mem ⟨rc, .subscribeChannelLength, p⟩ = .ok ([], ⟨{ rc with
      parseDone := false
      afterCr := false
      numberLength := n
      channelNameLength := n
      channelName := [] }, .subscribeChannelName, p + 1⟩) := by
  have bound : n < 2 ^ 31 := by omega
  have room : ¬ numberSize ≤ (Decimal.numeral n).length := Nat.not_le.mpr (numeral_room bound)
  have length : ¬ ((n : Int) ≤ 0 ∨ 20 < (n : Int)) := by omega
  have notCr : lf ≠ cr := by decide
  simp only [step, parseByte, here, if_neg notCr, after, and_self, if_true, if_neg room, number,
    atoi_numeral bound, if_neg length]

theorem name_step (plain : mem p ≠ cr) (room : rc.channelName.length < rc.channelNameLength)
    (after : rc.afterCr = false) :
    step mem ⟨rc, .subscribeChannelName, p⟩ = .ok ([], ⟨{ rc with
      parseDone := false
      afterCr := false
      channelName := rc.channelName ++ [mem p] }, .subscribeChannelName, p + 1⟩) := by
  simp [step, parseByte, plain, after, Int.not_le.mpr room]

theorem name_crawl (b : UInt8) (bs : List UInt8) (plain : ∀ ch ∈ b :: bs, ch ≠ cr)
    (room : rc.channelName.length + (b :: bs).length ≤ rc.channelNameLength)
    (after : rc.afterCr = false) (holds : Holds mem p (b :: bs)) :
    Crawl machine mem ⟨rc, .subscribeChannelName, p⟩ [] ⟨{ rc with
      parseDone := false
      afterCr := false
      channelName := rc.channelName ++ b :: bs }, .subscribeChannelName, p + (b :: bs).length⟩ := by
  have ready (rc : Progress) (p : Nat) : Cursor.Ready ⟨rc, .subscribeChannelName, p⟩ := trivial
  induction bs generalizing b rc p with
  | nil =>
    obtain ⟨rfl, -⟩ := holds.head
    have space : (rc.channelName.length : Int) < rc.channelNameLength := by
      simp only [List.length_cons, List.length_nil] at room
      omega
    exact crawl_byte (ready rc p) trivial (name_step (plain _ List.mem_cons_self) space after)
  | cons b' bs ih =>
    obtain ⟨rfl, later⟩ := holds.head
    have space : (rc.channelName.length : Int) < rc.channelNameLength := by
      simp only [List.length_cons] at room
      omega
    have moved := name_step (plain _ List.mem_cons_self) space after
    have rest := @ih { rc with
        parseDone := false
        afterCr := false
        channelName := rc.channelName ++ [mem p] } (p + 1) b'
      (fun ch member => plain ch (List.mem_cons_of_mem _ member))
      (by simp at room ⊢; omega) rfl later
    have crawl := Crawl.trans (ready rc p) (crawl_byte (ready rc p) trivial moved) rest
    simpa [Nat.add_assoc, Nat.add_comm 1] using crawl

theorem takeWhile_name {name : List UInt8} (plain : ∀ ch ∈ name, ch ≠ cr ∧ ch ≠ 0) :
    name.takeWhile (· ≠ 0) = name := by
  apply List.takeWhile_eq_self_iff.mpr
  intro ch member
  simpa using (plain ch member).2

theorem name_end_step {name : List UInt8} (here : mem p = lf) (after : rc.afterCr = true)
    (stored : rc.channelName = name) (length : rc.channelNameLength = name.length)
    (plain : ∀ ch ∈ name, ch ≠ cr ∧ ch ≠ 0) :
    step mem ⟨rc, .subscribeChannelName, p⟩ = .ok ([], ⟨{ rc with
      parseDone := false
      afterCr := false
      channelMessagePrefix := messagePrefix name.length name }, .subscribeChannelClinet, p + 1⟩) := by
  have notCr : lf ≠ cr := by decide
  have whole := takeWhile_name plain
  simp only [step, parseByte, here, if_neg notCr, after, and_self, if_true, stored, whole, length,
    ne_eq, not_true_eq_false, if_false]

theorem client_digit_step (digit : Decimal.isDigit (mem p) = true) :
    step mem ⟨rc, .subscribeChannelClinet, p⟩ =
      .ok ([], ⟨{ rc with parseDone := false, afterCr := false }, .subscribeChannelClinet, p + 1⟩) := by
  obtain ⟨notCr, notLf⟩ := digit_not_line_end digit
  have notColon : mem p ≠ 58 := by
    intro eq
    rw [eq] at digit
    revert digit
    decide
  simp [step, parseByte, notCr, notLf, notColon, digit]

theorem digits_skipped (d : UInt8) (ds : List UInt8) (ready : rc.channelMessagePrefix ≠ [])
    (digits : ∀ ch ∈ d :: ds, Decimal.isDigit ch = true) (holds : Holds mem p (d :: ds)) :
    Crawl machine mem ⟨rc, .subscribeChannelClinet, p⟩ []
      ⟨{ rc with parseDone := false, afterCr := false }, .subscribeChannelClinet,
        p + (d :: ds).length⟩ := by
  induction ds generalizing d rc p with
  | nil =>
    obtain ⟨rfl, -⟩ := holds.head
    exact crawl_byte ready trivial (client_digit_step (digits _ List.mem_cons_self))
  | cons d' ds ih =>
    obtain ⟨rfl, later⟩ := holds.head
    have moved : Crawl machine mem ⟨rc, .subscribeChannelClinet, p⟩ []
        ⟨{ rc with parseDone := false, afterCr := false }, .subscribeChannelClinet, p + 1⟩ :=
      crawl_byte ready trivial (client_digit_step (digits _ List.mem_cons_self))
    have rest := @ih { rc with parseDone := false, afterCr := false } (p + 1) d' ready
      (fun ch member => digits ch (List.mem_cons_of_mem _ member)) later
    have crawl := Crawl.trans ready moved rest
    simpa [Nat.add_assoc, Nat.add_comm 1] using crawl

/-- The number of clients is skipped, however long. -/
theorem clients_crawl (clients : Nat) (ready : rc.channelMessagePrefix ≠ [])
    (holds : Holds mem p (58 :: numberLine clients)) :
    Crawl machine mem ⟨rc, .subscribeChannelClinet, p⟩ []
      ⟨{ rc with parseDone := false, afterCr := false }, .message,
        p + (58 :: numberLine clients).length⟩ := by
  obtain ⟨colon, line⟩ := holds.head
  obtain ⟨count, ends⟩ := line.split
  let rc₁ : Progress := { rc with parseDone := false }
  have colonStep : step mem ⟨rc, .subscribeChannelClinet, p⟩ =
      .ok ([], ⟨rc₁, .subscribeChannelClinet, p + 1⟩) := by
    simp [step, parseByte, colon, rc₁]
  have first : Crawl machine mem ⟨rc, .subscribeChannelClinet, p⟩ []
      ⟨rc₁, .subscribeChannelClinet, p + 1⟩ := crawl_byte ready trivial colonStep
  let rc₂ : Progress := { rc with parseDone := false, afterCr := false }
  let q := p + 1 + (Decimal.numeral clients).length
  have digits : Crawl machine mem ⟨rc₁, .subscribeChannelClinet, p + 1⟩ []
      ⟨rc₂, .subscribeChannelClinet, q⟩ := by
    cases eq : Decimal.numeral clients with
    | nil => exact (Decimal.numeral_ne_nil clients eq).elim
    | cons d ds =>
      have all : ∀ ch ∈ d :: ds, Decimal.isDigit ch = true :=
        fun ch member => Decimal.numeral_isDigit (eq ▸ member)
      rw [eq] at count
      have crawl := @digits_skipped mem rc₁ _ d ds ready all count
      rwa [← eq] at crawl
  let rc₃ : Progress := { rc with parseDone := false, afterCr := true }
  have carriage : Crawl machine mem ⟨rc₂, .subscribeChannelClinet, q⟩ []
      ⟨rc₃, .subscribeChannelClinet, q + 1⟩ :=
    crawl_byte ready trivial (cr_step (.inr (.inr (.inr (.inl rfl)))) ends.head.1)
  have lineFeed : mem (q + 1) = lf := ends.head.2.head.1
  have lineFeedStep : step mem ⟨rc₃, .subscribeChannelClinet, q + 1⟩ =
      .ok ([], ⟨rc₂, .message, q + 2⟩) := by
    have notColon : lf ≠ 58 := by decide
    have notCr : lf ≠ cr := by decide
    simp [step, parseByte, lineFeed, notColon, notCr, rc₃, rc₂]
  have last : Crawl machine mem ⟨rc₃, .subscribeChannelClinet, q + 1⟩ [] ⟨rc₂, .message, q + 2⟩ :=
    crawl_byte ready trivial lineFeedStep
  have stop : p + (58 :: numberLine clients).length = q + 2 := by
    simp [numberLine, crlf, q]
    omega
  rw [stop]
  exact first.trans ready (digits.trans ready (carriage.trans ready last))

/-- The lines of the reply that name the channel. -/
theorem channel_crawl (ch : Channel) (empty : rc.number = [])
    (holds : Holds mem p (numberLine ch.name.length ++ (ch.name ++ crlf))) :
    ∃ rc', Crawl machine mem ⟨rc, .subscribeChannelLength, p⟩ []
        ⟨rc', .subscribeChannelClinet, p + ((numberLine ch.name.length).length +
          (ch.name.length + 2))⟩ ∧
      rc'.channelMessagePrefix = ch.recordStart ∧ rc'.error = rc.error := by
  obtain ⟨line, rest⟩ := holds.split
  obtain ⟨name, ends⟩ := rest.split
  have short := ch.short
  have ready (rc : Progress) (p : Nat) : Cursor.Ready ⟨rc, .subscribeChannelLength, p⟩ := trivial
  have ready' (rc : Progress) (p : Nat) : Cursor.Ready ⟨rc, .subscribeChannelName, p⟩ := trivial
  let n := ch.name.length
  let rc₁ : Progress := { rc with parseDone := false, afterCr := true, number := Decimal.numeral n }
  let q := p + (Decimal.numeral n).length + 1
  obtain ⟨number, lineFeed⟩ : Crawl machine mem ⟨rc, .subscribeChannelLength, p⟩ []
      ⟨rc₁, .subscribeChannelLength, q⟩ ∧ mem q = lf :=
    number_crawl (.inr rfl) (ready rc p) empty (by omega) line
  have lineEnd : p + (numberLine ch.name.length).length = q + 1 := by
    simp [numberLine, crlf, q, n]
    omega
  rw [lineEnd] at name ends
  let rc₂ : Progress := { rc₁ with
    parseDone := false
    afterCr := false
    numberLength := n
    channelNameLength := n
    channelName := [] }
  have length : Crawl machine mem ⟨rc₁, .subscribeChannelLength, q⟩ []
      ⟨rc₂, .subscribeChannelName, q + 1⟩ :=
    crawl_byte (ready rc₁ q) trivial
      (channelLength_step lineFeed rfl rfl (List.length_pos_iff.mpr ch.nonempty) short)
  let rc₃ : Progress := { rc₂ with channelName := ch.name }
  have stored : Crawl machine mem ⟨rc₂, .subscribeChannelName, q + 1⟩ []
      ⟨rc₃, .subscribeChannelName, q + 1 + n⟩ := by
    cases eq : ch.name with
    | nil => exact (ch.nonempty eq).elim
    | cons b bs =>
      have plain : ∀ x ∈ b :: bs, x ≠ cr := fun x member => (ch.plain x (eq ▸ member)).1
      rw [eq] at name
      have room : (rc₂.channelName.length : Int) + (b :: bs).length ≤ rc₂.channelNameLength := by
        simp [rc₂, n, eq]
      have crawl := name_crawl b bs plain room rfl name
      simpa [rc₃, rc₂, n, eq] using crawl
  let rc₄ : Progress := { rc₃ with parseDone := false, afterCr := true }
  have carriage : Crawl machine mem ⟨rc₃, .subscribeChannelName, q + 1 + n⟩ []
      ⟨rc₄, .subscribeChannelName, q + 1 + n + 1⟩ :=
    crawl_byte (ready' rc₃ (q + 1 + n)) trivial (cr_step (.inr (.inr (.inl rfl))) ends.head.1)
  let rc₅ : Progress := { rc₄ with
    parseDone := false
    afterCr := false
    channelMessagePrefix := ch.recordStart }
  have last : Crawl machine mem ⟨rc₄, .subscribeChannelName, q + 1 + n + 1⟩ []
      ⟨rc₅, .subscribeChannelClinet, q + 1 + n + 2⟩ :=
    crawl_byte (ready' rc₄ (q + 1 + n + 1)) trivial (name_end_step ends.head.2.head.1 rfl rfl rfl ch.plain)
  have stop : p + ((numberLine ch.name.length).length + (ch.name.length + 2)) = q + 1 + n + 2 := by
    omega
  rw [stop]
  have named := stored.trans (ready' rc₂ (q + 1)) (carriage.trans (ready' rc₃ (q + 1 + n)) last)
  exact ⟨rc₅, number.trans (ready rc p) (length.trans (ready rc₁ q) named), rfl, rfl⟩

/-- The reply is read to its end; past its prefix it can be interrupted everywhere. -/
theorem reply_crawl (ch : Channel) (clients : Nat) (quiet : rc.error = false)
    (holds : Holds mem p (ch.subscribeReply clients)) :
    ∃ c₁ c₂ c₃, Crawl machine mem ⟨rc, .start, p⟩ [] c₁ ∧ c₁.p = p + 1 ∧
      step mem c₁ = .ok ([], c₂) ∧ c₁.reach = p + 20 ∧ Crawl machine mem c₂ [] c₃ ∧
      AtRecord ch (p + (ch.subscribeReply clients).length) c₃ := by
  obtain ⟨star, rest⟩ := holds.head
  obtain ⟨head, rest⟩ := rest.split
  obtain ⟨channel, count⟩ := rest.split
  let rc₁ : Progress := { rc with parseDone := false }
  have first : Crawl machine mem ⟨rc, .start, p⟩ [] ⟨rc₁, .subscribe, p + 1⟩ := by
    have start : Cursor.Ready ⟨rc, .start, p⟩ := trivial
    apply crawl_byte start trivial
    simp [step, parseByte, star, rc₁]
  let rc₂ : Progress := { rc₁ with number := [] }
  have jump : step mem ⟨rc₁, .subscribe, p + 1⟩ =
      .ok ([], ⟨rc₂, .subscribeChannelLength, p + 1 + subscribePrefix.length⟩) := by
    have same := startsWith_holds head
    simp [step, parseByte, same, subscribePrefix_length, rc₁, rc₂]
  let q := p + 1 + subscribePrefix.length
  obtain ⟨rc₃, named, start, keep⟩ := @channel_crawl mem rc₂ q ch rfl channel
  have ready : rc₃.channelMessagePrefix ≠ [] := by
    rw [start]
    exact messagePrefix_ne_nil _ _
  let r := q + ((numberLine ch.name.length).length + (ch.name.length + 2))
  have here : p + 1 + subscribePrefix.length +
      (numberLine ch.name.length ++ (ch.name ++ crlf)).length = r := by
    simp [r, q, crlf]
  rw [here] at count
  have counted := clients_crawl clients ready count
  have next : Cursor.Ready ⟨rc₂, .subscribeChannelLength, q⟩ := trivial
  have stop : p + (ch.subscribeReply clients).length = r + (58 :: numberLine clients).length := by
    simp [Channel.subscribeReply, r, q, crlf]
    omega
  refine ⟨_, _, _, first, rfl, jump, ?_, named.trans next counted, rfl, ?_, start, keep.trans quiet⟩
  · simp [Cursor.reach, subscribePrefix_length]
  · rw [stop]

end Reply

/-- Within the prefix of a record, the first of which starts at `p`, up to the first record
that is refused. -/
def Channel.SplitsRecord (ch : Channel) : (p : Nat) → List Bulk → (t : Nat) → Prop
  | _, [], _ => False
  | p, w :: ws, t => (p < t ∧ t < p + ch.recordStart.length) ∨
    w.payload.length ≤ 256 ∧ ch.SplitsRecord (p + (ch.record w).length) ws t

def Channel.Splits (ch : Channel) (clients : Nat) (ws : List Bulk) (t : Nat) : Prop :=
  (1 < t ∧ t < 20) ∨ ch.SplitsRecord (ch.subscribeReply clients).length ws t

theorem Channel.SplitsRecord.bounds {ch : Channel} {p t : Nat} {ws : List Bulk}
    (splits : ch.SplitsRecord p ws t) : p < t ∧ t < p + (ws.map ch.record).flatten.length := by
  induction ws generalizing p with
  | nil => exact splits.elim
  | cons w ws ih =>
    have length : ch.recordStart.length ≤ (ch.record w).length := by simp [Channel.record]
    simp only [List.map_cons, List.flatten_cons, List.length_append]
    rcases splits with here | ⟨-, later⟩
    · omega
    · have := ih later
      omega

section Cuts

variable {mem : Nat → UInt8} {ch : Channel} {p t : Nat} {c : Cursor} {w : Bulk} {ws : List Bulk}

def CutAt (mem : Nat → UInt8) (t : Nat) (c : Cursor) (splits : Prop) : Prop :=
  (splits ∧ ∃ os c', Run machine mem t c os (.waiting c') ∧ t < c'.p) ∨
    (¬ splits ∧ Within machine mem t c)

theorem records_cut (place : AtRecord ch p c) (holds : Holds mem p (ws.map ch.record).flatten)
    (le : p ≤ t) (inside : t ≤ p + (ws.map ch.record).flatten.length) :
    CutAt mem t c (ch.SplitsRecord p ws t) := by
  have position : machine.pos c = p := place.position
  induction ws generalizing p c with
  | nil =>
    have here : t = p := by simpa using Nat.le_antisymm inside le
    exact .inr ⟨id, .wait (by omega)⟩
  | cons w ws ih =>
    obtain ⟨record, rest⟩ := holds.split
    obtain ⟨start, -⟩ := record.split
    obtain ⟨c₁, jump, position₁⟩ : ∃ c₁, machine.step mem c = .ok ([], c₁) ∧
        machine.pos c₁ = p + ch.recordStart.length := ⟨_, place.jump start, rfl⟩
    have ready₁ := (machine.moves place.ready jump).1
    have reach : machine.reach c = p + ch.recordStart.length := place.reach
    by_cases early : t = p
    · refine .inr ⟨?_, .wait (by omega)⟩
      rintro (bad | ⟨-, later⟩)
      · omega
      · have := later.bounds
        omega
    by_cases split : t < p + ch.recordStart.length
    · have past : t < machine.pos c₁ := by omega
      exact .inl ⟨.inl (by omega), _, c₁, .next (by omega) jump (.wait (Nat.le_of_lt past)), past⟩
    have notHere : ¬ (p < t ∧ t < p + ch.recordStart.length) := by omega
    by_cases small : w.payload.length ≤ 256
    · obtain ⟨_, c₂, o, jump', crawl, -, -, -, next⟩ := place.record small record
      cases jump.symm.trans jump'
      have position₂ : machine.pos c₂ = p + (ch.record w).length := next.position
      by_cases within : t ≤ p + (ch.record w).length
      · refine .inr ⟨?_, .next (by omega) jump (crawl.stops t (by omega) (by omega))⟩
        rintro (bad | ⟨-, later⟩)
        · exact notHere bad
        · have := later.bounds
          omega
      · have rest := ih next rest (by omega) (by simpa [Nat.add_assoc] using inside) position₂
        rcases rest with ⟨splits, os, c', run, past⟩ | ⟨splits, later⟩
        · have run := crawl.path.run ready₁ (by omega) run
          exact .inl ⟨.inr ⟨small, splits⟩, _, c', .next (by omega) jump run, past⟩
        · have later := crawl.path.within ready₁ (by omega) later
          refine .inr ⟨?_, .next (by omega) jump later⟩
          rintro (bad | ⟨-, bad⟩)
          · exact notHere bad
          · exact splits bad
    · obtain ⟨_, c₂, jump', crawl, halt, one, -⟩ := place.refused (by omega) record
      cases jump.symm.trans jump'
      have one : machine.reach c₂ = machine.pos c₂ + 1 := one
      have notLater : ¬ ch.SplitsRecord p (w :: ws) t := by
        rintro (bad | ⟨bad, -⟩)
        · exact notHere bad
        · exact small bad
      refine .inr ⟨notLater, .next (by omega) jump ?_⟩
      by_cases within : t ≤ machine.pos c₂
      · exact crawl.stops t (by omega) within
      · exact crawl.path.within ready₁ (by omega) (.halt (by omega) halt)

/-- Records of at most 256 bytes each yield their payloads. -/
theorem records_path (place : AtRecord ch p c) (small : ∀ w ∈ ws, w.payload.length ≤ 256)
    (holds : Holds mem p (ws.map ch.record).flatten) :
    ∃ os c', Path machine mem c os c' ∧ AtRecord ch (p + (ws.map ch.record).flatten.length) c' ∧
      os.map Extracted.bytes = ws.map Bulk.payload ∧
      ∀ o ∈ os, o.messageEnd = o.messageStart + o.bytes.length := by
  induction ws generalizing p c with
  | nil => exact ⟨[], c, .refl, place, rfl, fun _ member => by cases member⟩
  | cons w ws ih =>
    obtain ⟨record, rest⟩ := holds.split
    obtain ⟨c₁, c₂, o, jump, crawl, -, payload, span, next⟩ :=
      place.record (small w List.mem_cons_self) record
    obtain ⟨os, c', path, final, payloads, spans⟩ :=
      ih next (fun w member => small w (List.mem_cons_of_mem _ member)) rest
    refine ⟨o :: os, c', (Path.single jump).trans (crawl.path.trans path), ?_, ?_, ?_⟩
    · simpa [Nat.add_assoc] using final
    · simp [payload, payloads]
    · simpa [span] using spans

def Cursor.fresh : Cursor := ⟨Connection.fresh.toProgress, .start, 0⟩

theorem Cursor.fresh_ready : Cursor.fresh.Ready := trivial

theorem stream_cut (clients : Nat) (holds : Holds mem 0 (ch.stream clients ws))
    (inside : t ≤ (ch.stream clients ws).length) :
    CutAt mem t .fresh (ch.Splits clients ws t) := by
  obtain ⟨reply, records⟩ := holds.split
  obtain ⟨c₁, c₂, c₃, star, position₁, jump, reach, crawl, place⟩ :=
    @reply_crawl mem Connection.fresh.toProgress 0 ch clients rfl reply
  simp only [Nat.zero_add] at position₁ reach place records
  have ready₁ := star.path.valid Cursor.fresh_ready
  have ready₂ := (machine.moves ready₁ jump).1
  have position₁ : machine.pos c₁ = 1 := position₁
  have reach : machine.reach c₁ = 20 := reach
  have position₂ : machine.pos c₂ = 20 := (machine.moves ready₁ jump).2.trans reach
  have position₃ : machine.pos c₃ = (ch.subscribeReply clients).length := place.position
  have past := crawl.path.pos_le ready₂
  by_cases first : t ≤ 1
  · refine .inr ⟨?_, star.stops t (Nat.zero_le _) (by omega)⟩
    rintro (bad | bad)
    · omega
    · have := bad.bounds
      omega
  by_cases split : t < 20
  · have beyond : t < machine.pos c₂ := by omega
    have run : Run machine mem t c₁ [] (.waiting c₂) :=
      .next (by omega) jump (.wait (Nat.le_of_lt beyond))
    exact .inl ⟨.inl (by omega), _, c₂, star.path.run Cursor.fresh_ready (by omega) run, beyond⟩
  have through {os : List Extracted} {r : End Cursor Code} (run : Run machine mem t c₂ os r) :
      Run machine mem t .fresh os r :=
    star.path.run Cursor.fresh_ready (by omega) (.next (by omega) jump run)
  have inward (within : Within machine mem t c₂) : Within machine mem t .fresh :=
    star.path.within Cursor.fresh_ready (by omega) (.next (by omega) jump within)
  by_cases within : t ≤ (ch.subscribeReply clients).length
  · refine .inr ⟨?_, inward (crawl.stops t (by omega) (by omega))⟩
    rintro (bad | bad)
    · omega
    · have := bad.bounds
      omega
  · have inside : t ≤ (ch.subscribeReply clients).length + (ws.map ch.record).flatten.length := by
      simpa [Channel.stream] using inside
    rcases records_cut place records (by omega) inside with
      ⟨splits, os, c', run, past⟩ | ⟨splits, later⟩
    · exact .inl ⟨.inr splits, os, c', through (crawl.path.run ready₂ (by omega) run), past⟩
    · refine .inr ⟨?_, inward (crawl.path.within ready₂ (by omega) later)⟩
      rintro (bad | bad)
      · omega
      · exact splits bad

/-- A stream that stands anywhere in the buffer is read to its end. -/
theorem stream_path (clients : Nat) (small : ∀ w ∈ ws, w.payload.length ≤ 256)
    (holds : Holds mem p (ch.stream clients ws)) :
    ∃ os c', Path machine mem ⟨Connection.fresh.toProgress, .start, p⟩ os c' ∧
      c'.p = p + (ch.stream clients ws).length ∧ os.map Extracted.bytes = ws.map Bulk.payload ∧
      ∀ o ∈ os, o.messageEnd = o.messageStart + o.bytes.length := by
  obtain ⟨reply, records⟩ := holds.split
  obtain ⟨c₁, c₂, c₃, star, -, jump, -, crawl, place⟩ :=
    @reply_crawl mem Connection.fresh.toProgress p ch clients rfl reply
  obtain ⟨os, c', path, final, payloads⟩ := records_path place small records
  refine ⟨os, c', star.path.trans ((Path.single jump).trans (crawl.path.trans path)), ?_, payloads⟩
  rw [final.position]
  simp [Channel.stream, Nat.add_assoc]

theorem stream_whole (clients : Nat) : ¬ ch.Splits clients ws (ch.stream clients ws).length := by
  have reply : 20 ≤ (ch.subscribeReply clients).length := by
    simp [Channel.subscribeReply, subscribePrefix_length]
  simp only [Channel.stream, List.length_append]
  rintro (bad | bad)
  · omega
  · have := bad.bounds
    omega

end Cuts

theorem cuts_le {t last : Nat} {pieces : List (List UInt8)} (member : t ∈ cuts last pieces) :
    t ≤ last + pieces.flatten.length := by
  induction pieces generalizing last with
  | nil => cases member
  | cons piece rest ih =>
    simp only [List.flatten_cons, List.length_append]
    rcases List.mem_cons.mp member with rfl | later
    · omega
    · have := ih later
      omega

def memoryOf (bs : List UInt8) : Nat → UInt8 := fun i => bs.getD i 0

theorem memoryOf_holds (bs : List UInt8) : Holds (memoryOf bs) 0 bs := by
  intro i inside
  simp [memoryOf, inside]

section Feeding

variable {ch : Channel} {clients : Nat} {ws : List Bulk} {pieces : List (List UInt8)}

/-- What feeding a stream in pieces yields when no cut splits a prefix. -/
theorem feed_unsplit (whole : pieces.flatten = ch.stream clients ws)
    (unsplit : ∀ t ∈ cuts 0 pieces, ¬ ch.Splits clients ws t) (mem : Nat → UInt8) :
    ¬ Overrun (feed .fresh ⟨mem, 0, 0⟩ pieces) ∧ ∃ os r,
      Run machine (memoryOf (ch.stream clients ws)) (ch.stream clients ws).length .fresh os r ∧
        results (feed .fresh ⟨mem, 0, 0⟩ pieces) = resultsOf os r.error := by
  obtain ⟨os, marks, e, fed, results, overrun⟩ :=
    @feed_run .fresh ⟨mem, 0, 0⟩ pieces Cursor.fresh_ready
  have holds : Holds (memoryOf (ch.stream clients ws)) 0 pieces.flatten :=
    whole ▸ memoryOf_holds _
  have stops : ∀ t ∈ cuts 0 pieces, Within machine (memoryOf (ch.stream clients ws)) t .fresh := by
    intro t member
    have inside : t ≤ (ch.stream clients ws).length := by
      have := cuts_le member
      rw [whole] at this
      omega
    rcases stream_cut clients (memoryOf_holds _) inside with ⟨bad, -⟩ | ⟨-, within⟩
    · exact (unsplit t member bad).elim
    · exact within
  have ready : machine.Valid .fresh := Cursor.fresh_ready
  obtain ⟨inside, r, run, error⟩ := fed.within ready (Nat.le_refl 0)
    (.wait (Nat.le_refl 0)) (fun i lt => absurd lt (Nat.not_lt_zero i)) holds stops
  rw [whole, Nat.zero_add] at run
  refine ⟨?_, os, r, run, by rw [results, error]⟩
  rw [overrun]
  rintro ⟨mark, member, past⟩
  have := inside mark member
  omega

theorem feed_whole (mem : Nat → UInt8) :
    ∃ os r, Run machine (memoryOf (ch.stream clients ws)) (ch.stream clients ws).length .fresh os r ∧
      results (feed .fresh ⟨mem, 0, 0⟩ [ch.stream clients ws]) = resultsOf os r.error := by
  have unsplit : ∀ t ∈ cuts 0 [ch.stream clients ws], ¬ ch.Splits clients ws t := by
    intro t member
    have eq : t = (ch.stream clients ws).length := by simpa [cuts] using member
    rw [eq]
    exact stream_whole clients
  exact (feed_unsplit (by simp) unsplit mem).2

/-- A cut within a prefix lets the parser run beyond the input when the rest is in memory. -/
theorem feed_split (whole : pieces.flatten = ch.stream clients ws) {t : Nat}
    (member : t ∈ cuts 0 pieces) (split : ch.Splits clients ws t) :
    Overrun (feed .fresh ⟨memoryOf (ch.stream clients ws), 0, 0⟩ pieces) := by
  obtain ⟨os, marks, e, fed, -, overrun⟩ :=
    @feed_run .fresh ⟨memoryOf (ch.stream clients ws), 0, 0⟩ pieces Cursor.fresh_ready
  have inside : t ≤ (ch.stream clients ws).length := by
    have := cuts_le member
    rw [whole] at this
    omega
  rcases stream_cut clients (memoryOf_holds _) inside with ⟨-, os₁, c₁, run, past⟩ | ⟨bad, -⟩
  · have holds : Holds (memoryOf (ch.stream clients ws)) 0 pieces.flatten :=
      whole ▸ memoryOf_holds _
    exact overrun.mpr (fed.beyond (.wait (Nat.le_refl 0)) holds member run past)
  · exact (bad split).elim

end Feeding

/-- The cuts that change nothing, whatever stands beyond the input, are exactly those that
split no prefix; with such cuts a stream of records up to 256 bytes yields its payloads. -/
theorem parser_ignores_cuts (ch : Channel) (clients : Nat) (ws : List Bulk)
    (pieces : List (List UInt8)) (whole : pieces.flatten = ch.stream clients ws) :
    ((∀ mem, results (feed .fresh ⟨mem, 0, 0⟩ pieces) =
          results (feed .fresh ⟨mem, 0, 0⟩ [ch.stream clients ws]) ∧
        ¬ Overrun (feed .fresh ⟨mem, 0, 0⟩ pieces)) ↔
      ∀ t ∈ cuts 0 pieces, ¬ ch.Splits clients ws t) ∧
    ((∀ w ∈ ws, w.payload.length ≤ 256) → (∀ t ∈ cuts 0 pieces, ¬ ch.Splits clients ws t) →
      ∀ mem, (results (feed .fresh ⟨mem, 0, 0⟩ pieces)).map
        (fun r => (r.1, r.2.map Extracted.bytes)) = ws.map fun w => (.ok, some w.payload)) := by
  refine ⟨⟨?_, ?_⟩, ?_⟩
  · intro same t member split
    exact (same _).2 (feed_split whole member split)
  · intro unsplit mem
    obtain ⟨inside, os, r, run, results⟩ := feed_unsplit whole unsplit mem
    obtain ⟨os', r', run', results'⟩ := @feed_whole ch clients ws mem
    obtain ⟨rfl, rfl⟩ := run.deterministic run'
    exact ⟨results.trans results'.symm, inside⟩
  · intro small unsplit mem
    obtain ⟨-, os, r, run, results⟩ := feed_unsplit whole unsplit mem
    obtain ⟨os', c', path, final, payloads, -⟩ := stream_path clients small (memoryOf_holds _)
    rw [Nat.zero_add] at final
    have stop : (ch.stream clients ws).length = machine.pos c' := final.symm
    have whole := path.run Cursor.fresh_ready stop.ge (.wait stop.le)
    rw [List.append_nil] at whole
    obtain ⟨rfl, rfl⟩ := run.deterministic whole
    rw [results]
    simpa [resultsOf, End.error, Function.comp_def] using
      congrArg (List.map fun bytes => (Code.ok, some bytes)) payloads

def qmxjChannel : Channel :=
  ⟨bytes "qmxj_channel_1", by decide, by decide, by decide +kernel⟩

def greeting : Bulk := ⟨bytes "hi", by decide⟩

theorem parser_ignores_cuts_greeting :
    ((∀ mem, results (feed .fresh ⟨mem, 0, 0⟩ [(qmxjChannel.stream 1 [greeting]).take 44,
            (qmxjChannel.stream 1 [greeting]).drop 44]) =
          results (feed .fresh ⟨mem, 0, 0⟩ [qmxjChannel.stream 1 [greeting]]) ∧
        ¬ Overrun (feed .fresh ⟨mem, 0, 0⟩ [(qmxjChannel.stream 1 [greeting]).take 44,
          (qmxjChannel.stream 1 [greeting]).drop 44])) ↔
      ∀ t ∈ cuts 0 [(qmxjChannel.stream 1 [greeting]).take 44,
        (qmxjChannel.stream 1 [greeting]).drop 44], ¬ qmxjChannel.Splits 1 [greeting] t) :=
  (parser_ignores_cuts qmxjChannel 1 [greeting] [(qmxjChannel.stream 1 [greeting]).take 44,
    (qmxjChannel.stream 1 [greeting]).drop 44] (by simp)).1

/-- A cut five bytes into the record's prefix turns the message into an error. -/
theorem parser_fails_on_split_prefix :
    results (feed .fresh ⟨fun _ => 0, 0, 0⟩ [qmxjChannel.stream 1 [greeting]]) =
        [(.ok, some ⟨86, 88, greeting.payload⟩)] ∧
      results (feed .fresh ⟨fun _ => 0, 0, 0⟩ [(qmxjChannel.stream 1 [greeting]).take 49,
        (qmxjChannel.stream 1 [greeting]).drop 49]) = [(.invalidMessage, none)] := by
  decide +kernel

end Ngx.Redis
