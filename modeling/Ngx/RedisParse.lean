import Ngx.Decimal
import Ngx.Resumable

/-! The parser of what the redis server sends. Pointers into the buffer are indices into a
memory whose bytes beyond `last` are arbitrary; a prefix comparison may read them. -/
namespace Ngx.Redis

def cr : UInt8 := 13
def lf : UInt8 := 10

def bytes (s : String) : List UInt8 := s.toList.map fun c => c.toNat.toUInt8

def longMax : Nat := 2 ^ 63 - 1

/-- `atoi` on decimal digits: a `long` that stays at its maximum, cut down to an `int`. -/
def atoi (digits : List UInt8) : Int := Int.bmod (min (Decimal.value digits) longMax) (2 ^ 32)

inductive State where
  | start
  | subscribe
  | subscribeChannelLength
  | subscribeChannelName
  | subscribeChannelClinet
  | message
  | messageLength
  | messageValue
  | error
  deriving DecidableEq, Repr

/-- The return values; `overrun` stands for a store beyond the array `number`, after which
the source has no defined behaviour. -/
inductive Code where
  | ok
  | again
  | invalidMessage
  | invalidSubscribe
  | invalidChannelName
  | invalidLength
  | overrun
  deriving DecidableEq, Repr

/-- The fields of `ngx_redis_connection_t` that parsing works on, but for `state`. A string
under construction is the list of the bytes stored so far; its length is the index field. -/
structure Progress where
  messageStart : Nat
  messageEnd : Nat
  parseStart : Nat
  errorStart : Nat
  errorEnd : Nat
  messageLength : Int
  channelNameLength : Int
  channelName : List UInt8
  channelMessagePrefix : List UInt8
  numberLength : Int
  number : List UInt8
  error : Bool
  afterCr : Bool
  parseDone : Bool
  deriving DecidableEq, Repr

structure Connection extends Progress where
  state : State
  deriving DecidableEq, Repr

def Connection.fresh : Connection :=
  ⟨⟨0, 0, 0, 0, 0, 0, 0, [], [], 0, [], false, false, false⟩, .start⟩

def numberSize : Nat := 20

def maxMessageLength : Int := 256

def subscribePrefix : List UInt8 := bytes "3\r\n$9\r\nsubscribe\r\n$"

/-- `sprintf(..., "*3\r\n$7\r\nmessage\r\n$%d\r\n%s\r\n$", length, name)`. -/
def messagePrefix (length : Int) (name : List UInt8) : List UInt8 :=
  bytes "*3\r\n$7\r\nmessage\r\n$" ++ Decimal.numeral length.toNat ++ bytes "\r\n" ++ name ++ bytes "\r\n$"

/-- `strncmp(p, s, strlen(s)) == 0` for an `s` without a NUL byte. -/
def startsWith (mem : Nat → UInt8) (p : Nat) : List UInt8 → Bool
  | [] => true
  | b :: s => mem p == b && startsWith mem (p + 1) s

structure Cursor where
  rc : Progress
  state : State
  p : Nat
  deriving DecidableEq, Repr

inductive Stop where
  | again (c : Cursor)
  | done (rc : Progress) (p : Nat) (mem : Nat → UInt8)
  | invalid (code : Code) (rc : Progress)

def digitStored (rc : Progress) (ch : UInt8) (c : Cursor) : Except Stop Cursor :=
  if rc.number.length < numberSize then .ok { c with rc := { rc with number := rc.number ++ [ch] } }
  else .error (.invalid .overrun rc)

/-- One round of the loop body, up to the `p++`. -/
def parseByte (mem : Nat → UInt8) (c : Cursor) : Except Stop Cursor :=
  let ch := mem c.p
  let rc := { c.rc with parseDone := false }
  match c.state with
  | .start =>
    if ch = 45 then
      .ok { c with rc := { rc with error := true, errorStart := c.p + 1 }, state := .error }
    else if ch = 42 then .ok { c with rc, state := .subscribe }
    else .error (.invalid .invalidMessage rc)
  | .error =>
    if ch = cr then .ok { c with rc := { rc with afterCr := true } }
    else if ch = lf ∧ rc.afterCr then
      .error (.done { rc with afterCr := false, errorEnd := c.p } c.p
        (fun i => if i = c.p then 0 else mem i))
    else .ok { c with rc := { rc with afterCr := false } }
  | .subscribe =>
    if startsWith mem c.p subscribePrefix then
      .ok ⟨{ rc with number := [] }, .subscribeChannelLength, c.p + subscribePrefix.length - 1⟩
    else .error (.invalid .invalidSubscribe rc)
  | .subscribeChannelLength =>
    if ch = cr then .ok { c with rc := { rc with afterCr := true } }
    else if ch = lf ∧ rc.afterCr then
      if numberSize ≤ rc.number.length then .error (.invalid .overrun rc)
      else
        let length := atoi rc.number
        let rc := { rc with afterCr := false, numberLength := length }
        if length ≤ 0 ∨ 20 < length then .error (.invalid .invalidChannelName rc)
        else
          .ok { c with
            rc := { rc with channelNameLength := length, channelName := [] }
            state := .subscribeChannelName }
    else if Decimal.isDigit ch then digitStored { rc with afterCr := false } ch c
    else .error (.invalid .invalidLength { rc with afterCr := false })
  | .subscribeChannelName =>
    if ch = cr then .ok { c with rc := { rc with afterCr := true } }
    else if ch = lf ∧ rc.afterCr then
      let rc := { rc with afterCr := false }
      if rc.channelNameLength ≠ ((rc.channelName.takeWhile (· ≠ 0)).length : Int) then
        .error (.invalid .invalidChannelName rc)
      else
        .ok { c with
          rc := { rc with
            channelMessagePrefix := messagePrefix rc.channelNameLength
              (rc.channelName.takeWhile (· ≠ 0)) }
          state := .subscribeChannelClinet }
    else
      let rc := { rc with afterCr := false }
      if rc.channelNameLength ≤ rc.channelName.length then
        .error (.invalid .invalidChannelName rc)
      else .ok { c with rc := { rc with channelName := rc.channelName ++ [ch] } }
  | .subscribeChannelClinet =>
    if ch = 58 then .ok { c with rc }
    else if ch = cr then .ok { c with rc := { rc with afterCr := true } }
    else if ch = lf ∧ rc.afterCr then
      .ok { c with rc := { rc with afterCr := false }, state := .message }
    else if Decimal.isDigit ch then .ok { c with rc := { rc with afterCr := false } }
    else .error (.invalid .invalidMessage { rc with afterCr := false })
  | .message =>
    if startsWith mem c.p rc.channelMessagePrefix then
      .ok ⟨{ rc with number := [] }, .messageLength, c.p + rc.channelMessagePrefix.length - 1⟩
    else .error (.invalid .invalidMessage rc)
  | .messageLength =>
    if ch = cr then .ok { c with rc := { rc with afterCr := true } }
    else if ch = lf ∧ rc.afterCr then
      -- `after_cr` stays set
      if numberSize ≤ rc.number.length then .error (.invalid .overrun rc)
      else
        let length := atoi rc.number
        let rc := { rc with messageLength := length }
        if maxMessageLength < length then .error (.invalid .invalidMessage rc)
        else .ok { c with rc := { rc with messageStart := c.p + 1 }, state := .messageValue }
    else if Decimal.isDigit ch then digitStored { rc with afterCr := false } ch c
    else .error (.invalid .invalidLength { rc with afterCr := false })
  | .messageValue =>
    if rc.messageLength ≠ 0 then
      .ok { c with rc := { rc with messageLength := rc.messageLength - 1 } }
    else if ch = cr then .ok { c with rc := { rc with afterCr := true } }
    else if ch = lf ∧ rc.afterCr then
      .error (.done { rc with afterCr := false, messageEnd := c.p - 1 } c.p mem)
    else .ok { c with rc := { rc with afterCr := false } }

def parseLoop (mem : Nat → UInt8) (last : Nat) : (n : Nat) → Cursor → Stop
  | 0, c => .again c
  | n + 1, c =>
    if last ≤ c.p then .again c
    else
      match parseByte mem c with
      | .ok c => parseLoop mem last n { c with p := c.p + 1 }
      | .error stop => stop

structure Buffer where
  mem : Nat → UInt8
  pos : Nat
  last : Nat

/-- `ngx_process_parse_message`. A failing call keeps `pos` and the saved state. -/
def parseMessage (rc : Connection) (b : Buffer) : Code × Connection × Buffer :=
  match parseLoop b.mem b.last (b.last - b.pos) ⟨rc.toProgress, rc.state, b.pos⟩ with
  | .again c => (.again, { toProgress := c.rc, state := c.state }, { b with pos := c.p })
  | .done rc p mem => (.ok, { toProgress := rc, state := .message }, { b with mem, pos := p + 1 })
  | .invalid code progress => (code, { rc with toProgress := progress }, b)

/-- The store of a successful `ngx_redis_read_message`: what `recv` wrote at `last`. -/
def Buffer.received (b : Buffer) (piece : List UInt8) : Buffer :=
  { b with mem := Resumable.store b.mem b.last piece, last := b.last + piece.length }

inductive Moved (mem : Nat → UInt8) : Cursor → Cursor → Prop where
  | minus {rc : Progress} {p : Nat} (byte : mem p = 45) :
      Moved mem ⟨rc, .start, p⟩
        ⟨{ rc with parseDone := false, error := true, errorStart := p + 1 }, .error, p⟩
  | star {rc : Progress} {p : Nat} (byte : mem p = 42) :
      Moved mem ⟨rc, .start, p⟩ ⟨{ rc with parseDone := false }, .subscribe, p⟩
  | carriage {rc : Progress} {state : State} {p : Nat}
      (line : state ≠ .start ∧ state ≠ .subscribe ∧ state ≠ .message)
      (counted : state = .messageValue → rc.messageLength = 0) (byte : mem p = cr) :
      Moved mem ⟨rc, state, p⟩ ⟨{ rc with parseDone := false, afterCr := true }, state, p⟩
  | errorByte {rc : Progress} {p : Nat} (notCr : mem p ≠ cr)
      (notEnd : ¬ (mem p = lf ∧ rc.afterCr = true)) :
      Moved mem ⟨rc, .error, p⟩ ⟨{ rc with parseDone := false, afterCr := false }, .error, p⟩
  | subscribed {rc : Progress} {p : Nat} (same : startsWith mem p subscribePrefix = true) :
      Moved mem ⟨rc, .subscribe, p⟩ ⟨{ rc with parseDone := false, number := [] },
        .subscribeChannelLength, p + subscribePrefix.length - 1⟩
  | nameDigit {rc : Progress} {p : Nat} (byte : Decimal.isDigit (mem p) = true)
      (room : rc.number.length < numberSize) :
      Moved mem ⟨rc, .subscribeChannelLength, p⟩ ⟨{ rc with
        parseDone := false, afterCr := false, number := rc.number ++ [mem p] },
        .subscribeChannelLength, p⟩
  | nameLength {rc : Progress} {p : Nat} (ended : mem p = lf ∧ rc.afterCr = true)
      (room : rc.number.length < numberSize) (positive : 0 < atoi rc.number)
      (short : atoi rc.number ≤ 20) :
      Moved mem ⟨rc, .subscribeChannelLength, p⟩ ⟨{ rc with
        parseDone := false, afterCr := false, numberLength := atoi rc.number
        channelNameLength := atoi rc.number, channelName := [] }, .subscribeChannelName, p⟩
  | nameByte {rc : Progress} {p : Nat} (notCr : mem p ≠ cr)
      (notEnd : ¬ (mem p = lf ∧ rc.afterCr = true))
      (room : rc.channelName.length < rc.channelNameLength) :
      Moved mem ⟨rc, .subscribeChannelName, p⟩ ⟨{ rc with
        parseDone := false, afterCr := false, channelName := rc.channelName ++ [mem p] },
        .subscribeChannelName, p⟩
  | name {rc : Progress} {p : Nat} (ended : mem p = lf ∧ rc.afterCr = true)
      (whole : rc.channelNameLength = ((rc.channelName.takeWhile (· ≠ 0)).length : Int)) :
      Moved mem ⟨rc, .subscribeChannelName, p⟩ ⟨{ rc with
        parseDone := false, afterCr := false
        channelMessagePrefix :=
          messagePrefix rc.channelNameLength (rc.channelName.takeWhile (· ≠ 0)) },
        .subscribeChannelClinet, p⟩
  | colon {rc : Progress} {p : Nat} (byte : mem p = 58) :
      Moved mem ⟨rc, .subscribeChannelClinet, p⟩
        ⟨{ rc with parseDone := false }, .subscribeChannelClinet, p⟩
  | clientDigit {rc : Progress} {p : Nat} (byte : Decimal.isDigit (mem p) = true) :
      Moved mem ⟨rc, .subscribeChannelClinet, p⟩
        ⟨{ rc with parseDone := false, afterCr := false }, .subscribeChannelClinet, p⟩
  | clients {rc : Progress} {p : Nat} (ended : mem p = lf ∧ rc.afterCr = true) :
      Moved mem ⟨rc, .subscribeChannelClinet, p⟩
        ⟨{ rc with parseDone := false, afterCr := false }, .message, p⟩
  | begun {rc : Progress} {p : Nat} (same : startsWith mem p rc.channelMessagePrefix = true) :
      Moved mem ⟨rc, .message, p⟩ ⟨{ rc with parseDone := false, number := [] }, .messageLength,
        p + rc.channelMessagePrefix.length - 1⟩
  | digit {rc : Progress} {p : Nat} (byte : Decimal.isDigit (mem p) = true)
      (room : rc.number.length < numberSize) :
      Moved mem ⟨rc, .messageLength, p⟩ ⟨{ rc with
        parseDone := false, afterCr := false, number := rc.number ++ [mem p] },
        .messageLength, p⟩
  | length {rc : Progress} {p : Nat} (ended : mem p = lf ∧ rc.afterCr = true)
      (room : rc.number.length < numberSize) (small : atoi rc.number ≤ maxMessageLength) :
      Moved mem ⟨rc, .messageLength, p⟩ ⟨{ rc with
        parseDone := false, messageLength := atoi rc.number, messageStart := p + 1 },
        .messageValue, p⟩
  | counted {rc : Progress} {p : Nat} (left : rc.messageLength ≠ 0) :
      Moved mem ⟨rc, .messageValue, p⟩ ⟨{ rc with
        parseDone := false, messageLength := rc.messageLength - 1 }, .messageValue, p⟩
  | searched {rc : Progress} {p : Nat} (none : rc.messageLength = 0) (notCr : mem p ≠ cr)
      (notEnd : ¬ (mem p = lf ∧ rc.afterCr = true)) :
      Moved mem ⟨rc, .messageValue, p⟩
        ⟨{ rc with parseDone := false, afterCr := false }, .messageValue, p⟩

inductive Completed (mem : Nat → UInt8) : Cursor → Progress → Nat → (Nat → UInt8) → Prop where
  | error {rc : Progress} {p : Nat} (ended : mem p = lf ∧ rc.afterCr = true) :
      Completed mem ⟨rc, .error, p⟩ { rc with parseDone := false, afterCr := false, errorEnd := p } p
        (fun i => if i = p then 0 else mem i)
  | message {rc : Progress} {p : Nat} (counted : rc.messageLength = 0)
      (ended : mem p = lf ∧ rc.afterCr = true) :
      Completed mem ⟨rc, .messageValue, p⟩
        { rc with parseDone := false, afterCr := false, messageEnd := p - 1 } p mem

section Rounds

variable {mem mem' : Nat → UInt8} {c c' : Cursor} {rc : Progress} {p : Nat}

theorem parseByte_moved (ok : parseByte mem c = .ok c') : Moved mem c c' := by
  obtain ⟨rc, state, p⟩ := c
  cases state with
  | start =>
    simp only [parseByte] at ok
    repeat' split at ok
    all_goals cases ok
    · exact .minus ‹_›
    · exact .star ‹_›
  | error =>
    simp only [parseByte] at ok
    repeat' split at ok
    all_goals cases ok
    · exact .carriage (by simp) (by simp) ‹_›
    · exact .errorByte ‹_› ‹_›
  | subscribe =>
    simp only [parseByte] at ok
    split at ok
    all_goals cases ok
    exact .subscribed ‹_›
  | subscribeChannelLength =>
    simp only [parseByte, digitStored] at ok
    repeat' split at ok
    all_goals cases ok
    · exact .carriage (by simp) (by simp) ‹_›
    · rename_i ended room within
      simp only [not_or, not_le, not_lt] at room within
      exact .nameLength ended room within.1 within.2
    · exact .nameDigit ‹_› ‹_›
  | subscribeChannelName =>
    simp only [parseByte] at ok
    repeat' split at ok
    all_goals cases ok
    · exact .carriage (by simp) (by simp) ‹_›
    · rename_i ended whole
      exact .name ended (not_not.mp whole)
    · exact .nameByte ‹_› ‹_› (Int.not_le.mp ‹_›)
  | subscribeChannelClinet =>
    simp only [parseByte] at ok
    repeat' split at ok
    all_goals cases ok
    · exact .colon ‹_›
    · exact .carriage (by simp) (by simp) ‹_›
    · exact .clients ‹_›
    · exact .clientDigit ‹_›
  | message =>
    simp only [parseByte] at ok
    split at ok
    all_goals cases ok
    exact .begun ‹_›
  | messageLength =>
    simp only [parseByte, digitStored] at ok
    repeat' split at ok
    all_goals cases ok
    · exact .carriage (by simp) (by simp) ‹_›
    · exact .length ‹_› (Nat.lt_of_not_le ‹_›) (Int.not_lt.mp ‹_›)
    · exact .digit ‹_› ‹_›
  | messageValue =>
    simp only [parseByte] at ok
    repeat' split at ok
    all_goals cases ok
    · exact .counted ‹_›
    · exact .carriage (by simp) (fun _ => not_not.mp ‹_›) ‹_›
    · exact .searched (not_not.mp ‹_›) ‹_› ‹_›

theorem parseByte_completed (done : parseByte mem c = .error (.done rc p mem')) :
    Completed mem c rc p mem' := by
  obtain ⟨rc₀, state, p₀⟩ := c
  cases state with
  | error =>
    simp only [parseByte] at done
    repeat' split at done
    all_goals cases done
    exact .error ‹_›
  | messageValue =>
    simp only [parseByte] at done
    repeat' split at done
    all_goals cases done
    exact .message (not_not.mp ‹_›) ‹_›
  | _ =>
    simp only [parseByte, digitStored] at done
    repeat' split at done
    all_goals cases done

end Rounds

end Ngx.Redis
