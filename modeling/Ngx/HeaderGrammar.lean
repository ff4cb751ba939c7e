import Ngx.HeaderLine
import Ngx.RequestLineGrammar
import Mathlib.Data.List.DropRight

/-! What a header line is: the name and the value that stand in its bytes, and where the parser
finds them. The cursor within a line is described by the bytes of the line read so far. -/
namespace Ngx.Http

open ByteLoop Resumable

def tolower (ch : UInt8) : UInt8 := if byte 'A' ≤ ch ∧ ch ≤ byte 'Z' then ch ||| 0x20 else ch

/-- `[A-Za-z0-9_-]`. -/
def nameChar (ch : UInt8) : Bool :=
  byte 'A' ≤ ch ∧ ch ≤ byte 'Z' ∨ byte 'a' ≤ ch ∧ ch ≤ byte 'z' ∨ Decimal.isDigit ch ∨
    ch = byte '_' ∨ ch = byte '-'

def lineEnds (ch : UInt8) : Bool := ch = cr ∨ ch = lf

def trimSpaces (bs : List UInt8) : List UInt8 :=
  (bs.dropWhile (· = byte ' ')).rdropWhile (· = byte ' ')

/-- The header in a line, unless its name is empty or has other characters. -/
def lineHeader (line : List UInt8) : Option (List UInt8 × List UInt8) :=
  let name := line.takeWhile nameChar
  if name = [] then none
  else match line.dropWhile nameChar with
    | [] => none
    | ch :: rest =>
      if ch = byte ':' then some (name, trimSpaces (rest.takeWhile fun b => ¬ lineEnds b))
      else if lineEnds ch then some (name, [])
      else none

section Bytes

variable {ch : UInt8}

/-- A property of all bytes, checked one by one. -/
theorem forall_byte {P : UInt8 → Prop} (all : ∀ n : Fin 256, P (UInt8.ofFin n)) (ch : UInt8) :
    P ch := all ch.toFin

/-- The two ways in which the parser takes a character of a name. -/
theorem nameChar_lowcase (is : nameChar ch = true) :
    lowcase ch = tolower ch ∧ lowcase ch ≠ 0 ∨ lowcase ch = 0 ∧ ch = byte '_' ∧ tolower ch = ch :=
  forall_byte (P := fun ch => nameChar ch = true →
    lowcase ch = tolower ch ∧ lowcase ch ≠ 0 ∨ lowcase ch = 0 ∧ ch = byte '_' ∧ tolower ch = ch)
    (by decide +kernel) ch is

theorem not_nameChar (other : nameChar ch = false) : lowcase ch = 0 ∧ ch ≠ byte '_' :=
  forall_byte (P := fun ch => nameChar ch = false → lowcase ch = 0 ∧ ch ≠ byte '_')
    (by decide +kernel) ch other

theorem nameChar_plain (is : nameChar ch = true) :
    ch ≠ byte ':' ∧ lineEnds ch = false ∧ ch ≠ 0 :=
  forall_byte (P := fun ch => nameChar ch = true → ch ≠ byte ':' ∧ lineEnds ch = false ∧ ch ≠ 0)
    (by decide +kernel) ch is

end Bytes

structure Hashed (name : List UInt8) (lowcaseHeader : Vector UInt8 lcHeaderLen) (hash : UInt64)
    (i : Fin lcHeaderLen) : Prop where
  hash : hash = (name.map tolower).foldl ngxHash 0
  index : i.val = name.length % lcHeaderLen
  lowcase : name.length < lcHeaderLen → lowcaseHeader.toList.take name.length = name.map tolower

/-- The line begins at `q` with the name. Its first character may be a colon. -/
structure Named (q : Nat) (name : List UInt8) (c : HeaderLineCursor) : Prop where
  start : c.r.headerNameStart = q
  nonempty : name ≠ []
  line_ends : ∀ b ∈ name, lineEnds b = false
  colon : ∀ b ∈ name.tail, b ≠ byte ':'
  invalid : c.r.invalidHeader = !name.all nameChar
  hashed : name.all nameChar = true → Hashed name c.r.lowcaseHeader c.hash c.i

structure Trimmed (value : List UInt8) : Prop where
  bytes : ∀ b ∈ value, b ≠ cr ∧ b ≠ lf ∧ b ≠ 0
  head : value.head? ≠ some (byte ' ')
  last : value.getLast? ≠ some (byte ' ')

structure Field (q : Nat) (body name value : List UInt8) (c : HeaderLineCursor) : Prop where
  named : Named q name c
  shape : body = name ∧ value = [] ∧ c.r.headerStart = q + name.length ∨
    ∃ n k, body = name ++ byte ':' :: (spaceRun n ++ (value ++ spaceRun k)) ∧
      c.r.headerStart = q + name.length + 1 + n
  name_end : c.r.headerNameEnd = q + name.length
  value_end : c.r.headerEnd = c.r.headerStart + value.length
  trimmed : Trimmed value

def ReadsState (q : Nat) (xs : List UInt8) (c : HeaderLineCursor) : Prop :=
  match c.state with
  | .start => xs = []
  | .name => Named q xs c
  | .spaceBeforeValue => ∃ name n, xs = name ++ byte ':' :: spaceRun n ∧ Named q name c ∧
      c.r.headerNameEnd = q + name.length
  | .value => ∃ name n value, xs = name ++ byte ':' :: (spaceRun n ++ value) ∧ Named q name c ∧
      c.r.headerNameEnd = q + name.length ∧ c.r.headerStart = q + name.length + 1 + n ∧
      value ≠ [] ∧ Trimmed value
  | .spaceAfterValue => ∃ name n value k,
      xs = name ++ byte ':' :: (spaceRun n ++ (value ++ spaceRun (k + 1))) ∧ Named q name c ∧
      c.r.headerNameEnd = q + name.length ∧ c.r.headerStart = q + name.length + 1 + n ∧
      c.r.headerEnd = c.r.headerStart + value.length ∧ value ≠ [] ∧ Trimmed value
  | .almostDone => ∃ body name value k, xs = body ++ List.replicate (k + 1) cr ∧
      Field q body name value c
  | .headerAlmostDone => xs = [cr] ∧ c.r.headerNameStart = q
  | .ignoreLine => False

structure Reads (q : Nat) (xs : List UInt8) (c : HeaderLineCursor) : Prop where
  position : c.p = q + xs.length
  state : ReadsState q xs c

section Steps

variable {r : HeaderLine} {hash : UInt64} {i : Fin lcHeaderLen} {p q : Nat} {xs name : List UInt8}
  {c c' : HeaderLineCursor} {ch : UInt8}

variable {lowcaseHeader : Vector UInt8 lcHeaderLen}

theorem hashed_nil (lowcaseHeader : Vector UInt8 lcHeaderLen) : Hashed [] lowcaseHeader 0 0 :=
  ⟨rfl, rfl, fun _ => rfl⟩

theorem Hashed.concat (hashed : Hashed name lowcaseHeader hash i) (ch : UInt8) :
    Hashed (name ++ [ch]) (lowcaseHeader.set i (tolower ch) i.isLt) (ngxHash hash (tolower ch))
      (i + 1) where
  hash := by
    rw [List.map_append, List.foldl_append, ← hashed.hash]
    rfl
  index := by
    rw [Fin.val_add, hashed.index, List.length_append, List.length_singleton]
    exact Nat.mod_add_mod _ _ _
  lowcase short := by
    rw [List.length_append, List.length_singleton] at short
    have before : name.length < lcHeaderLen := Nat.lt_of_succ_lt short
    have index : i.val = name.length := hashed.index.trans (Nat.mod_eq_of_lt before)
    have inside : i.val < lowcaseHeader.toList.length := by
      rw [Vector.length_toList]
      exact i.isLt
    rw [List.length_append, List.length_singleton, ← index, Vector.toList_set, List.take_add_one,
      List.getElem?_set_self inside, List.take_set_of_le (Nat.le_refl _), index,
      hashed.lowcase before, List.map_append]
    rfl

theorem start_nameChar (is : nameChar ch = true) :
    headerLineByte true ⟨r, .start, hash, i, p⟩ ch =
      (HeaderLineCursor.store 0 0 (tolower ch)
        ⟨{ r with headerNameStart := p, invalidHeader := false }, .start, hash, i, p⟩).next .name := by
  obtain ⟨-, ends, -⟩ := nameChar_plain is
  rw [lineEnds, decide_eq_false_iff_not, not_or] at ends
  simp only [headerLineByte]
  rw [if_neg ends.1, if_neg ends.2]
  rcases nameChar_lowcase is with ⟨same, taken⟩ | ⟨zero, underscore, same⟩
  · rw [if_pos taken, same]
  · rw [if_neg (not_not_intro zero), if_pos underscore, if_pos trivial, same]

theorem name_nameChar (is : nameChar ch = true) :
    headerLineByte true ⟨r, .name, hash, i, p⟩ ch =
      (HeaderLineCursor.store hash i (tolower ch) ⟨r, .name, hash, i, p⟩).next .name := by
  simp only [headerLineByte]
  rcases nameChar_lowcase is with ⟨same, taken⟩ | ⟨zero, underscore, same⟩
  · rw [if_pos taken, same]
  · rw [if_neg (not_not_intro zero), if_pos underscore, if_pos trivial, same]

/-- A name that goes on, with a character of a name or another. -/
theorem named_concat (named : Named q name ⟨r, .name, hash, i, p⟩) (plain : lineEnds ch = false)
    (colon : ch ≠ byte ':') :
    (nameChar ch = true →
      Named q (name ++ [ch]) ((HeaderLineCursor.store hash i (tolower ch) ⟨r, .name, hash, i, p⟩))) ∧
    (nameChar ch = false →
      Named q (name ++ [ch]) (HeaderLineCursor.markInvalid ⟨r, .name, hash, i, p⟩)) := by
  have line_ends : ∀ b ∈ name ++ [ch], lineEnds b = false := by
    simp only [List.forall_mem_append, List.forall_mem_singleton]
    exact ⟨named.line_ends, plain⟩
  have tail : ∀ b ∈ (name ++ [ch]).tail, b ≠ byte ':' := by
    rw [List.tail_append_of_ne_nil named.nonempty]
    simp only [List.forall_mem_append, List.forall_mem_singleton]
    exact ⟨named.colon, colon⟩
  have nonempty : name ++ [ch] ≠ [] := by simp
  constructor
  · intro is
    have all : (name ++ [ch]).all nameChar = name.all nameChar := by simp [is]
    refine ⟨named.start, nonempty, line_ends, tail, ?_, fun valid => ?_⟩
    · rw [all]
      exact named.invalid
    · rw [all] at valid
      exact (named.hashed valid).concat ch
  · intro other
    have all : (name ++ [ch]).all nameChar = false := by simp [other]
    refine ⟨named.start, nonempty, line_ends, tail, ?_, fun valid => ?_⟩
    · rw [all]
      rfl
    · rw [all] at valid
      cases valid

theorem start_reads (position : p = q)
    (moved : headerLineByte true ⟨r, .start, hash, i, p⟩ ch = .ok c') : ReadsState q [ch] c' := by
  subst position
  by_cases is : nameChar ch = true
  · obtain ⟨-, plain, -⟩ := nameChar_plain is
    rw [start_nameChar is] at moved
    cases moved
    have all : [ch].all nameChar = true := by simp [is]
    refine ⟨rfl, by simp, by simpa using plain, nofun, ?_, fun _ => ?_⟩
    · rw [all]
      rfl
    · exact (hashed_nil r.lowcaseHeader).concat ch
  · rw [Bool.not_eq_true] at is
    obtain ⟨zero, underscore⟩ := not_nameChar is
    simp only [headerLineByte] at moved
    split at moved
    next carriage =>
      cases moved
      exact ⟨congrArg (fun b => [b]) carriage, rfl⟩
    · split at moved
      · cases moved
      · rw [if_neg (not_not_intro zero)] at moved
        split at moved
        · cases moved
        · cases moved
          have all : [ch].all nameChar = false := by simp [is]
          refine ⟨rfl, by simp, by simp [lineEnds, *], nofun, ?_, fun valid => ?_⟩
          · rw [all]
            rfl
          · rw [all] at valid
            cases valid

theorem Named.transfer (named : Named q name c) (start : c'.r.headerNameStart = c.r.headerNameStart)
    (invalid : c'.r.invalidHeader = c.r.invalidHeader)
    (lowcase : c'.r.lowcaseHeader = c.r.lowcaseHeader) (hash : c'.hash = c.hash) (i : c'.i = c.i) :
    Named q name c' where
  start := start.trans named.start
  nonempty := named.nonempty
  line_ends := named.line_ends
  colon := named.colon
  invalid := invalid.trans named.invalid
  hashed valid := by
    rw [lowcase, hash, i]
    exact named.hashed valid

theorem trimmed_nil : Trimmed [] := ⟨nofun, nofun, nofun⟩

theorem name_reads (position : p = q + xs.length) (named : Named q xs ⟨r, .name, hash, i, p⟩)
    (moved : headerLineByte true ⟨r, .name, hash, i, p⟩ ch = .ok c') :
    ReadsState q (xs ++ [ch]) c' := by
  by_cases is : nameChar ch = true
  · obtain ⟨colon, plain, -⟩ := nameChar_plain is
    rw [name_nameChar is] at moved
    cases moved
    exact ((named_concat named plain colon).1 is).transfer rfl rfl rfl rfl rfl
  · rw [Bool.not_eq_true] at is
    obtain ⟨zero, underscore⟩ := not_nameChar is
    simp only [headerLineByte] at moved
    rw [if_neg (not_not_intro zero), if_neg underscore] at moved
    split at moved
    next colon =>
      cases moved
      refine ⟨xs, 0, ?_, named.transfer rfl rfl rfl rfl rfl, position⟩
      rw [colon]
      rfl
    next colon =>
      split at moved
      next carriage =>
        cases moved
        refine ⟨xs, xs, [], 0, ?_, named.transfer rfl rfl rfl rfl rfl, .inl ⟨rfl, rfl, position⟩,
          position, rfl, trimmed_nil⟩
        rw [carriage]
        rfl
      next carriage =>
        split at moved
        · cases moved
        next feed =>
          split at moved
          · cases moved
          · cases moved
            have plain : lineEnds ch = false := by simp [lineEnds, carriage, feed]
            exact ((named_concat named plain colon).2 is).transfer rfl rfl rfl rfl rfl

theorem spaces_position {n : Nat} (position : p = q + (name ++ byte ':' :: spaceRun n).length) :
    p = q + name.length + 1 + n := by
  rw [position, List.length_append, List.length_cons, spaceRun, List.length_replicate]
  omega

theorem value_position {n : Nat} {value : List UInt8}
    (position : p = q + (name ++ byte ':' :: (spaceRun n ++ value)).length) :
    p = q + name.length + 1 + n + value.length := by
  rw [position, List.length_append, List.length_cons, List.length_append, spaceRun,
    List.length_replicate]
  omega

theorem space_reads (position : p = q + xs.length)
    (reads : ReadsState q xs ⟨r, .spaceBeforeValue, hash, i, p⟩)
    (moved : headerLineByte true ⟨r, .spaceBeforeValue, hash, i, p⟩ ch = .ok c') :
    ReadsState q (xs ++ [ch]) c' := by
  obtain ⟨name, n, rfl, named, name_end⟩ := reads
  have start : p = q + name.length + 1 + n := spaces_position position
  simp only [headerLineByte] at moved
  split at moved
  next space =>
    cases moved
    refine ⟨name, n + 1, ?_, named.transfer rfl rfl rfl rfl rfl, name_end⟩
    rw [space, spaceRun, spaceRun, List.replicate_succ', List.append_assoc, List.cons_append]
  next space =>
    split at moved
    next carriage =>
      cases moved
      refine ⟨name ++ byte ':' :: spaceRun n, name, [], 0, ?_, named.transfer rfl rfl rfl rfl rfl,
        .inr ⟨n, 0, ?_, start⟩, name_end, rfl, trimmed_nil⟩
      · rw [carriage]
        rfl
      · simp [spaceRun]
    next carriage =>
      split at moved
      · cases moved
      next feed =>
        split at moved
        · cases moved
        next nul =>
          cases moved
          refine ⟨name, n, [ch], by simp, named.transfer rfl rfl rfl rfl rfl, name_end, start,
            by simp, ?_, ?_, ?_⟩
          · simp [carriage, feed, nul]
          · simpa using space
          · simpa using space

/-- A value goes on behind the spaces in it. -/
theorem Trimmed.concat {value : List UInt8} (trimmed : Trimmed value) (nonempty : value ≠ [])
    (k : Nat) (plain : ch ≠ byte ' ' ∧ ch ≠ cr ∧ ch ≠ lf ∧ ch ≠ 0) :
    Trimmed (value ++ (spaceRun k ++ [ch])) := by
  obtain ⟨space, plain⟩ := plain
  refine ⟨?_, ?_, ?_⟩
  · simp only [List.forall_mem_append, List.forall_mem_singleton]
    refine ⟨trimmed.bytes, fun b member => ?_, plain⟩
    rw [List.eq_of_mem_replicate member]
    decide
  · rw [List.head?_append_of_ne_nil _ nonempty]
    exact trimmed.head
  · rw [← List.append_assoc, List.getLast?_concat]
    simpa using space

theorem value_reads (position : p = q + xs.length)
    (reads : ReadsState q xs ⟨r, .value, hash, i, p⟩)
    (moved : headerLineByte true ⟨r, .value, hash, i, p⟩ ch = .ok c') :
    ReadsState q (xs ++ [ch]) c' := by
  obtain ⟨name, n, value, rfl, named, name_end, start, nonempty, trimmed⟩ := reads
  have value_end : p = r.headerStart + value.length := by
    rw [show r.headerStart = _ from start]
    exact value_position position
  simp only [headerLineByte] at moved
  split at moved
  next space =>
    cases moved
    refine ⟨name, n, value, 0, ?_, named.transfer rfl rfl rfl rfl rfl, name_end, start, value_end,
      nonempty, trimmed⟩
    rw [space]
    simp [spaceRun]
  next space =>
    split at moved
    next carriage =>
      cases moved
      refine ⟨_, name, value, 0, by rw [carriage]; rfl, named.transfer rfl rfl rfl rfl rfl,
        .inr ⟨n, 0, by simp [spaceRun], start⟩, name_end, value_end, trimmed⟩
    next carriage =>
      split at moved
      · cases moved
      next feed =>
        split at moved
        · cases moved
        next nul =>
          cases moved
          exact ⟨name, n, value ++ [ch], by simp, named.transfer rfl rfl rfl rfl rfl, name_end,
            start, by simp, trimmed.concat nonempty 0 ⟨space, carriage, feed, nul⟩⟩

theorem spaceAfter_reads (reads : ReadsState q xs ⟨r, .spaceAfterValue, hash, i, p⟩)
    (moved : headerLineByte true ⟨r, .spaceAfterValue, hash, i, p⟩ ch = .ok c') :
    ReadsState q (xs ++ [ch]) c' := by
  obtain ⟨name, n, value, k, rfl, named, name_end, start, value_end, nonempty, trimmed⟩ := reads
  simp only [headerLineByte] at moved
  split at moved
  next space =>
    cases moved
    refine ⟨name, n, value, k + 1, ?_, named.transfer rfl rfl rfl rfl rfl, name_end, start,
      value_end, nonempty, trimmed⟩
    rw [space, spaceRun, spaceRun, spaceRun, List.replicate_succ' (n := k + 1)]
    simp only [List.append_assoc, List.cons_append]
  next space =>
    split at moved
    next carriage =>
      cases moved
      exact ⟨_, name, value, 0, by rw [carriage]; rfl, named.transfer rfl rfl rfl rfl rfl,
        .inr ⟨n, k + 1, rfl, start⟩, name_end, value_end, trimmed⟩
    next carriage =>
      split at moved
      · cases moved
      next feed =>
        split at moved
        · cases moved
        next nul =>
          cases moved
          exact ⟨name, n, value ++ (spaceRun (k + 1) ++ [ch]), by simp,
            named.transfer rfl rfl rfl rfl rfl, name_end, start, by simp,
            trimmed.concat nonempty (k + 1) ⟨space, carriage, feed, nul⟩⟩

/-- A byte takes the cursor after the bytes before it to that after the bytes with it. -/
theorem reads_step (reads : Reads q xs c) (moved : headerLineByte true c ch = .ok c') :
    Reads q (xs ++ [ch]) c' := by
  refine ⟨?_, ?_⟩
  · rw [headerLineByte_moves.moves moved, reads.position, List.length_append]
    rfl
  · obtain ⟨position, state⟩ := reads
    obtain ⟨r, at_state, hash, i, p⟩ := c
    cases at_state with
    | start =>
      change xs = [] at state
      subst state
      exact start_reads position moved
    | name => exact name_reads position state moved
    | spaceBeforeValue => exact space_reads position state moved
    | value => exact value_reads position state moved
    | spaceAfterValue => exact spaceAfter_reads state moved
    | ignoreLine => exact state.elim
    | almostDone =>
      obtain ⟨body, name, value, k, rfl, field⟩ := state
      simp only [headerLineByte] at moved
      split at moved
      · cases moved
      · split at moved
        next carriage =>
          cases moved
          refine ⟨body, name, value, k + 1, ?_, ⟨field.named.transfer rfl rfl rfl rfl rfl,
            field.shape, field.name_end, field.value_end, field.trimmed⟩⟩
          rw [carriage, List.replicate_succ' (n := k + 1), List.append_assoc]
        · cases moved
    | headerAlmostDone =>
      simp only [headerLineByte] at moved
      split at moved <;> cases moved

/-- The line is over at its line feed, with all the fields of its header. -/
theorem reads_done (reads : Reads q xs c) (stopped : headerLineByte true c ch = .error (.done c')) :
    ch = lf ∧ ∃ body name value k, xs = body ++ List.replicate k cr ∧ Field q body name value c' := by
  obtain ⟨position, state⟩ := reads
  obtain ⟨r, at_state, hash, i, p⟩ := c
  cases at_state with
  | start =>
    simp only [headerLineByte] at stopped
    repeat' split at stopped
    all_goals cases stopped
  | ignoreLine => exact state.elim
  | headerAlmostDone =>
    simp only [headerLineByte] at stopped
    split at stopped <;> cases stopped
  | name =>
    simp only [headerLineByte] at stopped
    repeat' split at stopped
    all_goals cases stopped
    refine ⟨‹_›, xs, xs, [], 0, (List.append_nil xs).symm, ⟨state.transfer rfl rfl rfl rfl rfl,
      .inl ⟨rfl, rfl, position⟩, position, rfl, trimmed_nil⟩⟩
  | spaceBeforeValue =>
    obtain ⟨name, n, rfl, named, name_end⟩ := state
    have start : p = q + name.length + 1 + n := spaces_position position
    simp only [headerLineByte] at stopped
    repeat' split at stopped
    all_goals cases stopped
    exact ⟨‹_›, _, name, [], 0, (List.append_nil _).symm, ⟨named.transfer rfl rfl rfl rfl rfl,
      .inr ⟨n, 0, by simp [spaceRun], start⟩, name_end, rfl, trimmed_nil⟩⟩
  | value =>
    obtain ⟨name, n, value, rfl, named, name_end, start, nonempty, trimmed⟩ := state
    have value_end : p = r.headerStart + value.length := by
      rw [show r.headerStart = _ from start]
      exact value_position position
    simp only [headerLineByte] at stopped
    repeat' split at stopped
    all_goals cases stopped
    exact ⟨‹_›, _, name, value, 0, (List.append_nil _).symm, ⟨named.transfer rfl rfl rfl rfl rfl,
      .inr ⟨n, 0, by simp [spaceRun], start⟩, name_end, value_end, trimmed⟩⟩
  | spaceAfterValue =>
    obtain ⟨name, n, value, k, rfl, named, name_end, start, value_end, nonempty, trimmed⟩ := state
    simp only [headerLineByte] at stopped
    repeat' split at stopped
    all_goals cases stopped
    exact ⟨‹_›, _, name, value, 0, (List.append_nil _).symm, ⟨named.transfer rfl rfl rfl rfl rfl,
      .inr ⟨n, k + 1, rfl, start⟩, name_end, value_end, trimmed⟩⟩
  | almostDone =>
    obtain ⟨body, name, value, k, rfl, field⟩ := state
    simp only [headerLineByte] at stopped
    repeat' split at stopped
    all_goals cases stopped
    exact ⟨‹_›, body, name, value, k + 1, rfl, field⟩

/-- The headers are over at the line feed of an empty line. -/
theorem reads_headerDone (reads : Reads q xs c)
    (stopped : headerLineByte true c ch = .error (.headerDone c')) :
    ch = lf ∧ (xs = [] ∨ xs = [cr]) ∧ c'.r.headerNameStart = q := by
  obtain ⟨position, state⟩ := reads
  obtain ⟨r, at_state, hash, i, p⟩ := c
  cases at_state with
  | start =>
    change xs = [] at state
    subst state
    simp only [headerLineByte] at stopped
    repeat' split at stopped
    all_goals cases stopped
    exact ⟨‹_›, .inl rfl, position⟩
  | headerAlmostDone =>
    obtain ⟨rfl, start⟩ := state
    simp only [headerLineByte] at stopped
    split at stopped
    · cases stopped
      exact ⟨‹_›, .inr rfl, start⟩
    · cases stopped
  | ignoreLine => exact state.elim
  | _ =>
    simp only [headerLineByte] at stopped
    repeat' split at stopped
    all_goals cases stopped

end Steps

section Headers

variable {q : Nat} {body name value rest : List UInt8} {c : HeaderLineCursor} {k : Nat}

theorem takeWhile_exact {p : UInt8 → Bool} (inside : ∀ b ∈ name, p b = true)
    (boundary : ∀ b, rest.head? = some b → p b = false) : (name ++ rest).takeWhile p = name := by
  rw [List.takeWhile_append_of_pos inside]
  cases rest with
  | nil => exact List.append_nil name
  | cons b rest => rw [List.takeWhile_cons_of_neg (by simp [boundary b rfl]), List.append_nil]

theorem dropWhile_exact {p : UInt8 → Bool} (inside : ∀ b ∈ name, p b = true)
    (boundary : ∀ b, rest.head? = some b → p b = false) : (name ++ rest).dropWhile p = rest := by
  rw [List.dropWhile_append_of_pos inside]
  cases rest with
  | nil => rfl
  | cons b rest => rw [List.dropWhile_cons_of_neg (by simp [boundary b rfl])]

theorem dropWhile_spaces (n : Nat) (other : rest.head? ≠ some (byte ' ')) :
    (spaceRun n ++ rest).dropWhile (fun b => decide (b = byte ' ')) = rest := by
  refine dropWhile_exact (fun b member => ?_) (fun b head => ?_)
  · exact decide_eq_true (List.eq_of_mem_replicate member)
  · refine decide_eq_false ?_
    rintro rfl
    exact other head

theorem trimSpaces_eq (trimmed : Trimmed value) (n k : Nat) :
    trimSpaces (spaceRun n ++ (value ++ spaceRun k)) = value := by
  cases value with
  | nil =>
    have spaces : spaceRun n ++ ([] ++ spaceRun k) = spaceRun (n + k) ++ [] := by
      simp [spaceRun]
    rw [spaces, trimSpaces, dropWhile_spaces (n + k) (by simp)]
    rfl
  | cons b value =>
    have last : (spaceRun k ++ (b :: value).reverse).dropWhile (fun b => decide (b = byte ' ')) =
        (b :: value).reverse := by
      refine dropWhile_spaces k ?_
      rw [List.head?_reverse]
      exact trimmed.last
    rw [trimSpaces, dropWhile_spaces n (by exact trimmed.head), List.rdropWhile, List.reverse_append,
      spaceRun, List.reverse_replicate]
    rw [spaceRun] at last
    rw [last, List.reverse_reverse]

/-- The line break behind a header, from its first carriage return or its line feed on. -/
theorem break_head (k : Nat) (b : UInt8) (head : (List.replicate k cr ++ [lf]).head? = some b) :
    lineEnds b = true ∧ nameChar b = false ∧ b ≠ byte ':' := by
  cases k with
  | zero =>
    cases head
    decide
  | succ k =>
    cases head
    decide

theorem lineHeader_field (nonempty : name ≠ []) (valid : ∀ b ∈ name, nameChar b = true)
    (trimmed : Trimmed value) (n m k : Nat) :
    lineHeader (name ++ byte ':' :: (spaceRun n ++ (value ++ spaceRun m)) ++
      (List.replicate k cr ++ [lf])) = some (name, value) := by
  have boundary (b) (head : (byte ':' :: (spaceRun n ++ (value ++ spaceRun m) ++
      (List.replicate k cr ++ [lf]))).head? = some b) : nameChar b = false := by
    cases head
    decide
  have inside : ∀ b ∈ spaceRun n ++ (value ++ spaceRun m), (¬ lineEnds b : Bool) = true := by
    simp only [List.forall_mem_append, spaceRun]
    refine ⟨fun b member => ?_, fun b member => ?_, fun b member => ?_⟩
    · rw [List.eq_of_mem_replicate member]
      decide
    · obtain ⟨carriage, feed, -⟩ := trimmed.bytes b member
      simp [lineEnds, carriage, feed]
    · rw [List.eq_of_mem_replicate member]
      decide
  have break_boundary (b) (head : (List.replicate k cr ++ [lf]).head? = some b) :
      (¬ lineEnds b : Bool) = false := by
    rw [(break_head k b head).1]
    decide
  rw [List.append_assoc, List.cons_append, lineHeader, takeWhile_exact valid boundary,
    dropWhile_exact valid boundary, if_neg nonempty]
  dsimp only
  rw [if_pos rfl, takeWhile_exact inside break_boundary, trimSpaces_eq trimmed]

theorem first_other (valid : name.all nameChar = false) :
    ∃ good bad more, name = good ++ bad :: more ∧ (∀ b ∈ good, nameChar b = true) ∧
      nameChar bad = false := by
  induction name with
  | nil => cases valid
  | cons b name ih =>
    cases is : nameChar b with
    | false => exact ⟨[], b, name, rfl, nofun, is⟩
    | true =>
      rw [List.all_cons, is, Bool.true_and] at valid
      obtain ⟨good, bad, more, rfl, all_good, other⟩ := ih valid
      exact ⟨b :: good, bad, more, rfl, List.forall_mem_cons.mpr ⟨is, all_good⟩, other⟩

/-- The header in a line is the one that the parser finds. -/
theorem Field.lineHeader_eq (field : Field q body name value c) (k : Nat) :
    lineHeader (body ++ (List.replicate k cr ++ [lf])) =
      if c.r.invalidHeader then none else some (name, value) := by
  rw [field.named.invalid]
  cases valid : name.all nameChar with
  | true =>
    rw [List.all_eq_true] at valid
    rcases field.shape with ⟨rfl, rfl, -⟩ | ⟨n, m, rfl, -⟩
    · have boundary (b) (head : (List.replicate k cr ++ [lf]).head? = some b) :=
        (break_head k b head).2.1
      have name_eq := takeWhile_exact valid boundary
      have rest_eq := dropWhile_exact valid boundary
      rw [lineHeader, name_eq, rest_eq, if_neg field.named.nonempty]
      cases breaks : List.replicate k cr ++ [lf] with
      | nil => simp at breaks
      | cons b more =>
        obtain ⟨ends, -, colon⟩ := break_head k b (by rw [breaks]; rfl)
        dsimp only
        rw [if_neg colon, if_pos ends]
        rfl
    · exact lineHeader_field field.named.nonempty valid field.trimmed n m k
  | false =>
    obtain ⟨tail, rfl⟩ : ∃ tail, body = name ++ tail := by
      rcases field.shape with ⟨rfl, -, -⟩ | ⟨n, m, rfl, -⟩
      · exact ⟨[], (List.append_nil _).symm⟩
      · exact ⟨_, rfl⟩
    obtain ⟨good, bad, more, rfl, all_good, other⟩ := first_other valid
    have boundary (b) (head : (bad :: (more ++ (tail ++ (List.replicate k cr ++ [lf])))).head? =
        some b) : nameChar b = false := by
      cases head
      exact other
    have shape : good ++ bad :: more ++ tail ++ (List.replicate k cr ++ [lf]) =
        good ++ bad :: (more ++ (tail ++ (List.replicate k cr ++ [lf]))) := by
      simp only [List.append_assoc, List.cons_append]
    rw [shape, lineHeader, takeWhile_exact all_good boundary, dropWhile_exact all_good boundary]
    by_cases empty : good = []
    · rw [if_pos empty]
      rfl
    · have member : bad ∈ (good ++ bad :: more).tail := by
        rw [List.tail_append_of_ne_nil empty]
        exact List.mem_append_right _ List.mem_cons_self
      have plain := field.named.line_ends bad (List.mem_of_mem_tail member)
      rw [if_neg empty]
      dsimp only
      rw [if_neg (field.named.colon bad member), if_neg (by rw [plain]; decide)]
      rfl

end Headers

section Accepted

variable {q : Nat} {xs ys : List UInt8} {c c' : HeaderLineCursor} {ch : UInt8}

theorem reads_start (r : HeaderLine) (q : Nat) : Reads q [] (.enter r .start q) := ⟨rfl, rfl⟩

theorem reads_fold (reads : Reads q xs c) (folded : ys.foldlM (headerLineByte true) c = .ok c') :
    Reads q (xs ++ ys) c' := by
  induction ys generalizing xs c with
  | nil =>
    cases folded
    rwa [List.append_nil]
  | cons b ys ih =>
    obtain ⟨c₁, moved, rest⟩ := foldlM_cons_ok.mp folded
    have next := ih (reads_step reads moved) rest
    rwa [List.append_assoc] at next

def HeaderLineState.Within (state : HeaderLineState) : Prop :=
  state = .name ∨ state = .spaceBeforeValue ∨ state = .value ∨ state = .spaceAfterValue

def plain (ch : UInt8) : Prop := ch ≠ cr ∧ ch ≠ lf ∧ ch ≠ 0

theorem start_goes_on (r : HeaderLine) (is : plain ch) :
    ∃ c', headerLineByte true (.enter r .start q) ch = .ok c' ∧ c'.state.Within := by
  obtain ⟨carriage, feed, nul⟩ := is
  simp only [headerLineByte, HeaderLineCursor.next, HeaderLineCursor.enter, if_neg carriage,
    if_neg feed, if_neg nul]
  repeat' split
  all_goals exact ⟨_, rfl, .inl rfl⟩

theorem within_goes_on (within : c.state.Within) (is : plain ch) :
    ∃ c', headerLineByte true c ch = .ok c' ∧ c'.state.Within := by
  obtain ⟨carriage, feed, nul⟩ := is
  obtain ⟨r, state, hash, i, p⟩ := c
  rcases within with rfl | rfl | rfl | rfl <;>
  · simp only [headerLineByte, HeaderLineCursor.next, if_neg carriage, if_neg feed, if_neg nul]
    repeat' split
    all_goals exact ⟨_, rfl, by simp [HeaderLineState.Within]⟩

theorem within_fold (within : c.state.Within) (all : ∀ b ∈ xs, plain b) :
    ∃ c', xs.foldlM (headerLineByte true) c = .ok c' ∧ c'.state.Within := by
  induction xs generalizing c with
  | nil => exact ⟨c, rfl, within⟩
  | cons b xs ih =>
    obtain ⟨is, rest⟩ := List.forall_mem_cons.mp all
    obtain ⟨c₁, moved, within⟩ := within_goes_on within is
    obtain ⟨c', folded, within⟩ := ih within rest
    exact ⟨c', foldlM_cons_ok.mpr ⟨c₁, moved, folded⟩, within⟩

/-- Carriage returns at the end of a line, and its line feed. -/
theorem almostDone_ends (almost : c.state = .almostDone) (k : Nat) :
    ∃ c' c'', (List.replicate k cr).foldlM (headerLineByte true) c = .ok c' ∧
      headerLineByte true c' lf = .error (.done c'') := by
  induction k generalizing c with
  | zero =>
    obtain ⟨r, state, hash, i, p⟩ := c
    cases almost
    exact ⟨_, _, rfl, rfl⟩
  | succ k ih =>
    obtain ⟨r, state, hash, i, p⟩ := c
    cases almost
    obtain ⟨c', c'', folded, done⟩ := @ih ⟨r, .almostDone, hash, i, p + 1⟩ rfl
    exact ⟨c', c'', foldlM_cons_ok.mpr ⟨_, rfl, folded⟩, done⟩

theorem within_ends (within : c.state.Within) (k : Nat) :
    ∃ c' c'', (List.replicate k cr).foldlM (headerLineByte true) c = .ok c' ∧
      headerLineByte true c' lf = .error (.done c'') := by
  obtain ⟨r, state, hash, i, p⟩ := c
  cases k with
  | zero =>
    have last : ∃ c'', headerLineByte true ⟨r, state, hash, i, p⟩ lf = .error (.done c'') := by
      rcases within with rfl | rfl | rfl | rfl <;> exact ⟨_, rfl⟩
    obtain ⟨c'', done⟩ := last
    exact ⟨_, c'', rfl, done⟩
  | succ k =>
    have first : ∃ c₁, headerLineByte true ⟨r, state, hash, i, p⟩ cr = .ok c₁ ∧
        c₁.state = .almostDone := by
      rcases within with rfl | rfl | rfl | rfl <;> exact ⟨_, rfl, rfl⟩
    obtain ⟨c₁, moved, almost⟩ := first
    obtain ⟨c', c'', folded, done⟩ := almostDone_ends almost k
    exact ⟨c', c'', foldlM_cons_ok.mpr ⟨c₁, moved, folded⟩, done⟩

/-- A line of bytes other than NUL with its line break is accepted. -/
theorem line_accepted (r : HeaderLine) (nonempty : xs ≠ []) (all : ∀ b ∈ xs, plain b) (k : Nat) :
    ∃ c c', (xs ++ List.replicate k cr).foldlM (headerLineByte true) (.enter r .start q) = .ok c ∧
      headerLineByte true c lf = .error (.done c') := by
  cases xs with
  | nil => exact (nonempty rfl).elim
  | cons b xs =>
    obtain ⟨is, rest⟩ := List.forall_mem_cons.mp all
    obtain ⟨c₁, moved, within⟩ := start_goes_on (q := q) r is
    obtain ⟨c₂, folded, within⟩ := within_fold within rest
    obtain ⟨c, c', ends, done⟩ := within_ends within k
    exact ⟨c, c', foldlM_cons_ok.mpr ⟨c₁, moved, foldlM_append_ok.mpr ⟨c₂, folded, ends⟩⟩, done⟩

end Accepted

end Ngx.Http
