import Ngx.HttpParse
import Ngx.HttpResponse
import Mathlib.Data.List.Induction

/-! The request line in pieces. The state `sw_method` compares four bytes at once, which may not
all be there; read one at a time they make the parser independent of the cuts. -/
namespace Ngx.Http

open ByteLoop Resumable

/-- A round that reads the method byte by byte; all other states are those of the parser. -/
def lineByte (c : RequestLineCursor) (ch : UInt8) : Except RequestLineStop RequestLineCursor :=
  if c.state ≠ .method then requestLineRound (fun _ => ch) c
  else if c.p = c.r.requestStart + 1 then
    if ch = byte 'E' then c.r.next .method c.p else c.r.invalid .invalidMethod
  else if c.p = c.r.requestStart + 2 then
    if ch = byte 'T' then c.r.next .method c.p else c.r.invalid .invalidMethod
  else if ch = byte ' ' then
    { c.r with methodEnd := c.p, method := .get }.next .spacesBeforeUri c.p
  else c.r.invalid .invalidMethod

/-- Within the method, where the parser never stops when it has all of it. -/
structure RequestLineCursor.Midst (c : RequestLineCursor) : Prop where
  state : c.state = .method
  inside : c.p ≠ c.r.requestStart + 1

/-- The byte before the rest of the method is still in the buffer. -/
def RequestLineCursor.Ready (mem : Nat → UInt8) (c : RequestLineCursor) : Prop :=
  c.state = .method → c.p = c.r.requestStart + 1 ∧ mem c.r.requestStart = byte 'G'

def RequestLineCursor.fresh (p : Nat) : RequestLineCursor := ⟨.fresh, .start, p⟩

section Rounds

variable {mem : Nat → UInt8} {c c' : RequestLineCursor} {ch : UInt8} {last : Nat}

theorem round_eq_lineByte (other : c.state ≠ .method) :
    requestLineRound mem c = lineByte c (mem c.p) := by
  rw [lineByte, if_pos other]
  obtain ⟨r, state, p⟩ := c
  cases state with
  | method => exact (other rfl).elim
  | _ => rfl

/-- Where a round of a state other than `sw_method` leads. -/
theorem round_moves (other : c.state ≠ .method) (moved : requestLineRound mem c = .ok c') :
    c'.p = c.p + 1 ∧
      (c'.state = .method → c.state = .start ∧ mem c.p = byte 'G' ∧ c'.r.requestStart = c.p) := by
  obtain ⟨r, state, p⟩ := c
  cases state with
  | method => exact (other rfl).elim
  | start =>
    simp only [requestLineRound] at moved
    split at moved
    · cases moved
      exact ⟨rfl, nofun⟩
    · split at moved
      · cases moved
      · cases moved
        exact ⟨rfl, fun _ => ⟨rfl, not_ne_iff.mp ‹_›, rfl⟩⟩
  | _ =>
    simp only [requestLineRound, RequestLine.expect] at moved
    repeat' split at moved
    all_goals cases moved
    all_goals exact ⟨rfl, nofun⟩

theorem lineByte_moves : Bytewise lineByte RequestLineCursor.p where
  moves {c ch c'} moved := by
    by_cases method : c.state = .method
    · rw [lineByte, if_neg (not_ne_iff.mpr method)] at moved
      repeat' split at moved
      all_goals cases moved
      all_goals rfl
    · rw [lineByte, if_pos method] at moved
      exact (round_moves method moved).1

theorem round_forward : Forward (requestLineRound mem) RequestLineCursor.p := by
  intro c c' moved
  by_cases method : c.state = .method
  · rw [requestLineRound, method] at moved
    dsimp only at moved
    split at moved
    · cases moved
      exact Nat.lt_succ_of_lt (Nat.lt_succ_self _)
    · cases moved
  · rw [(round_moves method moved).1]
    exact Nat.lt_succ_self _

theorem round_ready (moved : requestLineRound mem c = .ok c') :
    c'.Ready mem := by
  intro method'
  by_cases method : c.state = .method
  · rw [requestLineRound, method] at moved
    dsimp only at moved
    split at moved <;> cases moved
    cases method'
  · obtain ⟨pos, from_start⟩ := round_moves method moved
    obtain ⟨-, byte, start⟩ := from_start method'
    rw [pos, start]
    exact ⟨rfl, byte⟩

def RequestLineCursor.pastMethod (c : RequestLineCursor) : RequestLineCursor :=
  ⟨{ c.r with methodEnd := c.r.requestStart + 3, method := .get }, .spacesBeforeUri,
    c.r.requestStart + 4⟩

def RequestLineCursor.atSpace (c : RequestLineCursor) : RequestLineCursor :=
  { c.pastMethod with p := c.r.requestStart + 3 }

theorem method_round (state : c.state = .method) (ready : c.Ready mem) :
    requestLineRound mem c =
      if mem (c.r.requestStart + 1) = byte 'E' ∧ mem (c.r.requestStart + 2) = byte 'T' ∧
          mem (c.r.requestStart + 3) = byte ' ' then .ok c.atSpace
      else .error (.invalid .invalidMethod c.r) := by
  obtain ⟨pos, first⟩ := ready state
  rw [requestLineRound, state]
  simp only [str3Cmp, first, beq_self_eq_true, Bool.true_and, Bool.and_eq_true, beq_iff_eq,
    and_assoc, pos]
  rfl

theorem first_byte (state : c.state = .method) (at_byte : c.p = c.r.requestStart + 1) :
    lineByte c ch = if ch = byte 'E' then .ok { c with p := c.r.requestStart + 2 }
      else .error (.invalid .invalidMethod c.r) := by
  rw [lineByte, if_neg (not_ne_iff.mpr state), if_pos at_byte, at_byte, RequestLine.next, state]
  rfl

theorem second_byte (state : c.state = .method) (at_byte : c.p = c.r.requestStart + 2) :
    lineByte c ch = if ch = byte 'T' then .ok { c with p := c.r.requestStart + 3 }
      else .error (.invalid .invalidMethod c.r) := by
  rw [lineByte, if_neg (not_ne_iff.mpr state), if_neg (by omega), if_pos at_byte, at_byte,
    RequestLine.next, state]
  rfl

theorem third_byte (state : c.state = .method) (at_byte : c.p = c.r.requestStart + 3) :
    lineByte c ch = if ch = byte ' ' then .ok c.pastMethod
      else .error (.invalid .invalidMethod c.r) := by
  rw [lineByte, if_neg (not_ne_iff.mpr state), if_neg (by omega), if_neg (by omega), at_byte]
  rfl

/-- The bytes of the method up to the space, or the first of them that is wrong. -/
theorem one_byte (state : c.state = .method) (start : c.p = c.r.requestStart + 1) (e : UInt8) :
    [e].foldlM lineByte c = if e = byte 'E' then .ok { c with p := c.r.requestStart + 2 }
      else .error (.invalid .invalidMethod c.r) := by
  rw [List.foldlM_cons, first_byte state start]
  split <;> rfl

theorem two_bytes (state : c.state = .method) (start : c.p = c.r.requestStart + 1)
    (e t : UInt8) (rest : List UInt8) :
    (e :: t :: rest).foldlM lineByte c =
      if e = byte 'E' ∧ t = byte 'T' then
        rest.foldlM lineByte { c with p := c.r.requestStart + 3 }
      else .error (.invalid .invalidMethod c.r) := by
  simp only [List.foldlM_cons, first_byte state start]
  by_cases first : e = byte 'E'
  · rw [if_pos first]
    change (lineByte { c with p := c.r.requestStart + 2 } t >>= _) = _
    rw [second_byte (by exact state) rfl]
    by_cases second : t = byte 'T'
    · rw [if_pos second, if_pos ⟨first, second⟩]
      rfl
    · rw [if_neg second, if_neg fun both => second both.2]
      rfl
  · rw [if_neg first, if_neg fun both => first both.1]
    rfl

theorem three_bytes (state : c.state = .method) (start : c.p = c.r.requestStart + 1)
    (e t s : UInt8) (rest : List UInt8) :
    (e :: t :: s :: rest).foldlM lineByte c =
      if e = byte 'E' ∧ t = byte 'T' ∧ s = byte ' ' then rest.foldlM lineByte c.pastMethod
      else .error (.invalid .invalidMethod c.r) := by
  rw [two_bytes state start, List.foldlM_cons, third_byte (by exact state) rfl]
  by_cases first : e = byte 'E' ∧ t = byte 'T'
  · rw [if_pos first]
    by_cases third : s = byte ' '
    · rw [if_pos third, if_pos ⟨first.1, first.2, third⟩]
      rfl
    · rw [if_neg third, if_neg fun all => third all.2.2]
      rfl
  · rw [if_neg first, if_neg fun all => first ⟨all.1, all.2.1⟩]

/-- Behind the method the parser reads the space that it has compared already. -/
theorem run_atSpace (space : mem (c.r.requestStart + 3) = byte ' ')
    (le : c.r.requestStart + 4 ≤ last) :
    run (requestLineRound mem) RequestLineCursor.p last c.atSpace =
      run (requestLineRound mem) RequestLineCursor.p last c.pastMethod := by
  have round : requestLineRound mem c.atSpace = .ok c.pastMethod := by
    change (if mem (c.r.requestStart + 3) = byte '/' then _ else _) = _
    rw [space, if_neg (by decide), RequestLine.expect, if_pos (by exact space)]
    rfl
  rw [run_round round_forward (by exact le), round]
  rfl

/-- Bytes that end within the method are refused as soon as one of them is wrong. -/
theorem method_refused (state : c.state = .method) (start : c.p = c.r.requestStart + 1)
    (before : c.p < last)
    (clear : ∀ c', (cells mem c.p last).foldlM lineByte c = .ok c' → ¬ c'.Midst)
    (refused : ¬ (mem (c.r.requestStart + 1) = byte 'E' ∧ mem (c.r.requestStart + 2) = byte 'T' ∧
      mem (c.r.requestStart + 3) = byte ' ') ∨ last < c.r.requestStart + 4) :
    ¬ (mem (c.r.requestStart + 1) = byte 'E' ∧ mem (c.r.requestStart + 2) = byte 'T' ∧
        mem (c.r.requestStart + 3) = byte ' ') ∧
      (cells mem c.p last).foldlM lineByte c = .error (.invalid .invalidMethod c.r) := by
  rw [start] at clear before ⊢
  rw [cells_cons before] at clear ⊢
  rcases Nat.lt_or_ge last (c.r.requestStart + 4) with short | enough
  · rcases Nat.lt_or_ge last (c.r.requestStart + 3) with one | two
    · rw [cells_nil (by omega), one_byte state start] at clear ⊢
      by_cases first : mem (c.r.requestStart + 1) = byte 'E'
      · rw [if_pos first] at clear
        exact (clear _ rfl ⟨state, by simp⟩).elim
      · exact ⟨fun all => first all.1, if_neg first⟩
    · rw [cells_cons (by omega), cells_nil (by omega), two_bytes state start] at clear ⊢
      by_cases both : mem (c.r.requestStart + 1) = byte 'E' ∧
          mem (c.r.requestStart + 1 + 1) = byte 'T'
      · rw [if_pos both] at clear
        exact (clear _ rfl ⟨state, by simp⟩).elim
      · exact ⟨fun all => both ⟨all.1, all.2.1⟩, if_neg both⟩
  · have wrong := refused.resolve_right (by omega)
    rw [cells_cons (by omega), cells_cons (by omega), three_bytes state start]
    exact ⟨wrong, if_neg wrong⟩

/-- The parser reads byte by byte unless it stops within the method. -/
theorem run_eq_lineByte (ready : c.Ready mem)
    (clear : ∀ c', (cells mem c.p last).foldlM lineByte c = .ok c' → ¬ c'.Midst) :
    run (requestLineRound mem) RequestLineCursor.p last c =
      (cells mem c.p last).foldlM lineByte c := by
  induction distance : last - c.p using Nat.strongRecOn generalizing c with
  | ind d ih =>
    by_cases past : last ≤ c.p
    · rw [run_over past, cells_nil past]
      rfl
    have before : c.p < last := by omega
    by_cases method : c.state = .method
    · obtain ⟨start, -⟩ := ready method
      rw [run_round round_forward before, method_round method ready]
      by_cases accepted : (mem (c.r.requestStart + 1) = byte 'E' ∧
          mem (c.r.requestStart + 2) = byte 'T' ∧ mem (c.r.requestStart + 3) = byte ' ') ∧
          c.r.requestStart + 4 ≤ last
      · obtain ⟨all, enough⟩ := accepted
        have past : c.pastMethod.p = c.r.requestStart + 4 := rfl
        rw [start, cells_cons (by omega), cells_cons (by omega), cells_cons (by omega),
          three_bytes method start, if_pos all] at clear ⊢
        rw [if_pos all]
        change run _ _ _ c.atSpace = _
        rw [run_atSpace all.2.2 enough]
        exact ih (last - c.pastMethod.p) (by omega) (c := c.pastMethod) nofun clear rfl
      · rw [not_and_or, Nat.not_le] at accepted
        obtain ⟨wrong, refused⟩ := method_refused method start before clear accepted
        rw [if_neg wrong, refused]
        rfl
    · rw [run_round round_forward before, round_eq_lineByte method]
      rw [cells_cons before, List.foldlM_cons] at clear ⊢
      cases moved : lineByte c (mem c.p) with
      | error e => rfl
      | ok c' =>
        rw [moved] at clear
        have next := lineByte_moves.moves moved
        have ready' : c'.Ready mem :=
          round_ready (c := c) (by rw [round_eq_lineByte method]; exact moved)
        have rest := ih (last - c'.p) (by omega) ready' (by rw [next]; exact clear) rfl
        rw [next] at rest
        exact rest

/-- A cursor within the method stood behind the 'G' one or two bytes before. -/
theorem midst_inv {xs : List UInt8} (clear : ¬ c.Midst) (folded : xs.foldlM lineByte c = .ok c')
    (midst : c'.Midst) :
    ∃ front back c₁, xs = front ++ back ∧ front.foldlM lineByte c = .ok c₁ ∧
      c₁.state = .method ∧ c₁.p = c₁.r.requestStart + 1 ∧
      (back = [byte 'E'] ∨ back = [byte 'E', byte 'T']) ∧
      c' = { c₁ with p := c₁.p + back.length } := by
  induction xs using List.reverseRecOn generalizing c' with
  | nil =>
    cases folded
    exact (clear midst).elim
  | append_singleton xs b ih =>
    obtain ⟨c₂, before, moved⟩ := foldlM_concat_ok.mp folded
    by_cases method : c₂.state = .method
    · by_cases start : c₂.p = c₂.r.requestStart + 1
      · rw [first_byte method start] at moved
        split at moved <;> cases moved
        refine ⟨xs, [b], c₂, rfl, before, method, start, .inl (by simp [‹b = byte 'E'›]), ?_⟩
        simp [start]
      · obtain ⟨front, back, c₁, rfl, passed, -, at_first, bytes, rfl⟩ := ih before ⟨method, start⟩
        rcases bytes with rfl | rfl
        · rw [second_byte method (by simp [at_first])] at moved
          split at moved <;> cases moved
          refine ⟨front, [byte 'E', b], c₁, by simp, passed, method, at_first,
            .inr (by simp [‹b = byte 'T'›]), by simp [at_first]⟩
        · rw [third_byte method (by simp [at_first])] at moved
          split at moved <;> cases moved
          cases midst.state
    · rw [lineByte, if_pos method] at moved
      obtain ⟨pos, from_start⟩ := round_moves method moved
      obtain ⟨-, -, start⟩ := from_start midst.state
      exact (midst.inside (by rw [pos, start])).elim

/-- No code but that of the method can come from behind the method. -/
theorem round_invalid {code : ParseCode} {r : RequestLine}
    (stopped : requestLineRound mem c = .error (.invalid code r)) :
    code ≠ .ok ∧ code ≠ .again ∧ (code = .invalidMethod → c.state = .start ∨ c.state = .method) := by
  obtain ⟨r₀, state, p⟩ := c
  cases state with
  | start => 
    simp only [requestLineRound, RequestLine.invalid] at stopped
    repeat' split at stopped
    all_goals cases stopped
    exact ⟨nofun, nofun, fun _ => .inl rfl⟩
  | method =>
    simp only [requestLineRound, RequestLine.invalid] at stopped
    repeat' split at stopped
    all_goals cases stopped
    exact ⟨nofun, nofun, fun _ => .inr rfl⟩
  | _ =>
    simp only [requestLineRound, RequestLine.invalid, RequestLine.expect] at stopped
    repeat' split at stopped
    all_goals cases stopped
    all_goals exact ⟨nofun, nofun, nofun⟩

end Rounds

/-- What the caller uses of a call: the return value and, after `NGX_OK`, the fields and the
position. -/
def RequestLineCall.outcome (call : RequestLineCall) : ParseCode × Option (RequestLine × Nat) :=
  (call.code, if call.code = .ok then some (call.r, call.b.pos) else none)

def feedRequestLine (r : RequestLine) (state : RequestLineState) (b : HeaderIn) :
    List (List UInt8) → List RequestLineCall
  | [] => []
  | piece :: rest =>
    let call := parseRequestLine r state (b.received piece)
    call :: if call.code = .again then feedRequestLine call.r call.state call.b rest else []

def finalOutcome (calls : List RequestLineCall) : ParseCode × Option (RequestLine × Nat) :=
  (calls.getLast?.map RequestLineCall.outcome).getD (.again, none)

/-- From a cursor at the end of the input, the pieces lead where their whole does, and every call
that wants more has used all there was. -/
def Uncut (c : RequestLineCursor) (mem : Nat → UInt8) (pieces : List (List UInt8)) : Prop :=
  finalOutcome (feedRequestLine c.r c.state ⟨mem, c.p, c.p⟩ pieces) =
      (parseRequestLine c.r c.state (HeaderIn.received ⟨mem, c.p, c.p⟩ pieces.flatten)).outcome ∧
    ∀ call ∈ feedRequestLine c.r c.state ⟨mem, c.p, c.p⟩ pieces,
      call.code = .again → call.b.pos = call.b.last

/-- Input up to a cut and what comes after it: one of the two cuts that the parser is sensitive
to. After a third byte of the method it has looked one byte too far, but may not notice. -/
def RequestLineCursor.Splits (c : RequestLineCursor) (before after : List UInt8) : Prop :=
  ∃ c', before.foldlM lineByte c = .ok c' ∧ c'.state = .method ∧
    (c'.p = c'.r.requestStart + 2 ∨ c'.p = c'.r.requestStart + 3 ∧ after ≠ [])

section Calls

variable {mem : Nat → UInt8} {c c' : RequestLineCursor} {b : HeaderIn} {r : RequestLine}
  {state : RequestLineState} {calls : List RequestLineCall} {call : RequestLineCall}

def outcomeOf : Except RequestLineStop RequestLineCursor → ParseCode × Option (RequestLine × Nat)
  | .ok _ => (.again, none)
  | .error (.done r p) =>
    ((requestLineDone r p).1,
      if (requestLineDone r p).1 = .ok then some ((requestLineDone r p).2, p + 1) else none)
  | .error (.invalid code _) => (code, none)

def requestLineRun (c : RequestLineCursor) (b : HeaderIn) :
    Except RequestLineStop RequestLineCursor :=
  run (requestLineRound b.mem) RequestLineCursor.p b.last c

theorem run_invalid {last : Nat} {code : ParseCode} {r : RequestLine}
    (stopped : run (requestLineRound mem) RequestLineCursor.p last c = .error (.invalid code r)) :
    code ≠ .ok ∧ code ≠ .again := by
  obtain ⟨c', -, -, round⟩ := run_stops (I := fun _ => True) round_forward
    (fun _ _ _ => trivial) trivial stopped
  exact ⟨(round_invalid round).1, (round_invalid round).2.1⟩

theorem requestLineDone_code (p : Nat) :
    (requestLineDone r p).1 = .invalidVersion ∨ (requestLineDone r p).1 = .ok := by
  unfold requestLineDone
  exact ite_eq_or_eq _ _ _

theorem parse_again (ran : requestLineRun ⟨r, state, b.pos⟩ b = .ok c) :
    parseRequestLine r state b = ⟨.again, c.r, c.state, { b with pos := c.p }⟩ := by
  rw [requestLineRun] at ran
  rw [parseRequestLine, ran]

theorem parse_stop {e : RequestLineStop} (ran : requestLineRun ⟨r, state, b.pos⟩ b = .error e) :
    (parseRequestLine r state b).code ≠ .again := by
  rw [requestLineRun] at ran
  rw [parseRequestLine, ran]
  cases e with
  | done r p =>
    rcases requestLineDone_code (r := r) p with code | code <;>
    · dsimp only
      rw [code]
      exact nofun
  | invalid code r => exact (run_invalid ran).2

theorem parse_outcome :
    (parseRequestLine r state b).outcome = outcomeOf (requestLineRun ⟨r, state, b.pos⟩ b) := by
  cases ran : requestLineRun ⟨r, state, b.pos⟩ b with
  | ok c =>
    rw [parse_again ran]
    rfl
  | error e =>
    rw [requestLineRun] at ran
    rw [parseRequestLine, ran]
    cases e with
    | done r p => rfl
    | invalid code r =>
      rw [RequestLineCall.outcome]
      dsimp only
      rw [if_neg (run_invalid ran).1]
      rfl

theorem finalOutcome_single : finalOutcome [call] = call.outcome := rfl

theorem finalOutcome_again (again : call.code = .again) :
    finalOutcome (call :: calls) = finalOutcome calls := by
  have outcome : call.outcome = (.again, none) := by
    rw [RequestLineCall.outcome, again]
    rfl
  rw [finalOutcome, finalOutcome, List.getLast?_cons, Option.map_some, Option.getD_some]
  cases calls.getLast? with
  | none => exact outcome
  | some last => rfl

theorem store_append (m : Nat → UInt8) (last : Nat) (xs ys : List UInt8) :
    store m last (xs ++ ys) = store (store m last xs) (last + xs.length) ys := by
  funext i
  simp only [store]
  by_cases before : last ≤ i
  · by_cases first : i - last < xs.length
    · rw [if_pos before, if_neg (by omega), if_pos before, List.getElem?_append_left first]
    · rw [if_pos before, if_pos (by omega), if_pos before,
        List.getElem?_append_right (by omega), List.getElem?_eq_none (l := xs) (by omega)]
      rw [Option.getD_none, show i - (last + xs.length) = i - last - xs.length by omega]
  · rw [if_neg before, if_neg (by omega), if_neg before]

theorem cells_store (m : Nat → UInt8) (last : Nat) (xs ys : List UInt8) :
    cells (store m last (xs ++ ys)) last (last + xs.length) = xs := by
  rw [store_append, cells_store_front, cells_store_piece]

theorem store_inside (m : Nat → UInt8) (last : Nat) (bs : List UInt8) {i : Nat} {b : UInt8}
    (at_i : bs[i]? = some b) : store m last bs (last + i) = b := by
  rw [store, if_pos (Nat.le_add_right last i), Nat.add_sub_cancel_left, at_i, Option.getD_some]

theorem Ready.store (ready : c.Ready mem) (bs : List UInt8) : c.Ready (store mem c.p bs) := by
  intro method
  obtain ⟨start, first⟩ := ready method
  refine ⟨start, ?_⟩
  rw [Resumable.store, if_neg (by omega), first]

/-- A call on a piece that does not end within the method, whatever is stored behind it. -/
theorem piece_run (ready : c.Ready mem) (piece rest : List UInt8)
    (clear : ∀ c', piece.foldlM lineByte c = .ok c' → ¬ c'.Midst) :
    run (requestLineRound (store mem c.p (piece ++ rest))) RequestLineCursor.p
      (c.p + piece.length) c = piece.foldlM lineByte c := by
  have read : cells (store mem c.p (piece ++ rest)) c.p (c.p + piece.length) = piece :=
    cells_store mem c.p piece rest
  rw [run_eq_lineByte (Ready.store ready _), read]
  rw [read]
  exact clear

/-- A call on a piece that ends within the method comes to the method and compares it. -/
theorem midst_run (ready : c.Ready mem) (clear : ¬ c.Midst) {piece : List UInt8}
    (rest : List UInt8) (folded : piece.foldlM lineByte c = .ok c') (midst : c'.Midst) :
    ∃ c₁, c₁.state = .method ∧ c₁.Ready (store mem c.p (piece ++ rest)) ∧
      c₁.r.requestStart = c'.r.requestStart ∧
      (∀ last, c₁.p ≤ last →
        run (requestLineRound (store mem c.p (piece ++ rest))) RequestLineCursor.p last c =
          run (requestLineRound (store mem c.p (piece ++ rest))) RequestLineCursor.p last c₁) ∧
      store mem c.p (piece ++ rest) (c₁.r.requestStart + 1) = byte 'E' ∧
      (c'.p = c₁.r.requestStart + 2 ∨ c'.p = c₁.r.requestStart + 3 ∧
        store mem c.p (piece ++ rest) (c₁.r.requestStart + 2) = byte 'T') := by
  obtain ⟨front, back, c₁, rfl, passed, method, start, bytes, rfl⟩ := midst_inv clear folded midst
  have pos : c₁.p = c.p + front.length := lineByte_moves.foldlM_pos passed
  have still : ∀ c', front.foldlM lineByte c = .ok c' → ¬ c'.Midst := by
    intro c' same midst
    cases passed.symm.trans same
    exact midst.inside start
  have reached := piece_run ready front (back ++ rest) still
  rw [← List.append_assoc, passed, ← pos] at reached
  have at_back {i : Nat} {b : UInt8} (inside : back[i]? = some b) :
      store mem c.p (front ++ back ++ rest) (c₁.p + i) = b := by
    rw [pos, Nat.add_assoc]
    apply store_inside
    rw [List.append_assoc, List.getElem?_append_right (by omega), Nat.add_sub_cancel_left,
      List.getElem?_append_left (List.getElem?_eq_some_iff.mp inside).1, inside]
  refine ⟨c₁, method, ?_, rfl, fun last le => ?_, ?_, ?_⟩
  · exact run_preserves round_forward (fun _ _ moved => round_ready moved) (Ready.store ready _)
      reached
  · rw [run_split round_forward le, reached]
    rfl
  · rw [← start]
    rcases bytes with rfl | rfl
    · exact at_back (i := 0) rfl
    · exact at_back (i := 0) rfl
  · rcases bytes with rfl | rfl
    · exact .inl (by simp [start])
    · refine .inr ⟨by simp [start], ?_⟩
      have second := at_back (i := 1) rfl
      rw [start] at second
      exact second

/-- How far the method was read. -/
theorem midst_end {piece : List UInt8} (ready : c.Ready mem) (clear : ¬ c.Midst)
    (folded : piece.foldlM lineByte c = .ok c') (midst : c'.Midst) :
    c'.p = c'.r.requestStart + 2 ∨ c'.p = c'.r.requestStart + 3 := by
  obtain ⟨c₁, -, -, start, -, -, ends⟩ := midst_run ready clear [] folded midst
  rw [start] at ends
  exact ends.imp_right And.left

/-- Calls without further input. -/
theorem feed_nothing {pieces : List (List UInt8)} (nothing : pieces.flatten = []) {p last : Nat}
    (past : last ≤ p) :
    finalOutcome (feedRequestLine r state ⟨mem, p, last⟩ pieces) = (.again, none) ∧
      ∀ call ∈ feedRequestLine r state ⟨mem, p, last⟩ pieces, call.b.pos = p ∧ call.b.last = last := by
  induction pieces with
  | nil => exact ⟨rfl, List.forall_mem_nil _⟩
  | cons piece rest ih =>
    rw [List.flatten_cons, List.append_eq_nil_iff] at nothing
    obtain ⟨rfl, nothing⟩ := nothing
    have same : HeaderIn.received ⟨mem, p, last⟩ [] = ⟨mem, p, last⟩ := by
      have holds : Holds mem last [] := fun i inside => absurd inside (Nat.not_lt_zero i)
      rw [HeaderIn.received, store_same holds]
      rfl
    have call : parseRequestLine r state ⟨mem, p, last⟩ = ⟨.again, r, state, ⟨mem, p, last⟩⟩ :=
      parse_again (c := ⟨r, state, p⟩) (run_over past)
    rw [feedRequestLine, same, call]
    dsimp only
    rw [if_pos rfl, finalOutcome_again rfl]
    obtain ⟨final, all⟩ := ih nothing
    exact ⟨final, List.forall_mem_cons.mpr ⟨⟨rfl, rfl⟩, all⟩⟩

def wholeRun (c : RequestLineCursor) (mem : Nat → UInt8) (whole : List UInt8) :
    Except RequestLineStop RequestLineCursor :=
  run (requestLineRound (store mem c.p whole)) RequestLineCursor.p (c.p + whole.length) c

theorem whole_outcome (whole : List UInt8) :
    (parseRequestLine c.r c.state (HeaderIn.received ⟨mem, c.p, c.p⟩ whole)).outcome =
      outcomeOf (wholeRun c mem whole) := parse_outcome

/-- The loop past a first piece and what follows. -/
theorem wholeRun_append (piece rest : List UInt8) :
    wholeRun c mem (piece ++ rest) =
      run (requestLineRound (store mem c.p (piece ++ rest))) RequestLineCursor.p
          (c.p + piece.length) c >>=
        run (requestLineRound (store mem c.p (piece ++ rest))) RequestLineCursor.p
          (c.p + (piece ++ rest).length) := by
  refine run_split round_forward ?_
  rw [List.length_append]
  omega

theorem wholeRun_next {piece : List UInt8} (rest : List UInt8) (ready : c.Ready mem)
    (folded : piece.foldlM lineByte c = .ok c') (clear : ¬ c'.Midst) :
    wholeRun c mem (piece ++ rest) = wholeRun c' (store mem c.p piece) rest := by
  have pos : c'.p = c.p + piece.length := lineByte_moves.foldlM_pos folded
  have first := piece_run ready piece rest fun c₁ same => by
    cases folded.symm.trans same
    exact clear
  rw [wholeRun_append, first, folded, wholeRun, pos, ← store_append, List.length_append,
    Nat.add_assoc]
  rfl

theorem wholeRun_error {piece : List UInt8} (rest : List UInt8) (ready : c.Ready mem)
    {e : RequestLineStop} (folded : piece.foldlM lineByte c = .error e) :
    wholeRun c mem (piece ++ rest) = .error e := by
  have first := piece_run ready piece rest fun c₁ same => by cases folded.symm.trans same
  rw [wholeRun_append, first, folded]
  rfl

def methodAt (mem : Nat → UInt8) (start : Nat) : Prop :=
  mem (start + 1) = byte 'E' ∧ mem (start + 2) = byte 'T' ∧ mem (start + 3) = byte ' '

instance : Decidable (methodAt mem start) := inferInstanceAs (Decidable (_ ∧ _ ∧ _))

/-- A call on a piece that ends within the method decides by bytes that are not there. -/
theorem midst_stops (ready : c.Ready mem) (clear : ¬ c.Midst) {piece : List UInt8}
    (folded : piece.foldlM lineByte c = .ok c') (midst : c'.Midst) :
    ∃ c₁ : RequestLineCursor, c₁.r.requestStart = c'.r.requestStart ∧ wholeRun c mem piece =
      if methodAt (store mem c.p piece) c'.r.requestStart then .ok c₁.atSpace
      else .error (.invalid .invalidMethod c₁.r) := by
  obtain ⟨c₁, method, ready₁, start, reached, -, ends⟩ := midst_run ready clear [] folded midst
  rw [List.append_nil] at ready₁ reached
  have pos : c'.p = c.p + piece.length := lineByte_moves.foldlM_pos folded
  obtain ⟨at_first, -⟩ := ready₁ method
  refine ⟨c₁, start, ?_⟩
  rw [wholeRun, ← pos, reached _ (by omega), run_round round_forward (by omega),
    method_round method ready₁, ← start]
  by_cases same : methodAt (store mem c.p piece) c₁.r.requestStart
  · rw [if_pos (by exact same), if_pos same]
    have past : c'.p ≤ c₁.atSpace.p := by
      change c'.p ≤ c₁.r.requestStart + 3
      omega
    exact run_over past
  · rw [if_neg (by exact same), if_neg same]
    rfl

/-- A call that is not to be repeated. -/
theorem feed_stopped {piece : List UInt8} {e : RequestLineStop}
    (stopped : wholeRun c mem piece = .error e) (rest : List (List UInt8)) :
    feedRequestLine c.r c.state ⟨mem, c.p, c.p⟩ (piece :: rest) =
        [parseRequestLine c.r c.state (HeaderIn.received ⟨mem, c.p, c.p⟩ piece)] ∧
      finalOutcome (feedRequestLine c.r c.state ⟨mem, c.p, c.p⟩ (piece :: rest)) =
        outcomeOf (.error e) ∧
      (parseRequestLine c.r c.state (HeaderIn.received ⟨mem, c.p, c.p⟩ piece)).code ≠ .again := by
  have code : (parseRequestLine c.r c.state (HeaderIn.received ⟨mem, c.p, c.p⟩ piece)).code ≠
      .again := parse_stop stopped
  have single : feedRequestLine c.r c.state ⟨mem, c.p, c.p⟩ (piece :: rest) =
      [parseRequestLine c.r c.state (HeaderIn.received ⟨mem, c.p, c.p⟩ piece)] := by
    rw [feedRequestLine, if_neg code]
  refine ⟨single, ?_, code⟩
  rw [single, ← stopped, ← whole_outcome]
  rfl

/-- A call that wants more. -/
theorem feed_again {piece : List UInt8} {c₁ : RequestLineCursor}
    (ran : wholeRun c mem piece = .ok c₁) (rest : List (List UInt8)) :
    feedRequestLine c.r c.state ⟨mem, c.p, c.p⟩ (piece :: rest) =
      ⟨.again, c₁.r, c₁.state, ⟨store mem c.p piece, c₁.p, c.p + piece.length⟩⟩ ::
        feedRequestLine c₁.r c₁.state ⟨store mem c.p piece, c₁.p, c.p + piece.length⟩ rest := by
  have call : parseRequestLine c.r c.state (HeaderIn.received ⟨mem, c.p, c.p⟩ piece) =
      ⟨.again, c₁.r, c₁.state, ⟨store mem c.p piece, c₁.p, c.p + piece.length⟩⟩ := parse_again ran
  rw [feedRequestLine, call]
  dsimp only
  rw [if_pos rfl]

theorem next_run {piece : List UInt8} (ready : c.Ready mem)
    (folded : piece.foldlM lineByte c = .ok c') (clear : ¬ c'.Midst) :
    wholeRun c mem piece = .ok c' := by
  have next := wholeRun_next [] ready folded clear
  rw [List.append_nil] at next
  rw [next]
  exact run_over (Nat.le_refl _)

theorem next_ready {piece : List UInt8} (ready : c.Ready mem)
    (folded : piece.foldlM lineByte c = .ok c') (clear : ¬ c'.Midst) :
    c'.Ready (store mem c.p piece) :=
  run_preserves round_forward (fun _ _ moved => round_ready moved) (Ready.store ready piece)
    (next_run ready folded clear)

/-- A piece that leads to another cursor at the end of the input. -/
theorem uncut_next {piece : List UInt8} (rest : List (List UInt8)) (ready : c.Ready mem)
    (folded : piece.foldlM lineByte c = .ok c') (clear : ¬ c'.Midst) :
    Uncut c mem (piece :: rest) ↔ Uncut c' (store mem c.p piece) rest := by
  have pos : c'.p = c.p + piece.length := lineByte_moves.foldlM_pos folded
  rw [Uncut, Uncut, whole_outcome, whole_outcome, List.flatten_cons,
    wholeRun_next rest.flatten ready folded clear, feed_again (next_run ready folded clear),
    finalOutcome_again rfl, ← pos, List.forall_mem_cons]
  exact and_congr_right fun _ => and_iff_right fun _ => rfl

/-- Without a cut that splits the method the pieces are parsed as their whole is. -/
theorem feed_unsplit {pieces : List (List UInt8)} (ready : c.Ready mem) (clear : ¬ c.Midst)
    (unsplit : ∀ n, ¬ c.Splits (pieces.take n).flatten (pieces.drop n).flatten) :
    Uncut c mem pieces := by
  induction pieces generalizing c mem with
  | nil =>
    refine ⟨?_, List.forall_mem_nil _⟩
    rw [whole_outcome, wholeRun, run_over (by exact Nat.le_refl _)]
    rfl
  | cons piece rest ih =>
    have first := unsplit 1
    rw [List.take_succ_cons, List.take_zero, List.flatten_singleton, List.drop_succ_cons,
      List.drop_zero] at first
    cases folded : piece.foldlM lineByte c with
    | error e =>
      have stopped := wholeRun_error [] ready folded
      rw [List.append_nil] at stopped
      obtain ⟨single, final, code⟩ := feed_stopped stopped rest
      rw [Uncut, whole_outcome, List.flatten_cons, final, wholeRun_error rest.flatten ready folded,
        single]
      exact ⟨rfl, List.forall_mem_singleton.mpr fun again => (code again).elim⟩
    | ok c' =>
      by_cases midst : c'.Midst
      · have pos : c'.p = c.p + piece.length := lineByte_moves.foldlM_pos folded
        have ends := midst_end ready clear folded midst
        have nothing : rest.flatten = [] := by
          by_contra more
          exact first ⟨c', folded, midst.state, ends.imp_right fun third => ⟨third, more⟩⟩
        have third : c'.p = c'.r.requestStart + 3 :=
          ends.resolve_left fun second => first ⟨c', folded, midst.state, .inl second⟩
        obtain ⟨c₁, start, ran⟩ := midst_stops ready clear folded midst
        rw [Uncut, whole_outcome, List.flatten_cons, nothing, List.append_nil]
        split at ran
        · have past : c.p + piece.length ≤ c₁.atSpace.p := by
            change _ ≤ c₁.r.requestStart + 3
            omega
          have idle := @feed_nothing (store mem c.p piece) c₁.atSpace.r c₁.atSpace.state rest nothing
            _ _ past
          obtain ⟨final, all⟩ := idle
          rw [feed_again ran, finalOutcome_again rfl, final, ran]
          refine ⟨rfl, List.forall_mem_cons.mpr ⟨fun _ => ?_, fun call member _ => ?_⟩⟩
          · change c₁.r.requestStart + 3 = c.p + piece.length
            omega
          · obtain ⟨at_end, last⟩ := all call member
            rw [at_end, last]
            change c₁.r.requestStart + 3 = c.p + piece.length
            omega
        · obtain ⟨single, final, code⟩ := feed_stopped ran rest
          rw [final, ran, single]
          exact ⟨rfl, List.forall_mem_singleton.mpr fun again => (code again).elim⟩
      · have ready' : c'.Ready (store mem c.p piece) := next_ready ready folded midst
        refine (uncut_next rest ready folded midst).mpr (ih ready' midst fun n split => ?_)
        obtain ⟨c₂, folded₂, ends⟩ := split
        refine unsplit (n + 1) ⟨c₂, ?_, ends⟩
        rw [List.take_succ_cons, List.flatten_cons]
        exact foldlM_append_ok.mpr ⟨c', folded, folded₂⟩

structure RequestLineState.Past (state : RequestLineState) : Prop where
  start : state ≠ .start
  method : state ≠ .method

theorem past_round (past : c.state.Past) (moved : requestLineRound mem c = .ok c') :
    c'.state.Past := by
  obtain ⟨r, state, p⟩ := c
  cases state with
  | start => exact (past.start rfl).elim
  | method => exact (past.method rfl).elim
  | _ =>
    simp only [requestLineRound, RequestLine.expect] at moved
    repeat' split at moved
    all_goals cases moved
    all_goals exact ⟨nofun, nofun⟩

theorem past_run (past : c.state.Past) :
    (outcomeOf (requestLineRun c b)).1 ≠ .invalidMethod ∧
      ∀ c', requestLineRun c b = .ok c' → c'.state.Past := by
  have kept {c c' : RequestLineCursor} (past : c.state.Past) (_ : c.p < b.last)
      (moved : requestLineRound b.mem c = .ok c') : c'.state.Past := past_round past moved
  cases ran : requestLineRun c b with
  | ok c₁ =>
    refine ⟨nofun, fun c' same => ?_⟩
    cases same
    exact run_preserves round_forward kept past ran
  | error e =>
    refine ⟨?_, nofun⟩
    obtain ⟨c', past', -, round⟩ := run_stops round_forward kept past ran
    cases e with
    | done r p =>
      rcases requestLineDone_code (r := r) p with code | code <;>
      · rw [outcomeOf, code]
        exact nofun
    | invalid code r =>
      intro same
      rcases (round_invalid round).2.2 same with start | method
      · exact past'.start start
      · exact past'.method method

theorem past_feed {pieces : List (List UInt8)} (past : state.Past) :
    (finalOutcome (feedRequestLine r state b pieces)).1 ≠ .invalidMethod := by
  induction pieces generalizing r state b with
  | nil => exact nofun
  | cons piece rest ih =>
    obtain ⟨code, later⟩ := past_run (c := ⟨r, state, b.pos⟩) (b := b.received piece) past
    cases ran : requestLineRun ⟨r, state, b.pos⟩ (b.received piece) with
    | ok c' =>
      rw [feedRequestLine, parse_again ran, if_pos rfl, finalOutcome_again rfl]
      exact ih (later c' ran)
    | error e =>
      rw [feedRequestLine, if_neg (parse_stop ran)]
      rw [finalOutcome_single, parse_outcome]
      exact code

/-- Nothing but the end of the method can be read at its third byte. -/
theorem third_last {xs : List UInt8} (state : c.state = .method)
    (third : c.p = c.r.requestStart + 3) (folded : xs.foldlM lineByte c = .ok c')
    (state' : c'.state = .method) : xs = [] ∧ c = c' := by
  cases xs with
  | nil =>
    cases folded
    exact ⟨rfl, rfl⟩
  | cons b xs =>
    obtain ⟨c₁, moved, rest⟩ := foldlM_cons_ok.mp folded
    rw [third_byte state third] at moved
    split at moved <;> cases moved
    have past : c'.state.Past := by
      refine foldlM_preserves (I := fun c => c.state.Past) (fun past moved => ?_)
        (c := c.pastMethod) ⟨nofun, nofun⟩ rest
      rw [lineByte, if_pos past.method] at moved
      exact past_round past moved
    exact (past.method state').elim

def beyond (mem : Nat → UInt8) (p : Nat) (b : UInt8) : Nat → UInt8 :=
  fun i => if i < p then mem i else if i = p then b else byte ' '

theorem beyond_ready (ready : c.Ready mem) {p : Nat} (le : c.p ≤ p) (b : UInt8) :
    c.Ready (beyond mem p b) := by
  intro method
  obtain ⟨start, first⟩ := ready method
  refine ⟨start, ?_⟩
  rw [beyond, if_pos (by omega), first]

theorem store_beyond {i : Nat} (m : Nat → UInt8) {last : Nat} (piece : List UInt8)
    (past : last + piece.length ≤ i) : store m last piece i = m i := by
  rw [store, if_pos (by omega), List.getElem?_eq_none (by omega), Option.getD_none]

/-- A cut after "GE": with "T " behind it the call goes beyond the input. -/
theorem second_splits {piece : List UInt8} (rest : List (List UInt8)) (ready : c.Ready mem)
    (clear : ¬ c.Midst) (folded : piece.foldlM lineByte c = .ok c') (midst : c'.Midst)
    (second : c'.p = c'.r.requestStart + 2) :
    ¬ Uncut c (beyond mem c'.p (byte 'T')) (piece :: rest) := by
  have pos : c'.p = c.p + piece.length := lineByte_moves.foldlM_pos folded
  have ready' := beyond_ready ready (p := c'.p) (by omega) (byte 'T')
  obtain ⟨c₁, start, ran⟩ := midst_stops ready' clear folded midst
  obtain ⟨c₂, -, -, start₂, -, first, -⟩ := midst_run ready' clear [] folded midst
  have method : methodAt (store (beyond mem c'.p (byte 'T')) c.p piece) c'.r.requestStart := by
    rw [List.append_nil, start₂] at first
    refine ⟨first, ?_, ?_⟩
    · rw [store_beyond _ _ (by omega), beyond, if_neg (by omega), if_pos (by omega)]
    · rw [store_beyond _ _ (by omega), beyond, if_neg (by omega), if_neg (by omega)]
  rw [if_pos method] at ran
  rintro ⟨-, all⟩
  rw [feed_again ran] at all
  have past : c₁.r.requestStart + 3 = c.p + piece.length := all _ List.mem_cons_self rfl
  omega

/-- With more input after a piece that ends within the method, the method is compared in the input. -/
theorem midst_whole (ready : c.Ready mem) (clear : ¬ c.Midst) {piece : List UInt8} {y : UInt8}
    {ys : List UInt8} (folded : piece.foldlM lineByte c = .ok c') (midst : c'.Midst)
    (third : c'.p = c'.r.requestStart + 3) :
    (outcomeOf (wholeRun c mem (piece ++ y :: ys))).1 = .invalidMethod ↔ y ≠ byte ' ' := by
  have pos : c'.p = c.p + piece.length := lineByte_moves.foldlM_pos folded
  obtain ⟨c₁, state, ready₁, start, reached, first, ends⟩ :=
    midst_run ready clear (y :: ys) folded midst
  obtain ⟨at_first, -⟩ := ready₁ state
  have second := (ends.resolve_left (by omega)).2
  have last : store mem c.p (piece ++ y :: ys) (c₁.r.requestStart + 3) = y := by
    rw [start, ← third, pos]
    exact store_inside _ _ _ (by simp)
  have length : (piece ++ y :: ys).length = piece.length + (ys.length + 1) := by simp
  rw [wholeRun, reached _ (by omega), run_round round_forward (by omega),
    method_round state ready₁, last]
  by_cases space : y = byte ' '
  · rw [if_pos ⟨first, second, space⟩]
    have past := past_run (c := c₁.atSpace) (b := ⟨store mem c.p (piece ++ y :: ys), 0,
      c.p + (piece ++ y :: ys).length⟩) ⟨nofun, nofun⟩
    exact iff_of_false past.1 (not_not_intro space)
  · rw [if_neg fun all => space all.2.2]
    exact iff_of_true rfl space

/-- A cut after "GET" and before more input: the byte behind the cut is not the one that comes. -/
theorem third_splits {piece : List UInt8} {rest : List (List UInt8)} (ready : c.Ready mem)
    (clear : ¬ c.Midst) (folded : piece.foldlM lineByte c = .ok c') (midst : c'.Midst)
    (third : c'.p = c'.r.requestStart + 3) {y : UInt8} {ys : List UInt8}
    (more : rest.flatten = y :: ys) :
    ¬ Uncut c (beyond mem c'.p (if y = byte ' ' then 0 else byte ' ')) (piece :: rest) := by
  generalize behind : (if y = byte ' ' then (0 : UInt8) else byte ' ') = z
  have pos : c'.p = c.p + piece.length := lineByte_moves.foldlM_pos folded
  have ready' := beyond_ready ready (p := c'.p) (by omega) z
  have whole : (outcomeOf (wholeRun c (beyond mem c'.p z) (piece ++ y :: ys))).1 = .invalidMethod ↔
      y ≠ byte ' ' := midst_whole ready' clear folded midst third
  obtain ⟨c₁, -, ran⟩ := midst_stops ready' clear folded midst
  have last : store (beyond mem c'.p z) c.p piece (c'.r.requestStart + 3) = z := by
    rw [store_beyond _ _ (by omega), beyond, if_neg (by omega), if_pos third.symm]
  rw [Uncut, whole_outcome, List.flatten_cons, more]
  rintro ⟨same, -⟩
  rw [← same] at whole
  by_cases space : y = byte ' '
  · rw [if_pos space] at behind
    have refused : ¬ methodAt (store (beyond mem c'.p z) c.p piece) c'.r.requestStart := by
      rintro ⟨-, -, at_last⟩
      rw [last, ← behind] at at_last
      exact absurd at_last (by decide)
    rw [if_neg refused] at ran
    rw [(feed_stopped ran rest).2.1] at whole
    exact whole.mp rfl space
  · rw [if_neg space] at behind
    obtain ⟨c₂, -, -, start, -, first, ends⟩ := midst_run ready' clear [] folded midst
    rw [List.append_nil] at first ends
    have second := (ends.resolve_left (by omega)).2
    rw [start] at first second
    have accepted : methodAt (store (beyond mem c'.p z) c.p piece) c'.r.requestStart :=
      ⟨first, second, last.trans behind.symm⟩
    rw [if_pos accepted] at ran
    rw [feed_again ran, finalOutcome_again rfl] at whole
    have past : c₁.atSpace.state.Past := ⟨nofun, nofun⟩
    exact past_feed past (whole.mpr space)

/-- At a cut that splits the method some bytes behind it make a difference. -/
theorem feed_split {pieces : List (List UInt8)} {n : Nat} (ready : c.Ready mem)
    (clear : ¬ c.Midst) (split : c.Splits (pieces.take n).flatten (pieces.drop n).flatten) :
    ∃ mem', (∀ i < c.p, mem' i = mem i) ∧ ¬ Uncut c mem' pieces := by
  induction pieces generalizing c mem n with
  | nil =>
    obtain ⟨c', folded, state, ends⟩ := split
    rw [List.take_nil] at folded
    cases folded
    exact (clear ⟨state, by omega⟩).elim
  | cons piece rest ih =>
    cases n with
    | zero =>
      obtain ⟨c', folded, state, ends⟩ := split
      cases folded
      exact (clear ⟨state, by omega⟩).elim
    | succ n =>
      obtain ⟨c', folded, state, ends⟩ := split
      rw [List.take_succ_cons, List.flatten_cons] at folded
      obtain ⟨c₁, folded₁, later⟩ := foldlM_append_ok.mp folded
      have pos : c₁.p = c.p + piece.length := lineByte_moves.foldlM_pos folded₁
      have below {p : Nat} {z : UInt8} (le : c.p ≤ p) : ∀ i < c.p, beyond mem p z i = mem i :=
        fun i lt => if_pos (by omega)
      by_cases midst : c₁.Midst
      · rcases midst_end ready clear folded₁ midst with second | third
        · exact ⟨_, below (by omega), second_splits rest ready clear folded₁ midst second⟩
        · obtain ⟨nothing, rfl⟩ := third_last midst.state third later state
          have more := (ends.resolve_left (by omega)).2
          rw [List.drop_succ_cons] at more
          have flat : rest.flatten = (rest.drop n).flatten := by
            conv => lhs; rw [← List.take_append_drop n rest, List.flatten_append, nothing]
            rfl
          obtain ⟨y, ys, cons⟩ := List.exists_cons_of_ne_nil (flat ▸ more)
          exact ⟨_, below (by omega), third_splits ready clear folded₁ midst third cons⟩
      · have ready₁ := next_ready ready folded₁ midst
        obtain ⟨mem', same, broken⟩ := ih ready₁ midst ⟨c', later, state, ends⟩
        have stored : store mem' c.p piece = mem' := by
          refine store_same fun i inside => ?_
          rw [same _ (by omega)]
          exact store_inside _ _ _ (List.getElem?_eq_getElem inside)
        have kept : ∀ i < c.p, mem' i = mem i := fun i lt => by
          rw [same i (by omega), store, if_neg (by omega)]
        refine ⟨mem', kept, fun uncut => broken ?_⟩
        have ready' : c.Ready mem' := fun method => by
          obtain ⟨start, first⟩ := ready method
          exact ⟨start, by rw [kept _ (by omega), first]⟩
        rw [uncut_next rest ready' folded₁ midst, stored] at uncut
        exact uncut

end Calls

/-- Input that ends after "GE" or, with more to come, after "GET", where only line breaks come
before the 'G'. -/
def SplitsMethod (before after : List UInt8) : Prop :=
  ∃ breaks : List UInt8, (∀ b ∈ breaks, b = cr ∨ b = lf) ∧
    (before = breaks ++ [byte 'G', byte 'E'] ∨
      before = breaks ++ [byte 'G', byte 'E', byte 'T'] ∧ after ≠ [])

section Cuts

variable {c c' : RequestLineCursor} {xs : List UInt8}

/-- Within the method the cursor is not behind the 'G' any more. -/
theorem method_step {ch : UInt8} (method : c.state = .method) (moved : lineByte c ch = .ok c') :
    c'.state = .method ∧ c'.p ≠ c'.r.requestStart + 1 ∨ c'.state = .spacesBeforeUri := by
  rw [lineByte, if_neg (not_ne_iff.mpr method)] at moved
  split at moved
  next first =>
    split at moved <;> cases moved
    refine .inl ⟨rfl, ?_⟩
    change c.p + 1 ≠ c.r.requestStart + 1
    omega
  · split at moved
    next second =>
      split at moved <;> cases moved
      refine .inl ⟨rfl, ?_⟩
      change c.p + 1 ≠ c.r.requestStart + 1
      omega
    · split at moved <;> cases moved
      exact .inr rfl

/-- The first state is kept by line breaks only. -/
theorem start_step {ch : UInt8} (moved : lineByte c ch = .ok c') (state : c'.state = .start) :
    c.state = .start ∧ (ch = cr ∨ ch = lf) := by
  by_cases method : c.state = .method
  · rcases method_step method moved with ⟨state', -⟩ | state' <;>
    · rw [state] at state'
      cases state'
  · rw [lineByte, if_pos method] at moved
    obtain ⟨r, old, p⟩ := c
    cases old with
    | method => exact (method rfl).elim
    | start =>
      simp only [requestLineRound] at moved
      split at moved
      · exact ⟨rfl, ‹_›⟩
      · split at moved <;> cases moved
        cases state
    | _ =>
      simp only [requestLineRound, RequestLine.expect] at moved
      repeat' split at moved
      all_goals cases moved
      all_goals cases state

theorem start_breaks (folded : xs.foldlM lineByte c = .ok c') (state : c'.state = .start) :
    ∀ b ∈ xs, b = cr ∨ b = lf := by
  induction xs using List.reverseRecOn generalizing c' with
  | nil => exact nofun
  | append_singleton xs b ih =>
    obtain ⟨c₁, before, moved⟩ := foldlM_concat_ok.mp folded
    obtain ⟨state₁, line_break⟩ := start_step moved state
    exact List.forall_mem_append.mpr ⟨ih before state₁, List.forall_mem_singleton.mpr line_break⟩

theorem breaks_start {r : RequestLine} {p : Nat} (breaks : ∀ b ∈ xs, b = cr ∨ b = lf) :
    ∃ start, xs.foldlM lineByte ⟨r, .start, p⟩ =
      .ok ⟨{ r with requestStart := start }, .start, p + xs.length⟩ := by
  induction xs generalizing r p with
  | nil => exact ⟨r.requestStart, rfl⟩
  | cons b bs ih =>
    obtain ⟨line_break, rest⟩ := List.forall_mem_cons.mp breaks
    obtain ⟨start, folded⟩ := ih (r := { r with requestStart := p }) (p := p + 1) rest
    refine ⟨start, foldlM_cons_ok.mpr ⟨⟨{ r with requestStart := p }, .start, p + 1⟩, ?_, ?_⟩⟩
    · exact if_pos line_break
    · rw [folded, List.length_cons, Nat.add_assoc, Nat.add_comm 1]

/-- The 'G' after the line breaks. -/
theorem breaks_method {r : RequestLine} {p : Nat} (breaks : ∀ b ∈ xs, b = cr ∨ b = lf) :
    (xs ++ [byte 'G']).foldlM lineByte ⟨r, .start, p⟩ =
      .ok ⟨{ r with requestStart := p + xs.length }, .method, p + xs.length + 1⟩ := by
  obtain ⟨start, folded⟩ := breaks_start breaks (r := r) (p := p)
  exact foldlM_concat_ok.mpr ⟨_, folded, rfl⟩

theorem method_breaks (folded : xs.foldlM lineByte c = .ok c') (other : c.state ≠ .method)
    (state : c'.state = .method) (start : c'.p = c'.r.requestStart + 1) :
    ∃ breaks, xs = breaks ++ [byte 'G'] ∧ ∀ b ∈ breaks, b = cr ∨ b = lf := by
  rcases List.eq_nil_or_concat xs with rfl | ⟨front, b, rfl⟩
  · cases folded
    exact (other state).elim
  · rw [List.concat_eq_append] at folded
    obtain ⟨c₁, before, moved⟩ := foldlM_concat_ok.mp folded
    by_cases method : c₁.state = .method
    · rcases method_step method moved with ⟨-, midst⟩ | state'
      · exact (midst start).elim
      · rw [state] at state'
        cases state'
    · rw [lineByte, if_pos method] at moved
      obtain ⟨from_start, first, -⟩ := (round_moves method moved).2 state
      exact ⟨front, by rw [List.concat_eq_append, first], start_breaks before from_start⟩

theorem splits_iff {p : Nat} {before after : List UInt8} :
    (RequestLineCursor.fresh p).Splits before after ↔ SplitsMethod before after := by
  have other : (RequestLineCursor.fresh p).state ≠ .method := nofun
  constructor
  · rintro ⟨c', folded, state, ends⟩
    obtain ⟨front, back, c₁, rfl, passed, method, start, bytes, rfl⟩ :=
      midst_inv (fun midst => other midst.state) folded ⟨state, by omega⟩
    obtain ⟨breaks, rfl, all⟩ := method_breaks passed other method start
    refine ⟨breaks, all, ?_⟩
    rcases bytes with rfl | rfl
    · exact .inl (by simp)
    · refine .inr ⟨by simp, ?_⟩
      simp only [start, List.length_cons, List.length_nil] at ends
      exact (ends.resolve_left (by omega)).2
  · rintro ⟨breaks, all, ends⟩
    have passed := breaks_method all (r := .fresh) (p := p)
    rcases ends with rfl | ⟨rfl, more⟩
    · rw [show breaks ++ [byte 'G', byte 'E'] = breaks ++ [byte 'G'] ++ [byte 'E'] by simp]
      refine ⟨_, foldlM_append_ok.mpr ⟨_, passed, (one_byte rfl rfl _).trans (if_pos rfl)⟩, rfl, ?_⟩
      exact .inl rfl
    · rw [show breaks ++ [byte 'G', byte 'E', byte 'T'] =
        breaks ++ [byte 'G'] ++ [byte 'E', byte 'T'] by simp]
      refine ⟨_, foldlM_append_ok.mpr ⟨_, passed, (two_bytes rfl rfl _ _ _).trans (if_pos ⟨rfl, rfl⟩)⟩,
        rfl, ?_⟩
      exact .inr ⟨rfl, more⟩

end Cuts

/-- Pieces of a request line are parsed as their whole, and every call that wants more uses up
its input, whatever stands behind it, exactly when no piece ends after "GE" or within the input
after "GET". -/
theorem request_line_ignores_cuts (start : Nat) (pieces : List (List UInt8)) :
    (∀ mem, Uncut (.fresh start) mem pieces) ↔
      ∀ n, ¬ SplitsMethod (pieces.take n).flatten (pieces.drop n).flatten := by
  constructor
  · intro uncut n splits
    have ready : (RequestLineCursor.fresh start).Ready fun _ => 0 := nofun
    obtain ⟨mem, -, broken⟩ := feed_split ready
      (fun midst => RequestLineState.noConfusion midst.state) (splits_iff.mpr splits)
    exact broken (uncut mem)
  · intro unsplit mem
    exact feed_unsplit nofun (fun midst => RequestLineState.noConfusion midst.state) fun n splits =>
      unsplit n (splits_iff.mp splits)

/-- With zeros behind "GE" the first call refuses a request line that is accepted as a whole. -/
theorem request_line_cut_in_method :
    ¬ Uncut (.fresh 0) (fun _ => 0) [ascii "GE", ascii "T / HTTP/1.1\r\n"] := by
  rintro ⟨same, -⟩
  have refused : (finalOutcome (feedRequestLine .fresh .start ⟨fun _ => 0, 0, 0⟩
      [ascii "GE", ascii "T / HTTP/1.1\r\n"])).1 = .invalidMethod := by decide +kernel
  have accepted : (parseRequestLine .fresh .start (HeaderIn.received ⟨fun _ => 0, 0, 0⟩
      [ascii "GE", ascii "T / HTTP/1.1\r\n"].flatten)).outcome.1 = .ok := by decide +kernel
  have codes := refused.symm.trans ((congrArg Prod.fst same).trans accepted)
  cases codes

end Ngx.Http
