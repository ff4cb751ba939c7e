import Ngx.HttpParse

/-! Header lines that arrive in pieces. Every state reads one byte, so the calls on the pieces fold
over the bytes; the hash and the index of `lowcase_header` are written back where a call is left
for more input and read again by the next one. -/
namespace Ngx.Http

open ByteLoop Resumable

def HeaderLineCursor.enter (r : HeaderLine) (state : HeaderLineState) (p : Nat) : HeaderLineCursor :=
  ⟨r, state, r.headerHash, r.lowcaseIndex, p⟩

/-- Where the next call enters the loop that was left at `c` for more input. -/
def HeaderLineCursor.reload (c : HeaderLineCursor) : HeaderLineCursor := .enter c.written c.state c.p

def HeaderLineStop.reload : HeaderLineStop → HeaderLineStop
  | .done c => .done c.reload
  | .headerDone c => .headerDone c.reload
  | .invalid c => .invalid c.reload

def HeaderLineCursor.Alike (c d : HeaderLineCursor) : Prop := c.reload = d.reload

def HeaderLineStop.Alike (e e' : HeaderLineStop) : Prop := e.reload = e'.reload

section Rounds

variable {u : Bool} {c c' d d' : HeaderLineCursor} {ch : UInt8} {bs : List UInt8}

theorem headerLineByte_moves : Bytewise (headerLineByte u) HeaderLineCursor.p where
  moves {c ch c'} moved := by
    obtain ⟨r, state, hash, i, p⟩ := c
    cases state <;>
    · simp only [headerLineByte, HeaderLineCursor.next] at moved
      repeat' split at moved
      all_goals cases moved
      all_goals rfl

theorem HeaderLineCursor.Alike.fields (alike : c.Alike d) :
    c.written = d.written ∧ c.state = d.state ∧ c.p = d.p := by
  have fields : c.reload.r = d.reload.r := by rw [alike]
  have state : c.reload.state = d.reload.state := by rw [alike]
  have position : c.reload.p = d.reload.p := by rw [alike]
  exact ⟨fields, state, position⟩

theorem headerLineByte_reload (c : HeaderLineCursor) (ch : UInt8) :
    Related HeaderLineCursor.Alike HeaderLineStop.Alike (headerLineByte u c.reload ch)
      (headerLineByte u c ch) := by
  obtain ⟨r, state, hash, i, p⟩ := c
  cases state <;>
  · simp only [headerLineByte, HeaderLineCursor.reload, HeaderLineCursor.enter]
    repeat' split
    all_goals first
      | exact .ok rfl
      | exact .error rfl

/-- A round uses the hash and the index of the loop, never those of the request. -/
theorem headerLineByte_alike (ch : UInt8) (alike : c.Alike d) :
    Related HeaderLineCursor.Alike HeaderLineStop.Alike (headerLineByte u c ch)
      (headerLineByte u d ch) := by
  have left := headerLineByte_reload (u := u) c ch
  have right := headerLineByte_reload (u := u) d ch
  rw [show c.reload = d.reload from alike] at left
  generalize headerLineByte u c ch = x, headerLineByte u d ch = y,
    headerLineByte u d.reload ch = z at left right
  cases left with
  | ok same =>
    cases right with
    | ok same' => exact .ok (same.symm.trans same')
  | error same =>
    cases right with
    | error same' => exact .error (same.symm.trans same')

/-- Outside a header the hash and the index are the request's own. -/
def HeaderLineCursor.Kept (c : HeaderLineCursor) : Prop :=
  c.state = .start ∨ c.state = .ignoreLine ∨ c.state = .headerAlmostDone →
    c.r.headerHash = c.hash ∧ c.r.lowcaseIndex = c.i

theorem kept_enter (r : HeaderLine) (state : HeaderLineState) (p : Nat) :
    (HeaderLineCursor.enter r state p).Kept := fun _ => ⟨rfl, rfl⟩

theorem kept_byte (kept : c.Kept) (moved : headerLineByte u c ch = .ok c') : c'.Kept := by
  obtain ⟨r, state, hash, i, p⟩ := c
  cases state <;>
  · simp only [headerLineByte, HeaderLineCursor.next] at moved
    repeat' split at moved
    all_goals cases moved
    all_goals intro quiet
    all_goals first
      | exact kept (.inl rfl)
      | exact kept (.inr (.inl rfl))
      | exact absurd quiet (by simp)

/-- At the end of the headers the request holds the hash and the index that it had. -/
theorem kept_headerDone (kept : c.Kept) (stopped : headerLineByte u c ch = .error (.headerDone c')) :
    c'.written = c'.r := by
  obtain ⟨r, state, hash, i, p⟩ := c
  have same : c'.r.headerHash = c'.hash ∧ c'.r.lowcaseIndex = c'.i := by
    cases state <;>
    · simp only [headerLineByte, HeaderLineCursor.next] at stopped
      repeat' split at stopped
      all_goals cases stopped
      all_goals first
        | exact kept (.inl rfl)
        | exact kept (.inr (.inr rfl))
  rw [HeaderLineCursor.written, ← same.1, ← same.2]

end Rounds

/-- What the caller uses of a call that found something: after `NGX_OK` the fields and the
position. -/
inductive HeaderLineResult where
  | ok (r : HeaderLine) (pos : Nat)
  | headerDone
  | invalidHeader
  deriving DecidableEq, Repr

def HeaderLineCall.result (call : HeaderLineCall) : Option HeaderLineResult :=
  match call.code with
  | .ok => some (.ok call.r call.b.pos)
  | .headerDone => some .headerDone
  | .invalidHeader => some .invalidHeader
  | _ => none

def headerLineResults (calls : List HeaderLineCall) : List HeaderLineResult :=
  calls.filterMap HeaderLineCall.result

/-- Calls on what is in the buffer, up to one that wants more or refuses the line. -/
def headerLineCalls : Nat → HeaderLine → HeaderLineState → HeaderIn → List HeaderLineCall
  | 0, _, _, _ => []
  | n + 1, r, state, b =>
    let call := parseHeaderLine r state b true
    call :: if call.code = .ok ∨ call.code = .headerDone then
      headerLineCalls n call.r call.state call.b else []

/-- The calls made while the input arrives in pieces; all but the last on what is in the buffer
take a byte. -/
def feedHeaderLines (r : HeaderLine) (state : HeaderLineState) (b : HeaderIn) :
    List (List UInt8) → List HeaderLineCall
  | [] => []
  | piece :: rest =>
    let b := b.received piece
    let calls := headerLineCalls (b.last - b.pos + 1) r state b
    calls ++ match calls.getLast? with
      | some call => if call.code = .again then feedHeaderLines call.r call.state call.b rest else []
      | none => []

abbrev HeaderLog := HeaderLineCursor × List HeaderLineResult

def afterStop (log : List HeaderLineResult) :
    HeaderLineStop → Except (List HeaderLineResult) HeaderLog
  | .done c => .ok (.enter c.written .start (c.p + 1), log ++ [.ok c.written (c.p + 1)])
  | .headerDone c => .ok (.enter c.r .start (c.p + 1), log ++ [.headerDone])
  | .invalid _ => .error (log ++ [.invalidHeader])

def sectionByte (s : HeaderLog) (ch : UInt8) : Except (List HeaderLineResult) HeaderLog :=
  match headerLineByte true s.1 ch with
  | .ok c => .ok (c, s.2)
  | .error stop => afterStop s.2 stop

def loggedBy : Except (List HeaderLineResult) HeaderLog → List HeaderLineResult
  | .ok s => s.2
  | .error log => log

section Calls

variable {c c' d : HeaderLineCursor} {ch : UInt8} {bs : List UInt8} {log log' : List HeaderLineResult}
  {mem : Nat → UInt8} {last : Nat}

theorem stop_position {stop : HeaderLineStop} (stopped : headerLineByte true c ch = .error stop) :
    (∀ c', stop = .done c' → c'.p = c.p) ∧ ∀ c', stop = .headerDone c' → c'.p = c.p := by
  obtain ⟨r, state, hash, i, p⟩ := c
  cases state <;>
  · simp only [headerLineByte, HeaderLineCursor.next] at stopped
    repeat' split at stopped
    all_goals cases stopped
    all_goals
      constructor
      · rintro c' same
        cases same
        try rfl
      · rintro c' same
        cases same
        try rfl

theorem section_ok (folded : bs.foldlM (headerLineByte true) c = .ok c') :
    bs.foldlM sectionByte (c, log) = .ok (c', log) := by
  induction bs generalizing c with
  | nil =>
    cases folded
    rfl
  | cons b bs ih =>
    obtain ⟨c₁, moved, rest⟩ := foldlM_cons_ok.mp folded
    refine foldlM_cons_ok.mpr ⟨(c₁, log), ?_, ih rest⟩
    rw [sectionByte]
    dsimp only
    rw [moved]

theorem afterStop_kept {stop : HeaderLineStop} {s : HeaderLog} (goes : afterStop log stop = .ok s) :
    s.1.Kept := by
  cases stop <;> cases goes <;> exact kept_enter _ _ _

theorem afterStop_alike {stop stop' : HeaderLineStop} (same : stop.Alike stop')
    (kept : ∀ c, stop = .headerDone c → c.written = c.r)
    (kept' : ∀ c, stop' = .headerDone c → c.written = c.r) :
    afterStop log stop = afterStop log stop' := by
  cases stop with
  | done c =>
    cases stop' with
    | done d =>
      obtain ⟨fields, -, position⟩ := HeaderLineCursor.Alike.fields (HeaderLineStop.done.inj same)
      rw [afterStop, afterStop, fields, position]
    | _ => cases same
  | headerDone c =>
    cases stop' with
    | headerDone d =>
      obtain ⟨fields, -, position⟩ :=
        HeaderLineCursor.Alike.fields (HeaderLineStop.headerDone.inj same)
      rw [kept c rfl, kept' d rfl] at fields
      rw [afterStop, afterStop, fields, position]
    | _ => cases same
  | invalid c =>
    cases stop' with
    | invalid d => rfl
    | _ => cases same

def SameLog (s t : HeaderLog) : Prop := s.1.Alike t.1 ∧ s.1.Kept ∧ t.1.Kept ∧ s.2 = t.2

theorem sectionByte_same {s t : HeaderLog} (ch : UInt8) (same : SameLog s t) :
    Related SameLog (· = ·) (sectionByte s ch) (sectionByte t ch) := by
  obtain ⟨c, log⟩ := s
  obtain ⟨d, log'⟩ := t
  obtain ⟨alike, kept, kept', rfl⟩ := same
  have step : Related HeaderLineCursor.Alike HeaderLineStop.Alike (headerLineByte true c ch)
      (headerLineByte true d ch) := headerLineByte_alike ch alike
  simp only [sectionByte]
  cases moved : headerLineByte true c ch with
  | ok c' =>
    rw [moved] at step
    cases moved' : headerLineByte true d ch with
    | ok d' =>
      rw [moved'] at step
      cases step with
      | ok alike => exact .ok ⟨alike, kept_byte kept moved, kept_byte kept' moved', rfl⟩
    | error stop' =>
      rw [moved'] at step
      cases step
  | error stop =>
    rw [moved] at step
    cases moved' : headerLineByte true d ch with
    | ok d' =>
      rw [moved'] at step
      cases step
    | error stop' =>
      rw [moved'] at step
      cases step with
      | error alike =>
        have done (c') (is : stop = .headerDone c') : c'.written = c'.r :=
          kept_headerDone kept (is ▸ moved)
        have done' (c') (is : stop' = .headerDone c') : c'.written = c'.r :=
          kept_headerDone kept' (is ▸ moved')
        dsimp only
        rw [afterStop_alike alike done done']
        cases goes : afterStop log stop' with
        | ok s => exact .ok ⟨rfl, afterStop_kept goes, afterStop_kept goes, rfl⟩
        | error log' => exact .error rfl

/-- The results do not depend on what the request holds for the hash and the index. -/
theorem section_alike (alike : c.Alike d) (kept : c.Kept) (kept' : d.Kept) :
    loggedBy (bs.foldlM sectionByte (c, log)) = loggedBy (bs.foldlM sectionByte (d, log)) := by
  have related := foldlM_related sectionByte_same (c := (c, log)) (d := (d, log))
    ⟨alike, kept, kept', rfl⟩ bs
  generalize bs.foldlM sectionByte (c, log) = x, bs.foldlM sectionByte (d, log) = y at related
  cases related with
  | ok cursors => exact cursors.2.2.2
  | error stops => exact stops

theorem parseHeaderLine_eq (r : HeaderLine) (state : HeaderLineState) (b : HeaderIn) :
    parseHeaderLine r state b true =
      match (cells b.mem b.pos b.last).foldlM (headerLineByte true) (.enter r state b.pos) with
      | .ok c => ⟨.again, c.written, c.state, { b with pos := c.p }⟩
      | .error (.done c) => ⟨.ok, c.written, .start, { b with pos := c.p + 1 }⟩
      | .error (.headerDone c) => ⟨.headerDone, c.r, .start, { b with pos := c.p + 1 }⟩
      | .error (.invalid c) => ⟨.invalidHeader, c.r, state, b⟩ := by
  rw [parseHeaderLine, headerLineByte_moves.run_eq]
  rfl

/-- The calls, after the results `log`, find what a fold over the bytes of `b` ends with. -/
def Finds (calls : List HeaderLineCall) (b : HeaderIn) (log : List HeaderLineResult) :
    Except (List HeaderLineResult) HeaderLog → Prop
  | .ok s =>
    log ++ headerLineResults calls = s.2 ∧
      calls.getLast? = some ⟨.again, s.1.written, s.1.state, { b with pos := s.1.p }⟩
  | .error log' =>
    log ++ headerLineResults calls = log' ∧ ∃ call, calls.getLast? = some call ∧ call.code ≠ .again

theorem Finds.cons {call : HeaderLineCall} {calls : List HeaderLineCall} {b : HeaderIn}
    {result : HeaderLineResult} {x : Except (List HeaderLineResult) HeaderLog}
    (is : call.result = some result) (finds : Finds calls b (log ++ [result]) x) :
    Finds (call :: calls) b log x := by
  have results : headerLineResults (call :: calls) = result :: headerLineResults calls :=
    List.filterMap_cons_some is
  have last {call'} (ends : calls.getLast? = some call') :
      (call :: calls).getLast? = some call' := by
    rw [List.getLast?_cons, ends]
    rfl
  cases x with
  | ok s =>
    obtain ⟨logged, ends⟩ := finds
    refine ⟨?_, last ends⟩
    rw [results, ← logged, List.append_assoc, List.singleton_append]
  | error log' =>
    obtain ⟨logged, call', ends, other⟩ := finds
    refine ⟨?_, call', last ends, other⟩
    rw [results, ← logged, List.append_assoc, List.singleton_append]

/-- The calls on a buffer find what its bytes lead to. -/
theorem calls_find {n : Nat} {r : HeaderLine} {state : HeaderLineState} {b : HeaderIn}
    (enough : b.last - b.pos < n) :
    Finds (headerLineCalls n r state b) b log
      ((cells b.mem b.pos b.last).foldlM sectionByte (.enter r state b.pos, log)) := by
  induction n generalizing r state b log with
  | zero => omega
  | succ n ih =>
    have call := parseHeaderLine_eq r state b
    rw [headerLineCalls]
    cases folded : (cells b.mem b.pos b.last).foldlM (headerLineByte true) (.enter r state b.pos) with
    | ok c =>
      rw [folded] at call
      dsimp only at call
      rw [section_ok folded, call]
      dsimp only
      rw [if_neg (by simp)]
      exact ⟨List.append_nil log, rfl⟩
    | error stop =>
      rw [folded] at call
      obtain ⟨front, ch, back, c₁, bytes, passed, stopped⟩ := foldlM_error.mp folded
      have position : c₁.p = b.pos + front.length := headerLineByte_moves.foldlM_pos passed
      have length : b.last - b.pos = front.length + (back.length + 1) := by
        rw [← cells_length b.mem, bytes, List.length_append, List.length_cons]
      have rest : cells b.mem (c₁.p + 1) b.last = back := by
        rw [position, Nat.add_assoc, cells_drop, bytes, List.drop_append]
        simp
      rw [bytes, List.foldlM_append, section_ok passed]
      change Finds _ b log ((ch :: back).foldlM sectionByte (c₁, log))
      rw [List.foldlM_cons, sectionByte]
      dsimp only
      rw [stopped]
      change Finds _ b log (afterStop log stop >>= back.foldlM sectionByte)
      have onward {r' : HeaderLine} {result : HeaderLineResult} :
          Finds (headerLineCalls n r' .start { b with pos := c₁.p + 1 }) b (log ++ [result])
            (back.foldlM sectionByte (.enter r' .start (c₁.p + 1), log ++ [result])) := by
        rw [← rest]
        exact @ih (log ++ [result]) r' .start { b with pos := c₁.p + 1 } (by simp only; omega)
      have places := stop_position stopped
      cases stop with
      | done c' =>
        dsimp only at call
        rw [places.1 c' rfl] at call
        rw [call, afterStop, places.1 c' rfl]
        exact .cons rfl onward
      | headerDone c' =>
        dsimp only at call
        rw [places.2 c' rfl] at call
        rw [call, afterStop, places.2 c' rfl]
        exact .cons rfl onward
      | invalid c' =>
        dsimp only at call
        rw [call]
        exact ⟨rfl, _, rfl, nofun⟩

theorem section_moves : Bytewise sectionByte fun s => s.1.p where
  moves {s ch s'} moved := by
    rw [sectionByte] at moved
    cases round : headerLineByte true s.1 ch with
    | ok c =>
      rw [round] at moved
      cases moved
      exact headerLineByte_moves.moves round
    | error stop =>
      rw [round] at moved
      have places := stop_position round
      cases stop <;> cases moved
      · exact congrArg (· + 1) (places.1 _ rfl)
      · exact congrArg (· + 1) (places.2 _ rfl)

theorem section_kept {s s' : HeaderLog} (kept : s.1.Kept) (moved : sectionByte s ch = .ok s') :
    s'.1.Kept := by
  rw [sectionByte] at moved
  cases round : headerLineByte true s.1 ch with
  | ok c =>
    rw [round] at moved
    cases moved
    exact kept_byte kept round
  | error stop =>
    rw [round] at moved
    exact afterStop_kept moved

/-- However the input is cut, the calls find what its bytes lead to. -/
theorem feed_finds (kept : c.Kept) (pieces : List (List UInt8)) :
    log ++ headerLineResults (feedHeaderLines c.written c.state ⟨mem, c.p, c.p⟩ pieces) =
      loggedBy (pieces.flatten.foldlM sectionByte (c, log)) := by
  induction pieces generalizing c mem log with
  | nil => exact List.append_nil log
  | cons piece rest ih =>
    have found := @calls_find log (c.p + piece.length - c.p + 1) c.written c.state
      (HeaderIn.received ⟨mem, c.p, c.p⟩ piece) (Nat.lt_succ_self _)
    change Finds _ _ log ((cells (store mem c.p piece) c.p (c.p + piece.length)).foldlM sectionByte
      (c.reload, log)) at found
    rw [cells_store_piece] at found
    have reload : loggedBy ((piece ++ rest.flatten).foldlM sectionByte (c, log)) =
        loggedBy ((piece ++ rest.flatten).foldlM sectionByte (c.reload, log)) :=
      section_alike rfl kept (kept_enter _ _ _)
    rw [feedHeaderLines, List.flatten_cons, reload, List.foldlM_append, headerLineResults,
      List.filterMap_append, ← List.append_assoc]
    cases folded : piece.foldlM sectionByte (c.reload, log) with
    | ok s =>
      rw [folded] at found
      obtain ⟨logged, ends⟩ := found
      have position : s.1.p = c.p + piece.length := section_moves.foldlM_pos folded
      have kept : s.1.Kept :=
        foldlM_preserves (I := fun s => s.1.Kept) section_kept (kept_enter _ _ _) folded
      have later := @ih s.1 s.2 (store mem c.p piece) kept
      rw [position] at ends later
      dsimp only [HeaderIn.received] at ends logged ⊢
      rw [ends]
      dsimp only
      rw [if_pos rfl]
      rw [headerLineResults] at logged
      rw [logged]
      exact later
    | error log' =>
      rw [folded] at found
      obtain ⟨logged, call, ends, other⟩ := found
      dsimp only [HeaderIn.received] at ends logged ⊢
      rw [ends]
      dsimp only
      rw [if_neg other]
      exact (List.append_nil _).trans logged

end Calls

/-- Header lines are found alike however the input is cut. -/
theorem header_lines_ignore_cuts (r : HeaderLine) (state : HeaderLineState) (mem : Nat → UInt8)
    (p : Nat) (pieces : List (List UInt8)) :
    headerLineResults (feedHeaderLines r state ⟨mem, p, p⟩ pieces) =
      headerLineResults (feedHeaderLines r state ⟨mem, p, p⟩ [pieces.flatten]) := by
  have cut := @feed_finds (.enter r state p) [] mem (kept_enter r state p) pieces
  have whole := @feed_finds (.enter r state p) [] mem (kept_enter r state p) [pieces.flatten]
  rw [List.flatten_singleton] at whole
  exact cut.trans whole.symm

end Ngx.Http
