import Ngx.RedisParse

/-! The parser as a machine on a growing input. Two states look further than one byte, as far
as the prefix they compare; all others read the byte they stand on. -/
namespace Ngx.Redis

def Cursor.Ready (c : Cursor) : Prop :=
  match c.state with
  | .start | .subscribe | .subscribeChannelLength | .subscribeChannelName => True
  | .error => c.rc.error = true
  | .subscribeChannelClinet | .message | .messageLength | .messageValue =>
    c.rc.channelMessagePrefix ≠ []

/-- One past the last cell the round at `c` looks at. -/
def Cursor.reach (c : Cursor) : Nat :=
  match c.state with
  | .subscribe => c.p + subscribePrefix.length
  | .message => c.p + c.rc.channelMessagePrefix.length
  | _ => c.p + 1

structure Extracted where
  messageStart : Nat
  messageEnd : Nat
  bytes : List UInt8
  deriving DecidableEq, Repr

def extracted (mem : Nat → UInt8) (rc : Progress) : Extracted :=
  ⟨rc.messageStart, rc.messageEnd, Resumable.cells mem rc.messageStart rc.messageEnd⟩

theorem messagePrefix_ne_nil (length : Int) (name : List UInt8) :
    messagePrefix length name ≠ [] := by
  simp [messagePrefix, bytes]

theorem subscribePrefix_length : subscribePrefix.length = 19 := by decide

theorem startsWith_congr {m m' : Nat → UInt8} {s : List UInt8} {p : Nat}
    (same : ∀ i < p + s.length, m i = m' i) : startsWith m p s = startsWith m' p s := by
  induction s generalizing p with
  | nil => rfl
  | cons b s ih =>
    have here := same p (by simp)
    have rest := ih (p := p + 1) fun i lt => same i (by simp; omega)
    simp only [startsWith, here, rest]

section Round

variable {mem : Nat → UInt8} {c c' : Cursor}

/-- A round that goes on stops where it looked last and keeps what later states need. -/
theorem parseByte_ok (ready : c.Ready) (ok : parseByte mem c = .ok c') :
    Cursor.Ready { c' with p := c'.p + 1 } ∧ c'.p + 1 = c.reach := by
  cases parseByte_moved ok with
  | minus => exact ⟨rfl, rfl⟩
  | @carriage rc state p line =>
    obtain ⟨notStart, notSubscribe, notMessage⟩ := line
    refine ⟨ready, ?_⟩
    cases state <;> first | rfl | contradiction
  | subscribed =>
    simp [Cursor.Ready, Cursor.reach, subscribePrefix_length]
  | name => exact ⟨messagePrefix_ne_nil _ _, rfl⟩
  | begun =>
    have positive := List.length_pos_iff.mpr ready
    exact ⟨ready, by simp only [Cursor.reach] at *; omega⟩
  | star | nameDigit | nameLength | nameByte => exact ⟨trivial, rfl⟩
  | errorByte | colon | clientDigit | clients | digit | length | counted | searched =>
    exact ⟨ready, rfl⟩

/-- Only the end of a message or of an error reply makes the call succeed. -/
theorem parseByte_done {rc : Progress} {p : Nat} {mem' : Nat → UInt8}
    (done : parseByte mem c = .error (.done rc p mem')) :
    p = c.p ∧ rc.error = c.rc.error ∧ rc.channelMessagePrefix = c.rc.channelMessagePrefix ∧
      (c.state = .error ∨ c.state = .messageValue ∧ mem' = mem ∧ rc.messageEnd = p - 1) := by
  cases parseByte_completed done with
  | error => exact ⟨rfl, rfl, rfl, .inl rfl⟩
  | message => exact ⟨rfl, rfl, rfl, .inr ⟨rfl, rfl, rfl⟩⟩

theorem parseByte_not_again {c₁ : Cursor} : parseByte mem c ≠ .error (.again c₁) := by
  intro again
  obtain ⟨rc, state, p⟩ := c
  cases state with
  | _ =>
    simp only [parseByte, digitStored] at again
    repeat' split at again
    all_goals cases again

theorem parseByte_invalid {code : Code} {rc : Progress}
    (invalid : parseByte mem c = .error (.invalid code rc)) : code ≠ .ok ∧ code ≠ .again := by
  obtain ⟨rc₀, state, p⟩ := c
  cases state with
  | _ =>
    simp only [parseByte, digitStored] at invalid
    repeat' split at invalid
    all_goals cases invalid
    all_goals exact ⟨by decide, by decide⟩

/-- A round reads no cell from `reach` on; what a successful one writes may differ. -/
theorem parseByte_congr {m m' : Nat → UInt8} (same : ∀ i < c.reach, m i = m' i) :
    parseByte m c = parseByte m' c ∨
      ∃ rc w w', parseByte m c = .error (.done rc c.p w) ∧
        parseByte m' c = .error (.done rc c.p w') := by
  obtain ⟨rc, state, p⟩ := c
  cases state with
  | subscribe =>
    have agree := startsWith_congr same
    exact .inl (by simp only [parseByte, agree])
  | message =>
    have agree := startsWith_congr (s := rc.channelMessagePrefix) same
    exact .inl (by simp only [parseByte, agree])
  | error | messageValue =>
    have here : m p = m' p := same p (Nat.lt_succ_self p)
    simp only [parseByte, here]
    repeat' split
    all_goals first
      | exact .inl rfl
      | exact .inr ⟨_, _, _, rfl, rfl⟩
  | _ =>
    have here : m p = m' p := same p (Nat.lt_succ_self p)
    exact .inl (by simp only [parseByte, here])

end Round

/-- A round as a step that yields a message or an error code; an error reply of the server
ends the process. -/
def step (mem : Nat → UInt8) (c : Cursor) : Except Code (List Extracted × Cursor) :=
  match parseByte mem c with
  | .ok c => .ok ([], { c with p := c.p + 1 })
  | .error (.done rc p mem) =>
    if rc.error then .error .ok else .ok ([extracted mem rc], ⟨rc, .message, p + 1⟩)
  | .error (.invalid code _) => .error code
  | .error (.again _) => .error .again

theorem extracted_congr {m m' : Nat → UInt8} {rc : Progress} {p : Nat}
    (same : ∀ i < p, m i = m' i) (le : rc.messageEnd ≤ p) : extracted m rc = extracted m' rc := by
  have before : ∀ i < rc.messageEnd, m i = m' i := fun i lt => same i (lt.trans_le le)
  simp only [extracted, Resumable.cells_congr before]

theorem step_looks {m m' : Nat → UInt8} {c : Cursor} (ready : c.Ready)
    (same : ∀ i < c.reach, m i = m' i) : step m c = step m' c := by
  rcases parseByte_congr same with agree | ⟨rc, w, w', here, there⟩
  · rw [step, agree, step]
  · obtain ⟨-, error, -, bad | ⟨state, rfl, stop⟩⟩ := parseByte_done here
    · have : c.rc.error = true := by simpa only [Cursor.Ready, bad] using ready
      simp [step, here, there, error, this]
    · obtain ⟨-, -, -, bad | ⟨-, rfl, -⟩⟩ := parseByte_done there
      · cases state.symm.trans bad
      have reach : c.reach = c.p + 1 := by rw [Cursor.reach, state]
      have agree : extracted w rc = extracted w' rc :=
        extracted_congr (p := c.p + 1) (reach ▸ same) (by omega)
      simp only [step, here, there, agree]

theorem step_moves {m : Nat → UInt8} {c c' : Cursor} {out : List Extracted} (ready : c.Ready)
    (moved : step m c = .ok (out, c')) : c'.Ready ∧ c'.p = c.reach := by
  simp only [step] at moved
  split at moved
  · cases moved
    exact parseByte_ok ready ‹_›
  · rename_i rc p mem' done
    split at moved
    · cases moved
    · cases moved
      obtain ⟨rfl, error, keep, bad | ⟨state, -, -⟩⟩ := parseByte_done done
      · have : c.rc.error = true := by simpa only [Cursor.Ready, bad] using ready
        exact (‹¬ rc.error = true› (error.trans this)).elim
      · have nonempty : c.rc.channelMessagePrefix ≠ [] := by
          simpa [Cursor.Ready, state] using ready
        refine ⟨?_, by rw [Cursor.reach, state]⟩
        simpa only [Cursor.Ready, keep] using nonempty
  · cases moved
  · cases moved

def machine : Resumable.Machine UInt8 Cursor Extracted Code where
  pos := Cursor.p
  reach := Cursor.reach
  Valid := Cursor.Ready
  step := step
  forward {c} ready := by
    simp only [Cursor.reach]
    split
    · simp [subscribePrefix_length]
    · have nonempty : c.rc.channelMessagePrefix ≠ [] := by simp_all [Cursor.Ready]
      have positive := List.length_pos_iff.mpr nonempty
      omega
    · omega
  looks := step_looks
  moves := step_moves

/-- One call as its caller sees it: the message taken out after `NGX_OK`, unless the server
reported an error, and the buffer's pointers. -/
structure Call where
  code : Code
  message : Option Extracted
  pos : Nat
  last : Nat
  deriving DecidableEq, Repr

/-- What a row of calls leaves: the calls, the last return value, connection and buffer. -/
structure Drained where
  calls : List Call
  code : Code
  rc : Connection
  buffer : Buffer

/-- At most `n` calls, a further one after each `NGX_OK`; an error reply ends the process. -/
def drain : (n : Nat) → Connection → Buffer → Drained
  | 0, rc, b => ⟨[], .ok, rc, b⟩
  | n + 1, rc, b =>
    match parseMessage rc b with
    | (code, rc, b) =>
      if code = .ok ∧ rc.error = false then
        let rest := drain n rc b
        { rest with calls := ⟨code, some (extracted b.mem rc.toProgress), b.pos, b.last⟩ :: rest.calls }
      else ⟨[⟨code, none, b.pos, b.last⟩], code, rc, b⟩

/-- The calls made while the input arrives in pieces, up to the first error. -/
def feed : Connection → Buffer → List (List UInt8) → List Call
  | _, _, [] => []
  | rc, b, piece :: rest =>
    let b := b.received piece
    let d := drain (b.last - b.pos + 1) rc b
    if d.code = .again then d.calls ++ feed d.rc d.buffer rest else d.calls

def results (calls : List Call) : List (Code × Option Extracted) :=
  calls.filterMap fun call => if call.code = .again then none else some (call.code, call.message)

def Overrun (calls : List Call) : Prop := ∃ call ∈ calls, call.last < call.pos

def resultsOf (os : List Extracted) (e : Option Code) : List (Code × Option Extracted) :=
  os.map (fun o => (.ok, some o)) ++ e.toList.map fun code => (code, none)

/-- What holds at the start of the loop and is kept by every round holds where it is left. -/
theorem parseLoop_leaves {mem : Nat → UInt8} {last n : Nat} {c : Cursor} {I : Cursor → Prop}
    (kept : ∀ {c c'}, I c → c.p < last → parseByte mem c = .ok c' → I { c' with p := c'.p + 1 })
    (start : I c) :
    (∃ c', parseLoop mem last n c = .again c' ∧ I c') ∨
      ∃ c', I c' ∧ c'.p < last ∧ parseByte mem c' = .error (parseLoop mem last n c) := by
  induction n generalizing c with
  | zero => exact .inl ⟨c, rfl, start⟩
  | succ n ih =>
    rw [parseLoop]
    split
    · exact .inl ⟨c, rfl, start⟩
    · have before : c.p < last := by omega
      split
      · exact ih (kept start before ‹_›)
      · exact .inr ⟨c, start, before, ‹_›⟩

section Call

variable {rc rc' : Connection} {b b' : Buffer} {I : Cursor → Prop}

/-- What the rounds keep holds where a call waits. -/
theorem parse_again_rounds
    (kept : ∀ {c c'}, I c → c.p < b.last → parseByte b.mem c = .ok c' → I { c' with p := c'.p + 1 })
    (start : I ⟨rc.toProgress, rc.state, b.pos⟩) (parsed : parseMessage rc b = (.again, rc', b')) :
    I ⟨rc'.toProgress, rc'.state, b'.pos⟩ ∧ b'.mem = b.mem ∧ b'.last = b.last ∧
      parseLoop b.mem b.last (b.last - b.pos) ⟨rc.toProgress, rc.state, b.pos⟩ =
        .again ⟨rc'.toProgress, rc'.state, b'.pos⟩ := by
  rw [parseMessage] at parsed
  rcases parseLoop_leaves (n := b.last - b.pos) kept start with ⟨c, left, here⟩ | ⟨c, -, -, stop⟩
  · rw [left] at parsed
    cases parsed
    exact ⟨here, rfl, rfl, left⟩
  · cases left : parseLoop b.mem b.last (b.last - b.pos) ⟨rc.toProgress, rc.state, b.pos⟩ with
    | again c' =>
      rw [left] at stop
      exact (parseByte_not_again stop).elim
    | done progress p mem =>
      rw [left] at parsed
      cases parsed
    | invalid code progress =>
      rw [left] at stop parsed
      obtain ⟨-, again⟩ := parseByte_invalid stop
      cases parsed
      exact (again rfl).elim

/-- The last round of a call that succeeds. -/
theorem parse_ok_round
    (kept : ∀ {c c'}, I c → c.p < b.last → parseByte b.mem c = .ok c' → I { c' with p := c'.p + 1 })
    (start : I ⟨rc.toProgress, rc.state, b.pos⟩) (parsed : parseMessage rc b = (.ok, rc', b')) :
    ∃ c p, I c ∧ c.p < b.last ∧ b'.pos = p + 1 ∧ b'.last = b.last ∧ rc'.state = .message ∧
      parseByte b.mem c = .error (.done rc'.toProgress p b'.mem) := by
  rw [parseMessage] at parsed
  rcases parseLoop_leaves (n := b.last - b.pos) kept start with ⟨c, left, -⟩ | ⟨c, here, before, stop⟩
  · rw [left] at parsed
    cases parsed
  · cases left : parseLoop b.mem b.last (b.last - b.pos) ⟨rc.toProgress, rc.state, b.pos⟩ with
    | again c' =>
      rw [left] at parsed
      cases parsed
    | done progress p mem =>
      rw [left] at stop parsed
      cases parsed
      exact ⟨c, p, here, before, rfl, rfl, rfl, stop⟩
    | invalid code progress =>
      rw [left] at stop parsed
      cases parsed
      exact ((parseByte_invalid stop).1 rfl).elim

end Call

open Resumable in
def LoopRun (mem : Nat → UInt8) (last : Nat) (c : Cursor) : Stop → Prop
  | .again c' => Run machine mem last c [] (.waiting c')
  | .invalid code _ => code ≠ .ok ∧ code ≠ .again ∧ c.p < last ∧ Run machine mem last c [] (.halted code)
  | .done rc p mem' => c.p ≤ p ∧ p < last ∧
    if rc.error then Run machine mem last c [] (.halted .ok)
    else mem' = mem ∧ Cursor.Ready ⟨rc, .message, p + 1⟩ ∧
      ∀ os r, Run machine mem last ⟨rc, .message, p + 1⟩ os r →
        Run machine mem last c (extracted mem rc :: os) r

theorem LoopRun.next {mem : Nat → UInt8} {last : Nat} {c c' : Cursor} {stop : Stop}
    (before : c.p < last) (moved : machine.step mem c = .ok ([], c')) (le : c.p ≤ c'.p)
    (rest : LoopRun mem last c' stop) : LoopRun mem last c stop := by
  cases stop with
  | again c'' => exact Resumable.Run.next before moved rest
  | invalid code rc =>
    obtain ⟨ok, again, _, run⟩ := rest
    exact ⟨ok, again, before, .next before moved run⟩
  | done rc p mem' =>
    obtain ⟨after, lt, rest⟩ := rest
    refine ⟨le.trans after, lt, ?_⟩
    split
    · rw [if_pos ‹_›] at rest
      exact .next before moved rest
    · rw [if_neg ‹_›] at rest
      obtain ⟨same, ready, run⟩ := rest
      exact ⟨same, ready, fun os r later => .next before moved (run os r later)⟩

theorem LoopRun.done {mem mem' : Nat → UInt8} {last p : Nat} {c : Cursor} {rc : Progress}
    (ready : c.Ready) (before : c.p < last) (done : parseByte mem c = .error (.done rc p mem')) :
    LoopRun mem last c (.done rc p mem') := by
  obtain ⟨rfl, error, -, place⟩ := parseByte_done done
  refine ⟨le_refl _, before, ?_⟩
  split
  · exact .halt before (by simp only [machine, step, done, if_pos ‹_›])
  · rename_i quiet
    rcases place with bad | ⟨-, rfl, -⟩
    · have : c.rc.error = true := by simpa only [Cursor.Ready, bad] using ready
      exact (quiet (error.trans this)).elim
    · have moved : machine.step mem' c = .ok ([extracted mem' rc], ⟨rc, .message, c.p + 1⟩) := by
        simp only [machine, step, done, if_neg quiet]
      exact ⟨rfl, (machine.moves ready moved).1, fun os r run => .next before moved run⟩

theorem parseLoop_run {mem : Nat → UInt8} {last n : Nat} {c : Cursor} (ready : c.Ready)
    (enough : last - c.p ≤ n) : LoopRun mem last c (parseLoop mem last n c) := by
  induction n generalizing c with
  | zero => exact Resumable.Run.wait (by simp only [machine]; omega)
  | succ n ih =>
    rw [parseLoop]
    split
    · exact Resumable.Run.wait ‹_›
    · have before : c.p < last := by omega
      split
      · rename_i c' round
        obtain ⟨next, reach⟩ := parseByte_ok ready round
        have forward : c.p < c.reach := machine.forward ready
        have moved : machine.step mem c = .ok ([], { c' with p := c'.p + 1 }) := by
          simp only [machine, step, round]
        have further : c.p ≤ c'.p + 1 := by omega
        exact .next before moved further (ih next (by simp only; omega))
      · rename_i stop round
        cases stop with
        | again c' => exact (parseByte_not_again round).elim
        | done rc p mem' => exact .done ready before round
        | invalid code rc =>
          have halted : machine.step mem c = .error code := by simp only [machine, step, round]
          obtain ⟨ok, again⟩ := parseByte_invalid round
          exact ⟨ok, again, before, .halt before halted⟩

def DrainRun (b : Buffer) (os : List Extracted) (d : Drained) : Resumable.End Cursor Code → Prop
  | .waiting c => d.code = .again ∧ d.rc = { toProgress := c.rc, state := c.state } ∧
    d.buffer = { b with pos := c.p } ∧ results d.calls = resultsOf os none ∧
    (Overrun d.calls ↔ b.last < c.p)
  | .halted e => d.code ≠ .again ∧ results d.calls = resultsOf os (some e) ∧ ¬ Overrun d.calls

theorem Overrun.cons {call : Call} {calls : List Call} :
    Overrun (call :: calls) ↔ call.last < call.pos ∨ Overrun calls := by
  simp [Overrun]

theorem Overrun.append {xs ys : List Call} : Overrun (xs ++ ys) ↔ Overrun xs ∨ Overrun ys := by
  simp [Overrun, or_and_right, exists_or]

theorem DrainRun.cons {b : Buffer} {o : Extracted} {os : List Extracted} {d : Drained} {call : Call}
    {r : Resumable.End Cursor Code} (code : call.code = .ok) (message : call.message = some o)
    (inside : call.pos ≤ call.last) (rest : DrainRun b os d r) :
    DrainRun b (o :: os) { d with calls := call :: d.calls } r := by
  have result (e : Option Code) (h : results d.calls = resultsOf os e) :
      results (call :: d.calls) = resultsOf (o :: os) e := by
    have first : results (call :: d.calls) = (.ok, some o) :: results d.calls := by
      simp [results, code, message]
    rw [first, h]
    rfl
  have overrun : Overrun (call :: d.calls) ↔ Overrun d.calls := by
    rw [Overrun.cons]
    exact or_iff_right (by omega)
  cases r with
  | waiting c =>
    obtain ⟨again, rc, buffer, results, past⟩ := rest
    exact ⟨again, rc, buffer, result _ results, overrun.trans past⟩
  | halted e =>
    obtain ⟨again, results, inside⟩ := rest
    exact ⟨again, result _ results, overrun.not.mpr inside⟩

theorem drain_run {n : Nat} {rc : Connection} {b : Buffer}
    (ready : Cursor.Ready ⟨rc.toProgress, rc.state, b.pos⟩) (enough : b.last - b.pos < n) :
    ∃ os r, Resumable.Run machine b.mem b.last ⟨rc.toProgress, rc.state, b.pos⟩ os r ∧
      DrainRun b os (drain n rc b) r := by
  induction n generalizing rc b with
  | zero => omega
  | succ n ih =>
    have loop : LoopRun b.mem b.last ⟨rc.toProgress, rc.state, b.pos⟩ (parseLoop b.mem b.last
        (b.last - b.pos) ⟨rc.toProgress, rc.state, b.pos⟩) := parseLoop_run ready (le_refl _)
    rw [drain, parseMessage]
    cases left : parseLoop b.mem b.last (b.last - b.pos) ⟨rc.toProgress, rc.state, b.pos⟩ with
    | again c =>
      rw [left] at loop
      refine ⟨[], .waiting c, loop, ?_⟩
      simp [DrainRun, results, resultsOf, Overrun]
    | invalid code progress =>
      rw [left] at loop
      obtain ⟨ok, again, before, run⟩ := loop
      have inside : b.pos ≤ b.last := Nat.le_of_lt before
      refine ⟨[], .halted code, run, ?_⟩
      simp [DrainRun, results, resultsOf, Overrun, ok, again, inside]
    | done progress p mem =>
      rw [left] at loop
      obtain ⟨after, before, run⟩ := loop
      have inside : p + 1 ≤ b.last := before
      cases error : progress.error with
      | true =>
        rw [if_pos error] at run
        refine ⟨[], .halted .ok, run, ?_⟩
        simp [DrainRun, results, resultsOf, Overrun, error, before]
      | false =>
        rw [if_neg (by simp [error])] at run
        obtain ⟨rfl, next, run⟩ := run
        obtain ⟨os, r, rest, ends⟩ :=
          @ih { toProgress := progress, state := .message } ⟨b.mem, p + 1, b.last⟩ next
            (by simp only at after ⊢; omega)
        refine ⟨_, r, run os r rest, ?_⟩
        simp only [error, and_self, if_true]
        apply DrainRun.cons rfl rfl inside
        cases r with
        | waiting c => exact ends
        | halted e => exact ends

/-- The calls made on input in pieces show a resumed run of the machine. -/
theorem feed_run {rc : Connection} {b : Buffer} (pieces : List (List UInt8))
    (ready : Cursor.Ready ⟨rc.toProgress, rc.state, b.pos⟩) :
    ∃ os marks e, Resumable.Feed machine b.mem b.last ⟨rc.toProgress, rc.state, b.pos⟩ pieces
        os marks e ∧
      results (feed rc b pieces) = resultsOf os e ∧
      (Overrun (feed rc b pieces) ↔ ∃ mark ∈ marks, mark.2 < mark.1) := by
  induction pieces generalizing rc b with
  | nil => exact ⟨[], [], none, .nil, rfl, by simp [feed, Overrun]⟩
  | cons piece rest ih =>
    obtain ⟨os, r, run, ends⟩ := drain_run (b := b.received piece) ready (Nat.lt_succ_self _)
    rw [feed]
    cases r with
    | halted e =>
      obtain ⟨again, results, inside⟩ := ends
      refine ⟨os, [], some e, .halted run, ?_⟩
      rw [if_neg again]
      exact ⟨results, by simpa using inside⟩
    | waiting c =>
      obtain ⟨again, connection, buffer, result, past⟩ := ends
      have next : c.Ready := run.valid ready
      rw [if_pos again, connection, buffer]
      obtain ⟨os', marks, e, later, results', past'⟩ :=
        @ih { toProgress := c.rc, state := c.state } { b.received piece with pos := c.p } next
      refine ⟨os ++ os', (c.p, (b.received piece).last) :: marks, e, .waiting run later, ?_, ?_⟩
      · rw [results, List.filterMap_append]
        rw [results] at result results'
        rw [result, results']
        simp [resultsOf]
      · rw [Overrun.append, past, past']
        simp

end Ngx.Redis
