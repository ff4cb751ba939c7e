import Ngx.HeaderRoundTrip

/-! The lower-case key and the hash of a header. The parser leaves a name in an array of 32 bytes
whose index starts again from 0; the caller copies the array or lowers the name itself. -/
namespace Ngx.Http

open ByteLoop Resumable

structure TableElt.Lowered (name : List UInt8) (h : TableElt) : Prop where
  length : h.key.len = name.length
  lowcase : cells h.lowcaseKey 0 h.key.len = name.map tolower
  hash : h.hash = (name.map tolower).foldl ngxHash 0

def HeaderLineCall.name (call : HeaderLineCall) : List UInt8 :=
  cells call.b.mem call.r.headerNameStart call.r.headerNameEnd

section Calls

variable {q : Nat} {part : List UInt8} {r : HeaderLine} {state : HeaderLineState} {b : HeaderIn}
  {call : HeaderLineCall}

/-- A call that returned `NGX_OK` has read a whole line, which stands in the buffer. -/
def HeaderLineCall.FromLine (call : HeaderLineCall) : Prop :=
  call.code = .ok → ∃ q body name value k c, Field q body name value c ∧ call.r = c.written ∧
    Holds call.b.mem q (body ++ (List.replicate k cr ++ [lf]))

def Ready (r : HeaderLine) (state : HeaderLineState) (b : HeaderIn) : Prop :=
  ∃ q part, Begun q part r state b

theorem ready_start (r : HeaderLine) (inside : b.pos ≤ b.last) : Ready r .start b :=
  ⟨b.pos, [], rfl, inside, ⟨r, .enter r .start b.pos, rfl, rfl, rfl⟩,
    fun i inside => absurd inside (Nat.not_lt_zero i)⟩

theorem Begun.received (begun : Begun q part r state b) (piece : List UInt8) :
    Begun q part r state (b.received piece) := by
  have position := begun.position
  have inside := begun.inside
  refine ⟨position, Nat.le_add_right_of_le inside, begun.cursor, fun i before => ?_⟩
  change store b.mem b.last piece (q + i) = _
  rw [Resumable.store, if_neg (by omega)]
  exact begun.holds i before

theorem Begun.finds (begun : Begun q part r state b) :
    (parseHeaderLine r state b true).FromLine ∧
      ((parseHeaderLine r state b true).code ≠ .invalidHeader →
        Ready (parseHeaderLine r state b true).r (parseHeaderLine r state b true).state
          (parseHeaderLine r state b true).b) := by
  have inside := begun.inside
  have position := begun.position
  have called := begun.call
  generalize parseHeaderLine r state b true = call at called
  cases called with
  | @again r₀ c folded =>
    refine ⟨fun code => (nomatch code), fun _ => ⟨q, _, ?_, le_refl _, ⟨r₀, c, folded, rfl, rfl⟩,
      begun.holds.append (position ▸ cells_holds rfl)⟩⟩
    rw [List.length_append, cells_length]
    change b.last = _
    omega
  | @done front back r₀ c c' bytes folded done =>
    obtain ⟨holds, ahead, -⟩ := begun.line_bytes bytes
    obtain ⟨body, name, value, k, line, field, place⟩ := line_field folded done
    rw [← place] at ahead
    rw [line] at holds
    exact ⟨fun _ => ⟨q, body, name, value, k, c', field, rfl, holds⟩, fun _ => ready_start _ ahead⟩
  | headerDone bytes =>
    exact ⟨fun code => (nomatch code), fun _ => ready_start _ (begun.line_bytes bytes).2.1⟩
  | invalid => exact ⟨fun code => (nomatch code), fun valid => absurd rfl valid⟩

theorem calls_find_lines {n : Nat} (ready : Ready r state b)
    (member : call ∈ headerLineCalls n r state b) :
    call.FromLine ∧ (call.code = .again → Ready call.r call.state call.b) := by
  induction n generalizing r state b with
  | zero => cases member
  | succ n ih =>
    obtain ⟨q, part, begun⟩ := ready
    obtain ⟨here, next⟩ := begun.finds
    rw [headerLineCalls] at member
    rcases List.mem_cons.mp member with rfl | member
    · exact ⟨here, fun code => next (by simp [code])⟩
    · split at member
      next code =>
        have valid : (parseHeaderLine r state b true).code ≠ .invalidHeader := by
          rcases code with code | code <;> simp [code]
        exact ih (next valid) member
      next => cases member

theorem feed_finds_lines {pieces : List (List UInt8)} (ready : Ready r state b)
    (member : call ∈ feedHeaderLines r state b pieces) : call.FromLine := by
  induction pieces generalizing r state b with
  | nil => cases member
  | cons piece rest ih =>
    obtain ⟨q, part, begun⟩ := ready
    have ready : Ready r state (b.received piece) := ⟨q, part, begun.received piece⟩
    rw [feedHeaderLines] at member
    rcases List.mem_append.mp member with member | member
    · exact (calls_find_lines ready member).1
    · split at member
      next last found =>
        split at member
        next code =>
          exact ih ((calls_find_lines ready (List.mem_of_getLast? found)).2 code) member
        next => cases member
      next => cases member

end Calls

section Headers

variable {memory : Nat → HeaderMemory} {mem : Nat → UInt8} {bound : Nat} {e : TableElt} {h : Header}
  {s t : HeaderRequest} {call : HeaderLineCall}

theorem Stored.lowered (stored : Stored memory mem bound e h) : e.Lowered h.1.1 where
  length := stored.key_len
  lowcase := by
    have held := (@keyMemory_holds memory h).cells_eq
    rw [Nat.zero_add, List.length_map] at held
    rw [stored.lowcase, stored.key_len]
    exact held
  hash := stored.hash

/-- What the caller makes of a call. -/
theorem HeaderLineCall.FromLine.store (from_line : call.FromLine) (ok : call.code = .ok)
    (valid : call.r.invalidHeader = false) (line : s.line = call.r) (buffer : s.b = call.b)
    {m : HeaderMemory} (stored : s.store m = some t) :
    ∃ h, t.headers.elements = s.headers.elements ++ [h] ∧ h.Lowered call.name := by
  obtain ⟨q, body, name, value, k, c, field, fields, holds⟩ := from_line ok
  rw [fields] at valid line
  rw [← buffer] at holds
  have name_eq : call.name = name := by
    have at_name := (field.places holds).1.cells_eq
    rw [HeaderLineCall.name, fields, ← buffer]
    change cells s.b.mem c.r.headerNameStart c.r.headerNameEnd = name
    rw [field.named.start, field.name_end]
    exact at_name
  rw [field.store_eq line m] at stored
  obtain ⟨block, given, pushed⟩ := Option.bind_eq_some_iff.mp stored
  obtain ⟨headers, push, rfl⟩ := Option.map_eq_some_iff.mp pushed
  refine ⟨_, push_elements push, ?_⟩
  rw [name_eq]
  have kept : Stored (fun _ => m) _ _ _ _ := field.stored (n := 0) valid holds given
  exact kept.lowered

def AllLowered (e : HeadersEnd) : Prop :=
  ∀ t, e = .waiting t ∨ e = .processed t → ∀ h ∈ t.headers.elements,
    h.Lowered (cells t.b.mem h.key.data (h.key.data + h.key.len))

theorem Collected.lowered {lines : List (List UInt8)} (collected : Collected memory lines bound t) :
    ∀ h ∈ t.headers.elements, h.Lowered (cells t.b.mem h.key.data (h.key.data + h.key.len)) := by
  intro h member
  obtain ⟨header, stored⟩ : ∃ header, Stored memory t.b.mem bound h header := by
    obtain ⟨i, inside, rfl⟩ := List.getElem_of_mem member
    have length := collected.stored.length_eq
    exact ⟨_, collected.stored.get inside (length ▸ inside)⟩
  have name := stored.key.cells_eq
  rw [← stored.key_len] at name
  rw [name]
  exact stored.lowered

theorem run_lowered {n : Nat} {again : Bool} {p q : Nat} {lines : List (List UInt8)}
    {part : List UInt8} {reads : List HeaderRead} {e : HeadersEnd}
    (under : Underway memory p lines q part s)
    (ended : processRequestHeaders memory n again s reads = some e) : AllLowered e := by
  refine headers_run
    (I := fun s _ => ∃ lines q part, Underway memory p lines q part s) ?_ ?_
    ⟨lines, q, part, under⟩ ended
  · rintro s reads ⟨lines, q, part, under⟩
    have input : ReadCase s reads (s.read reads) := read_cases under.inside under.room
    generalize s.read reads = x at input
    cases input with
    | full =>
      rintro t (other | other) <;> cases other
    | waiting =>
      rintro t (same | other)
      · cases same
        exact under.toCollected.lowered
      · cases other
    | failed =>
      rintro t (other | other) <;> cases other
    | again => exact ⟨lines, q, part, under⟩
    | old => exact ⟨lines, q, part, under⟩
    | new _ _ _ fits => exact ⟨lines, q, part, under.received fits⟩
  · rintro s reads ⟨lines, q, part, under⟩
    have parsed := under.parse
    generalize s.parse (memory s.headers.elements.length) = x at parsed
    cases parsed with
    | again next => exact ⟨lines, q, _, next⟩
    | line _ _ _ next => exact ⟨_, _, [], next⟩
    | headerDone _ _ _ _ finished =>
      rintro t (other | same)
      · cases other
      · cases same
        exact finished.toCollected.lowered
    | invalid =>
      rintro t (other | other) <;> cases other
    | noMemory =>
      rintro t (other | other) <;> cases other

end Headers

/-- Wherever a header comes from, its key is the name in lower case and its hash that of the
key: for each line found in any input, however it is cut, and for all headers that a run of the
loop has put into the list. -/
theorem lowcase_key_agrees :
    (∀ (r : HeaderLine) (b : HeaderIn) (pieces : List (List UInt8)) (call : HeaderLineCall)
      (m : HeaderMemory) (s t : HeaderRequest), b.pos ≤ b.last →
      call ∈ feedHeaderLines r .start b pieces → call.code = .ok → call.r.invalidHeader = false →
      s.line = call.r → s.b = call.b → s.store m = some t →
      ∃ h, t.headers.elements = s.headers.elements ++ [h] ∧ h.Lowered call.name) ∧
    ∀ (memory : Nat → HeaderMemory) (start : Nat) (r : RequestLine) (state : RequestLineState)
      (b : HeaderIn) (reads : List HeaderRead) (n : Nat) (e : HeadersEnd),
      (parseRequestLine r state b).code = .ok →
      (parseRequestLine r state b).b.last ≤ start + clientHeaderBufferSize →
      processRequestHeaders memory n true (.enter start (parseRequestLine r state b)) reads = some e →
      AllLowered e := by
  constructor
  · intro r b pieces call m s t inside member ok valid line buffer stored
    exact (feed_finds_lines (ready_start r inside) member).store ok valid line buffer stored
  · intro memory start r state b reads n e accepted room ended
    exact run_lowered (enter_underway (accepted_inside accepted) room) ended

def longNamePieces : List (List UInt8) :=
  [ascii "Host: a\r\nX_Name", ascii "-Longer-Than-The-Array-It-Is-Kept-In: b\r\n"]

theorem lowcase_key_agrees_long :
    (∃ t h, (feedHeaderLines .fresh .start ⟨fun _ => 0, 0, 0⟩ longNamePieces)[2]?.bind (fun call =>
        ({ HeaderRequest.enter 0 ⟨.ok, .fresh, .start, call.b⟩ with line := call.r }).store
          ⟨true, some fun _ => 0⟩) = some t ∧ t.headers.elements = [h] ∧
      h.Lowered (ascii "X_Name-Longer-Than-The-Array-It-Is-Kept-In")) ∧
    ∃ e, processRequestHeaders (fun _ => ⟨true, some fun _ => 0⟩) 5 true
        (.enter 0 (parseRequestLine .fresh .start (HeaderIn.received ⟨fun _ => 0, 0, 0⟩
          (ascii "GET / HTTP/1.1\r\nHo"))))
        [⟨⟨true, .data (ascii "st: a\r\n\r\n"), true⟩, false⟩] = some e ∧ AllLowered e := by
  constructor
  · have third : ((feedHeaderLines .fresh .start ⟨fun _ => 0, 0, 0⟩ longNamePieces)[2]?.map
        fun call => (call.code, call.r.invalidHeader, call.name)) =
        some (.ok, false, ascii "X_Name-Longer-Than-The-Array-It-Is-Kept-In") := by decide +kernel
    obtain ⟨call, at_2, fields⟩ := Option.map_eq_some_iff.mp third
    obtain ⟨ok, valid, name⟩ : call.code = .ok ∧ call.r.invalidHeader = false ∧
        call.name = ascii "X_Name-Longer-Than-The-Array-It-Is-Kept-In" := by simpa using fields
    obtain ⟨t, stored⟩ : ∃ t, ({ HeaderRequest.enter 0 ⟨.ok, .fresh, .start, call.b⟩ with
        line := call.r }).store ⟨true, some fun _ => 0⟩ = some t := ⟨_, rfl⟩
    obtain ⟨h, elements, lowered⟩ := lowcase_key_agrees.1 .fresh ⟨fun _ => 0, 0, 0⟩ longNamePieces
      call _ _ t (le_refl _) (List.mem_of_getElem? at_2) ok valid rfl rfl stored
    refine ⟨t, h, ?_, elements, name ▸ lowered⟩
    rw [at_2]
    exact stored
  · have returns : (processRequestHeaders (fun _ => ⟨true, some fun _ => 0⟩) 5 true
        (.enter 0 (parseRequestLine .fresh .start (HeaderIn.received ⟨fun _ => 0, 0, 0⟩
          (ascii "GET / HTTP/1.1\r\nHo"))))
        [⟨⟨true, .data (ascii "st: a\r\n\r\n"), true⟩, false⟩]).isSome = true := by decide +kernel
    obtain ⟨e, ended⟩ := Option.isSome_iff_exists.mp returns
    exact ⟨e, ended, lowcase_key_agrees.2 _ 0 _ _ _ _ 5 e (by decide +kernel) (by decide +kernel)
      ended⟩

end Ngx.Http
