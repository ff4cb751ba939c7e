import Ngx.HeaderRun

/-! Reading back a header section. -/
namespace Ngx.Http

open ByteLoop Resumable

/-- `name ':' SP* value SP*` with CRLF or LF. -/
structure HeaderText where
  name : List UInt8
  before : Nat
  value : List UInt8
  after : Nat
  endsCr : Bool
  nonempty : name ≠ []
  name_chars : ∀ b ∈ name, nameChar b = true
  trimmed : Trimmed value

def HeaderText.body (h : HeaderText) : List UInt8 :=
  h.name ++ byte ':' :: (spaceRun h.before ++ (h.value ++ lineEnd h.after h.endsCr))

def HeaderText.pair (h : HeaderText) : List UInt8 × List UInt8 := (h.name, h.value)

def headerSection : List HeaderText → List UInt8
  | [] => [cr, lf]
  | h :: hs => h.body ++ lf :: headerSection hs

def HeaderRead.bytes (read : HeaderRead) : List UInt8 :=
  match read.found with
  | .data bytes => bytes
  | _ => []

/-- The name and the value of a header in the list, read through their pointers and lengths. -/
def TableElt.pair (mem : Nat → UInt8) (e : TableElt) : List UInt8 × List UInt8 :=
  (cells mem e.key.data (e.key.data + e.key.len), cells mem e.value.data (e.value.data + e.value.len))

section RoundTrip

variable {memory : Nat → HeaderMemory} {mem : Nat → UInt8} {p q request : Nat}
  {lines : List (List UInt8)} {part : List UInt8} {s t : HeaderRequest} {reads : List HeaderRead}
  {hs : List HeaderText} {h : HeaderText} {r : HeaderLine} {c c' : HeaderLineCursor}

theorem lineEnd_eq (n : Nat) (endsCr : Bool) :
    lineEnd n endsCr = spaceRun n ++ List.replicate endsCr.toNat cr := by
  cases endsCr <;> rfl

theorem HeaderText.plain (h : HeaderText) :
    ∀ b ∈ h.name ++ byte ':' :: (spaceRun h.before ++ (h.value ++ spaceRun h.after)), plain b := by
  have spaces (n : Nat) : ∀ b ∈ spaceRun n, Http.plain b := fun b member => by
    rw [List.eq_of_mem_replicate member]
    exact ⟨by decide, by decide, by decide⟩
  simp only [List.forall_mem_append, List.forall_mem_cons]
  refine ⟨fun b member => ?_, ⟨by decide, by decide, by decide⟩, spaces _, h.trimmed.bytes, spaces _⟩
  obtain ⟨-, plain, nul⟩ := nameChar_plain (h.name_chars b member)
  rw [lineEnds, decide_eq_false_iff_not, not_or] at plain
  exact ⟨plain.1, plain.2, nul⟩

theorem HeaderText.body_eq (h : HeaderText) :
    h.body = h.name ++ byte ':' :: (spaceRun h.before ++ (h.value ++ spaceRun h.after)) ++
      List.replicate h.endsCr.toNat cr := by
  simp only [HeaderText.body, lineEnd_eq, List.append_assoc, List.cons_append]

theorem HeaderText.accepted (h : HeaderText) (r : HeaderLine) (q : Nat) :
    ∃ c c', h.body.foldlM (headerLineByte true) (.enter r .start q) = .ok c ∧
      headerLineByte true c lf = .error (.done c') := by
  rw [h.body_eq]
  exact line_accepted r (by simp [h.nonempty]) h.plain _

theorem HeaderText.lineHeader_eq (h : HeaderText) : lineHeader (h.body ++ [lf]) = some h.pair := by
  rw [h.body_eq, List.append_assoc]
  exact lineHeader_field h.nonempty h.name_chars h.trimmed _ _ _

/-- The first line feed of a section ends its first header, or the section. -/
theorem section_stop (hs : List HeaderText) (r : HeaderLine) (q : Nat) :
    ∃ front back c stop, headerSection hs = front ++ lf :: back ∧
      front.foldlM (headerLineByte true) (.enter r .start q) = .ok c ∧
      headerLineByte true c lf = .error stop ∧
      ((∃ c', stop = .headerDone c') ∧ hs = [] ∨
        ∃ c' h more, stop = .done c' ∧ hs = h :: more ∧ front = h.body ∧
          back = headerSection more) := by
  cases hs with
  | nil => exact ⟨[cr], [], _, _, rfl, rfl, rfl, .inl ⟨⟨_, rfl⟩, rfl⟩⟩
  | cons h more =>
    obtain ⟨c, c', folded, done⟩ := h.accepted r q
    exact ⟨h.body, headerSection more, c, _, rfl, folded, done, .inr ⟨c', h, more, rfl, rfl, rfl, rfl⟩⟩

theorem not_section (hs : List HeaderText) :
    (headerSection hs).foldlM (headerLineByte true) (.enter r .start q) ≠ .ok c := by
  obtain ⟨front, back, c₁, stop, shape, passed, stopped, -⟩ := section_stop hs r q
  intro folded
  rw [shape] at folded
  obtain ⟨c₂, passed', rest⟩ := foldlM_append_ok.mp folded
  cases passed.symm.trans passed'
  obtain ⟨c₃, moved, -⟩ := foldlM_cons_ok.mp rest
  cases stopped.symm.trans moved

theorem arriving_eq {room : Nat} (fits : (reads.flatMap HeaderRead.bytes).length ≤ room) :
    arriving room reads = reads.flatMap HeaderRead.bytes := by
  induction reads generalizing room with
  | nil => rfl
  | cons read reads ih =>
    rw [List.flatMap_cons, List.length_append] at fits
    rw [List.flatMap_cons, arriving, HeaderRead.bytes]
    rw [HeaderRead.bytes] at fits
    cases found : read.found with
    | data bytes =>
      rw [found] at fits
      dsimp only at fits ⊢
      have all : bytes.take room = bytes := List.take_of_length_le (by omega)
      rw [all, ih (by omega)]
    | _ =>
      rw [found] at fits
      exact ih (by simpa using fits)

theorem arriving_nowhere (reads : List HeaderRead) : arriving 0 reads = [] := by
  induction reads with
  | nil => rfl
  | cons read reads ih =>
    rw [arriving]
    cases read.found with
    | data bytes => exact ih
    | _ => exact ih

/-- Where the parser stops in what is left of a section. -/
theorem stops_at {bytes later front back : List UInt8} {ch : UInt8} {stop : HeaderLineStop}
    (left : part ++ (bytes ++ later) = headerSection hs) (shape : bytes = front ++ ch :: back)
    (folded : (part ++ front).foldlM (headerLineByte true) (.enter r .start q) = .ok c)
    (stopped : headerLineByte true c ch = .error stop) :
    (∃ c', stop = .headerDone c') ∧ hs = [] ∨
      ∃ c' h more, stop = .done c' ∧ hs = h :: more ∧ part ++ front = h.body ∧
        back ++ later = headerSection more := by
  obtain ⟨front', back', c₁, stop', section_eq, passed, stopped', which⟩ := section_stop hs r q
  have same : (part ++ front) ++ ch :: (back ++ later) = front' ++ lf :: back' := by
    rw [← section_eq, ← left, shape]
    simp only [List.append_assoc, List.cons_append]
  obtain ⟨rfl, -, rfl, rfl⟩ := foldlM_error_unique same folded stopped passed stopped'
  exact which

structure Rendering (memory : Nat → HeaderMemory) (p request : Nat) (all : List HeaderText)
    (s : HeaderRequest) (reads : List HeaderRead) : Prop where
  left : ∃ lines q part hs, Underway memory p lines q part s ∧
    part ++ s.ahead reads = headerSection hs ∧
    lines.filterMap lineHeader ++ hs.map HeaderText.pair = all.map HeaderText.pair
  arrives : ∀ read ∈ reads, read.Arrives
  request_start : s.requestStart = request

def Rendered (memory : Nat → HeaderMemory) (p request : Nat) (all : List HeaderText)
    (e : HeadersEnd) : Prop :=
  ∃ lines q part t, e = .processed t ∧ Finished memory p lines q part t ∧
    lines.filterMap lineHeader = all.map HeaderText.pair ∧ t.requestStart = request

theorem Rendering.top {all : List HeaderText} (rendering : Rendering memory p request all s reads) :
    match s.read reads with
    | .ends e => Rendered memory p request all e
    | .again later => Rendering memory p request all s later
    | .bytes t later => Rendering memory p request all t later := by
  obtain ⟨⟨lines, q, part, hs, under, left, found⟩, arrives, at_start⟩ := rendering
  have inside := under.inside
  have room := under.room
  have unfinished (nothing : s.ahead reads = []) : False := by
    rw [nothing, List.append_nil] at left
    obtain ⟨r, c, folded, -⟩ := under.cursor
    exact not_section hs (left ▸ folded)
  have input : ReadCase s reads (s.read reads) := read_cases inside room
  generalize s.read reads = x at input
  cases input with
  | full used =>
    refine (unfinished ?_).elim
    rw [HeaderRequest.ahead, cells_nil (by omega), show s.stop - s.b.last = 0 by omega,
      arriving_nowhere]
    rfl
  | waiting nothing used =>
    refine (unfinished ?_).elim
    rw [HeaderRequest.ahead, nothing, used, cells_nil (le_refl _)]
    rfl
  | failed member fails => exact (fails (arrives _ member)).elim
  | again reading same =>
    refine ⟨⟨lines, q, part, hs, under, by rw [same, left], found⟩, fun read member => ?_,
      at_start⟩
    exact arrives read (reading ▸ List.mem_cons_of_mem _ member)
  | old => exact ⟨⟨lines, q, part, hs, under, left, found⟩, arrives, at_start⟩
  | new reading used some fits same =>
    refine ⟨⟨lines, q, part, hs, under.received fits, by rw [same, left], found⟩,
      fun read member => ?_, at_start⟩
    exact arrives read (reading ▸ List.mem_cons_of_mem _ member)

theorem Rendering.turn {all : List HeaderText}
    (provided : ∀ k, (memory k).part = true ∧ (memory k).lowcaseKey ≠ none)
    (rendering : Rendering memory p request all s reads) :
    match s.parse (memory s.headers.elements.length) with
    | .ends e => Rendered memory p request all e
    | .goesOn _ t => Rendering memory p request all t reads := by
  obtain ⟨⟨lines, q, part, hs, under, left, found⟩, arrives, at_start⟩ := rendering
  have parsed := under.parse
  generalize s.parse (memory s.headers.elements.length) = x at parsed
  rw [HeaderRequest.ahead] at left
  cases parsed with
  | again next used last start same =>
    refine ⟨⟨lines, q, _, hs, next, ?_, found⟩, arrives, same.trans at_start⟩
    rw [HeaderRequest.ahead, used, cells_nil (le_refl _), List.nil_append, List.append_assoc, ← left,
      HeaderRequest.stop, HeaderRequest.stop, start, last]
  | line bytes folded done next rest last start same =>
    rcases stops_at left bytes folded done with ⟨⟨c', other⟩, -⟩ | ⟨c', h, more, -, rfl, body, later⟩
    · cases other
    · refine ⟨⟨_, _, [], more, next, ?_, ?_⟩, arrives, same.trans at_start⟩
      · rw [List.nil_append, HeaderRequest.ahead, rest, last, HeaderRequest.stop, start]
        exact later
      · rw [body, List.filterMap_append, List.append_assoc, ← found]
        simp [h.lineHeader_eq]
  | headerDone bytes folded stopped same finished =>
    rcases stops_at left bytes folded stopped with ⟨-, rfl⟩ | ⟨c', h, more, other, -⟩
    · refine ⟨lines, q, _, _, rfl, finished, ?_, same.trans at_start⟩
      rw [← found]
      exact (List.append_nil _).symm
    · cases other
  | invalid bytes folded refused =>
    rcases stops_at left bytes folded refused with ⟨⟨c', same⟩, -⟩ | ⟨c', h, more, same, -⟩
    · cases same
    · cases same
  | noMemory missing =>
    obtain ⟨part, block⟩ := provided (headersOf lines).length
    rcases missing with none | none
    · rw [part] at none
      cases none
    · exact (block none).elim

theorem Stored.pair_eq {bound : Nat} {e : TableElt} {h : Header}
    (stored : Stored memory mem bound e h) : e.pair mem = h.1 := by
  rw [TableElt.pair, stored.key_len, stored.value_len, stored.key.cells_eq,
    stored.value.split.1.cells_eq]

/-- The elements read back. -/
theorem Collected.pairs {bound : Nat} (collected : Collected memory lines bound t) :
    t.headers.elements.map (TableElt.pair t.b.mem) = lines.filterMap lineHeader := by
  have paired : List.Forall₂ (fun e h => e.pair t.b.mem = h.1) t.headers.elements
      (headersOf lines) := collected.stored.imp fun e h stored => stored.pair_eq
  have mapped : t.headers.elements.map (TableElt.pair t.b.mem) = (headersOf lines).map Prod.fst := by
    rw [← List.forall₂_eq_eq_eq, List.forall₂_map_left_iff, List.forall₂_map_right_iff]
    exact paired
  rw [mapped, headersOf, List.zipIdx_map_fst]

theorem done_position {mem : Nat → UInt8} {c : RequestLineCursor} {r : RequestLine} {p : Nat}
    (stopped : requestLineRound mem c = .error (.done r p)) : p = c.p := by
  obtain ⟨r₀, state, p₀⟩ := c
  cases state <;>
  · simp only [requestLineRound, RequestLine.invalid, RequestLine.expect] at stopped
    repeat' split at stopped
    all_goals cases stopped
    try rfl

theorem accepted_inside {r : RequestLine} {state : RequestLineState} {b : HeaderIn}
    (accepted : (parseRequestLine r state b).code = .ok) :
    (parseRequestLine r state b).b.pos ≤ (parseRequestLine r state b).b.last := by
  unfold parseRequestLine at accepted ⊢
  cases ran : run (requestLineRound b.mem) RequestLineCursor.p b.last ⟨r, state, b.pos⟩ with
  | ok c =>
    rw [ran] at accepted
    cases accepted
  | error stop =>
    cases stop with
    | done r' p' =>
      obtain ⟨c, -, before, stopped⟩ := run_stops (I := fun _ => True) round_forward
        (fun _ _ _ => trivial) trivial ran
      have at_p := done_position stopped
      change p' + 1 ≤ b.last
      omega
    | invalid code r' =>
      rw [ran] at accepted
      exact ((run_invalid ran).1 accepted).elim

/-- Where the handler enters the section. -/
theorem enter_underway {start : Nat} {call : RequestLineCall} (inside : call.b.pos ≤ call.b.last)
    (room : call.b.last ≤ start + clientHeaderBufferSize) :
    Underway memory call.b.pos [] call.b.pos [] (HeaderRequest.enter start call) where
  complete := nofun
  stored := .nil
  ordered := .nil
  upgrade := rfl
  key := rfl
  place := rfl
  position := rfl
  inside := inside
  room := room
  cursor := ⟨.fresh, .enter .fresh .start call.b.pos, rfl, rfl, rfl⟩
  holds := fun i inside => absurd inside (Nat.not_lt_zero i)
  length := rfl

/-- A rendered section that arrives after an accepted request line is processed. -/
theorem section_processed {start : Nat} {call : RequestLineCall} (inside : call.b.pos ≤ call.b.last)
    (provided : ∀ k, (memory k).part = true ∧ (memory k).lowcaseKey ≠ none)
    (arrives : ∀ read ∈ reads, read.Arrives)
    (received : cells call.b.mem call.b.pos call.b.last ++ reads.flatMap HeaderRead.bytes =
      headerSection hs)
    (fits : call.b.pos + (headerSection hs).length ≤ start + clientHeaderBufferSize) :
    ∃ n t lines q part, processRequestHeaders memory n true (.enter start call) reads =
        some (.processed t) ∧
      Finished memory call.b.pos lines q part t ∧ lines.filterMap lineHeader = hs.map HeaderText.pair ∧
      t.requestStart = call.r.requestStart := by
  have length := congrArg List.length received
  rw [List.length_append, cells_length] at length
  have room : call.b.last ≤ start + clientHeaderBufferSize := by omega
  have under : Underway memory call.b.pos [] call.b.pos [] (.enter start call) :=
    enter_underway inside room
  have rendering : Rendering memory call.b.pos call.r.requestStart hs (.enter start call) reads := by
    refine ⟨⟨[], call.b.pos, [], hs, under, ?_, rfl⟩, arrives, rfl⟩
    have later : arriving (start + clientHeaderBufferSize - call.b.last) reads =
        reads.flatMap HeaderRead.bytes := arriving_eq (by omega)
    rw [← received, ← later]
    rfl
  obtain ⟨e, ended⟩ := headers_return under reads true (Nat.lt_succ_self _)
  obtain ⟨lines, q, part, t, rfl, finished, found, at_start⟩ :=
    headers_run Rendering.top (Rendering.turn provided) rendering ended
  exact ⟨_, t, lines, q, part, ended, finished, found, at_start⟩

end RoundTrip

/-- A header section is read back from the buffer as it is at the end, in order, and counted. -/
theorem header_section_round_trip (memory : Nat → HeaderMemory) (start : Nat) (r : RequestLine)
    (state : RequestLineState) (b : HeaderIn) (hs : List HeaderText) (reads : List HeaderRead)
    (accepted : (parseRequestLine r state b).code = .ok)
    (provided : ∀ k, (memory k).part = true ∧ (memory k).lowcaseKey ≠ none)
    (arrives : ∀ read ∈ reads, read.Arrives)
    (received : cells (parseRequestLine r state b).b.mem (parseRequestLine r state b).b.pos
      (parseRequestLine r state b).b.last ++ reads.flatMap HeaderRead.bytes = headerSection hs)
    (fits : (parseRequestLine r state b).b.pos + (headerSection hs).length ≤
      start + clientHeaderBufferSize) :
    ∃ n t, processRequestHeaders memory n true (.enter start (parseRequestLine r state b)) reads =
        some (.processed t) ∧
      t.headers.elements.map (TableElt.pair t.b.mem) = hs.map HeaderText.pair ∧
      t.requestLength = t.b.pos - (parseRequestLine r state b).r.requestStart := by
  obtain ⟨n, t, lines, q, part, ended, finished, found, at_start⟩ :=
    section_processed (accepted_inside accepted) provided arrives received fits
  refine ⟨n, t, ended, ?_, ?_⟩
  · rw [finished.pairs, found]
  · rw [finished.length, at_start]

/-- A client that sends the first bytes of its only header with the request line. -/
theorem header_section_round_trip_host :
    let call := parseRequestLine .fresh .start
      (HeaderIn.received ⟨fun _ => 0, 0, 0⟩ (ascii "GET / HTTP/1.1\r\nHo"))
    let reads : List HeaderRead := [⟨⟨false, .again, true⟩, false⟩,
      ⟨⟨true, .data (ascii "st: a b \r\n\r\n"), true⟩, false⟩]
    ∃ n t, processRequestHeaders (fun _ => ⟨true, some fun _ => 0⟩) n true (.enter 0 call) reads =
        some (.processed t) ∧
      t.headers.elements.map (TableElt.pair t.b.mem) = [(ascii "Host", ascii "a b")] ∧
      t.requestLength = t.b.pos - call.r.requestStart := by
  intro call reads
  refine header_section_round_trip _ 0 _ _ _
    [⟨ascii "Host", 1, ascii "a b", 1, true, by decide, by decide +kernel,
      ⟨by decide +kernel, by decide, by decide⟩⟩]
    _ ?_ (fun _ => ⟨rfl, nofun⟩) ?_ ?_ ?_
  · decide +kernel
  · simp only [reads, List.forall_mem_cons]
    exact ⟨⟨rfl, rfl⟩, (by decide +kernel : ascii "st: a b \r\n\r\n" ≠ []), nofun⟩
  · decide +kernel
  · decide +kernel

end Ngx.Http
