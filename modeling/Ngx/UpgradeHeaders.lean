import Ngx.AcceptKey
import Ngx.HeaderRoundTrip
import Mathlib.Data.List.Forall2

/-! What a request is taken for an upgrade request by. Names and values are compared with the
words over the length of the word only: a longer one passes, and a shorter name is read on into
the memory behind its copy. -/
namespace Ngx.Http

open ByteLoop Resumable

def isUpgrade (h : List UInt8 × List UInt8) : Bool :=
  h.1.map tolower = upgradeName && h.2 = upgradeValue

def isKey (h : List UInt8 × List UInt8) : Bool := h.1.map tolower = keyName

def looksKey (memory : Nat → HeaderMemory) (h : Header) : Bool :=
  startsWith (keyMemory memory h) 0 keyName

def sectionHeaders (input : List UInt8) : List (List UInt8 × List UInt8) :=
  ((input.splitOn lf).takeWhile fun body => body ≠ [] ∧ body ≠ [cr]).filterMap
    fun body => lineHeader (body ++ [lf])

structure HeaderRequest.Recognizes (t : HeaderRequest) : Prop where
  upgrade : t.upgrade = true ↔ ∃ e ∈ t.headers.elements, isUpgrade (e.pair t.b.mem)
  key : t.secWebsocketKey = ((t.headers.elements.filter fun e =>
    isKey (e.pair t.b.mem)).getLast?).map fun e => e.value.data
  answered : ∀ sha1 block t', t.websocketHandler sha1 block = some (.answered t') →
    (∃ e ∈ t.headers.elements, isUpgrade (e.pair t.b.mem)) ∧
      ∃ e ∈ t.headers.elements, isKey (e.pair t.b.mem)

/-- Where a header looks like the upgrade header there is one, and the last header that looks like
the key is it. -/
structure NoLookalike (memory : Nat → HeaderMemory) (hs : List (List UInt8 × List UInt8)) : Prop where
  upgrade : (∃ h ∈ hs.zipIdx, looksUpgrade memory h) → ∃ h ∈ hs, isUpgrade h
  key : ∀ h, (hs.zipIdx.filter (looksKey memory)).getLast? = some h → isKey h.1

section Lists

variable {α β γ : Type*} {R : α → β → Prop} {xs : List α} {ys : List β} {p g : α → Bool}

theorem forall₂_getLast? (related : List.Forall₂ R xs ys) : Option.Rel R xs.getLast? ys.getLast? := by
  rw [← List.forall₂_reverse_iff] at related
  rw [← List.head?_reverse, ← List.head?_reverse]
  generalize xs.reverse = xs' at related ⊢
  generalize ys.reverse = ys' at related ⊢
  cases related with
  | nil => exact .none
  | cons first _ => exact .some first

/-- The last element with a property is the last one with a stronger property exactly when it has
that too. -/
theorem last_filter_iff {f : α → γ} (weaker : ∀ x ∈ xs, g x → p x)
    (injective : ∀ x ∈ xs, ∀ y ∈ xs, f x = f y → x = y) :
    (xs.filter p).getLast?.map f = (xs.filter g).getLast?.map f ↔
      ∀ x, (xs.filter p).getLast? = some x → g x := by
  have within : xs.filter g = (xs.filter p).filter g := by
    rw [List.filter_filter]
    refine List.filter_congr fun x member => ?_
    cases holds : g x with
    | false => rfl
    | true => rw [weaker x member holds]; rfl
  constructor
  · intro same x last
    rw [last, Option.map_some] at same
    obtain ⟨y, last', eq⟩ := Option.map_eq_some_iff.mp same.symm
    have member := List.mem_filter.mp (List.mem_of_getLast? last)
    have member' := List.mem_filter.mp (List.mem_of_getLast? last')
    rw [← injective y member'.1 x member.1 eq]
    exact member'.2
  · intro stronger
    cases last : (xs.filter p).getLast? with
    | none => rw [within, List.getLast?_eq_none_iff.mp last, List.filter_nil, List.getLast?_nil]
    | some x =>
      obtain ⟨front, shape⟩ := List.getLast?_eq_some_iff.mp last
      rw [within, shape, List.filter_append, List.filter_singleton, stronger x last]
      simp

end Lists

section Lines

variable {memory : Nat → HeaderMemory} {p : Nat} {input : List UInt8} {s t : HeaderRequest}
  {reads : List HeaderRead} {lines : List (List UInt8)} {part rest : List UInt8}

def Consumes (memory : Nat → HeaderMemory) (p : Nat) (input : List UInt8) (s : HeaderRequest)
    (reads : List HeaderRead) : Prop :=
  ∃ lines q part, Underway memory p lines q part s ∧
    lines.flatten ++ (part ++ s.ahead reads) = input

def Consumed (memory : Nat → HeaderMemory) (p : Nat) (input : List UInt8) (e : HeadersEnd) : Prop :=
  ∀ t, e = .processed t → ∃ lines q part rest, Finished memory p lines q part t ∧
    lines.flatten ++ (part ++ rest) = input

theorem Consumes.top (consumes : Consumes memory p input s reads) :
    match s.read reads with
    | .ends e => Consumed memory p input e
    | .again later => Consumes memory p input s later
    | .bytes t later => Consumes memory p input t later := by
  obtain ⟨lines, q, part, under, read⟩ := consumes
  have cases : ReadCase s reads (s.read reads) := read_cases under.inside under.room
  generalize s.read reads = x at cases
  cases cases with
  | full =>
    intro t ended
    cases ended
  | waiting =>
    intro t ended
    cases ended
  | failed =>
    intro t ended
    cases ended
  | again reading same => exact ⟨lines, q, part, under, by rw [same, read]⟩
  | old => exact ⟨lines, q, part, under, read⟩
  | new reading used some fits same =>
    exact ⟨lines, q, part, under.received fits, by rw [same, read]⟩

theorem Consumes.turn (consumes : Consumes memory p input s reads) :
    match s.parse (memory s.headers.elements.length) with
    | .ends e => Consumed memory p input e
    | .goesOn _ t => Consumes memory p input t reads := by
  obtain ⟨lines, q, part, under, read⟩ := consumes
  have parsed := under.parse
  generalize s.parse (memory s.headers.elements.length) = x at parsed
  rw [HeaderRequest.ahead] at read
  cases parsed with
  | again next used last start =>
    refine ⟨lines, q, _, next, ?_⟩
    rw [HeaderRequest.ahead, used, cells_nil (le_refl _), List.nil_append, List.append_assoc, ← read,
      HeaderRequest.stop, HeaderRequest.stop, start, last]
  | line bytes folded done next back last start =>
    refine ⟨_, _, [], next, ?_⟩
    rw [HeaderRequest.ahead, back, last, HeaderRequest.stop, start, ← read, bytes]
    simp [HeaderRequest.stop]
  | @headerDone front back t r c c' bytes folded stopped same finished =>
    rintro t ⟨⟩
    refine ⟨lines, q, _, back ++ arriving (s.stop - s.b.last) reads, finished, ?_⟩
    rw [← read, bytes]
    simp
  | invalid =>
    intro t ended
    cases ended
  | noMemory =>
    intro t ended
    cases ended

theorem CompleteLines.sectionHeaders_eq (complete : CompleteLines lines)
    (blank : part = [lf] ∨ part = [cr, lf]) :
    sectionHeaders (lines.flatten ++ (part ++ rest)) = lines.filterMap lineHeader := by
  induction lines with
  | nil =>
    rw [List.flatten_nil, List.nil_append, List.filterMap_nil, sectionHeaders]
    rcases blank with rfl | rfl
    · rw [List.singleton_append,
        ← List.nil_append (lf :: rest), List.splitOn_append_cons_self_of_not_mem List.not_mem_nil]
      rfl
    · have only : lf ∉ [cr] := by decide +kernel
      change ((([cr] ++ lf :: rest).splitOn lf).takeWhile _).filterMap _ = _
      rw [List.splitOn_append_cons_self_of_not_mem only]
      rfl
  | cons line lines ih =>
    obtain ⟨first, later⟩ := List.forall_mem_cons.mp complete
    obtain ⟨body, rfl, one, nonempty, carriage⟩ := first
    have shape : ((body ++ [lf]) :: lines).flatten ++ (part ++ rest) =
        body ++ lf :: (lines.flatten ++ (part ++ rest)) := by simp
    have ih := ih later
    rw [sectionHeaders] at ih
    rw [shape, sectionHeaders, List.splitOn_append_cons_self_of_not_mem one,
      List.takeWhile_cons_of_pos (by simp [nonempty, carriage]), List.filterMap_cons, ih]
    rfl

end Lines

section Words

variable {memory : Nat → HeaderMemory} {h : Header} {word : List UInt8}

theorem startsWith_self {mem : Nat → UInt8} {d : Nat} (holds : Holds mem d word) :
    startsWith mem d word = true := by
  rw [startsWith, holds.cells_eq, decide_eq_true_iff]

theorem isUpgrade_iff {pair : List UInt8 × List UInt8} :
    isUpgrade pair = true ↔ pair.1.map tolower = upgradeName ∧ pair.2 = upgradeValue := by
  simp [isUpgrade]

theorem isKey_iff {pair : List UInt8 × List UInt8} :
    isKey pair = true ↔ pair.1.map tolower = keyName := by
  simp [isKey]

theorem looksUpgrade_of (is : isUpgrade h.1 = true) : looksUpgrade memory h = true := by
  obtain ⟨name, value⟩ := isUpgrade_iff.mp is
  have first : startsWith (keyMemory memory h) 0 upgradeName = true :=
    startsWith_self (name ▸ keyMemory_holds)
  rw [looksUpgrade, first, value]
  rfl

theorem looksKey_of (is : isKey h.1 = true) : looksKey memory h = true :=
  startsWith_self (isKey_iff.mp is ▸ keyMemory_holds)

end Words

section Recognition

variable {memory : Nat → HeaderMemory} {lines : List (List UInt8)} {bound : Nat} {t : HeaderRequest}

theorem Collected.exists_iff (collected : Collected memory lines bound t)
    {p : List UInt8 × List UInt8 → Bool} :
    (∃ e ∈ t.headers.elements, p (e.pair t.b.mem)) ↔ ∃ h ∈ lines.filterMap lineHeader, p h := by
  rw [← collected.pairs]
  simp

theorem Collected.upgrade_iff (collected : Collected memory lines bound t) :
    (t.upgrade = true ↔ ∃ e ∈ t.headers.elements, isUpgrade (e.pair t.b.mem)) ↔
      ((∃ h ∈ (lines.filterMap lineHeader).zipIdx, looksUpgrade memory h) →
        ∃ h ∈ lines.filterMap lineHeader, isUpgrade h) := by
  have looks : t.upgrade = true ↔ ∃ h ∈ (lines.filterMap lineHeader).zipIdx, looksUpgrade memory h := by
    rw [collected.upgrade, headersOf, List.any_eq_true]
  have real : (∃ h ∈ lines.filterMap lineHeader, isUpgrade h) →
      ∃ h ∈ (lines.filterMap lineHeader).zipIdx, looksUpgrade memory h := by
    rintro ⟨h, member, is⟩
    obtain ⟨i, inside, rfl⟩ := List.mem_iff_getElem.mp member
    exact ⟨_, List.mk_mem_zipIdx_iff_getElem?.mpr (List.getElem?_eq_getElem inside), looksUpgrade_of is⟩
  rw [collected.exists_iff, looks]
  exact ⟨fun iff => iff.mp, fun only => ⟨only, real⟩⟩

/-- The last header that looks like the key, in the list and in the lines. -/
theorem Collected.last_key (collected : Collected memory lines bound t) :
    Option.Rel (Stored memory t.b.mem bound)
      (t.headers.elements.filter fun e => startsWith e.lowcaseKey 0 keyName).getLast?
      ((headersOf lines).filter (looksKey memory)).getLast? := by
  refine forall₂_getLast? (List.rel_filter (fun e h stored => ?_) collected.stored)
  change startsWith e.lowcaseKey 0 keyName = true ↔ startsWith (keyMemory memory h) 0 keyName = true
  rw [stored.lowcase]

theorem Collected.key_iff (collected : Collected memory lines bound t) :
    (t.secWebsocketKey = ((t.headers.elements.filter fun e =>
      isKey (e.pair t.b.mem)).getLast?).map fun e => e.value.data) ↔
      ∀ h, ((lines.filterMap lineHeader).zipIdx.filter (looksKey memory)).getLast? = some h →
        isKey h.1 := by
  have weaker : ∀ e ∈ t.headers.elements, isKey (e.pair t.b.mem) →
      startsWith e.lowcaseKey 0 keyName := by
    intro e member is
    obtain ⟨h, stored⟩ := collected.exists_header member
    rw [stored.pair_eq] at is
    rw [stored.lowcase]
    exact looksKey_of is
  have injective : ∀ e ∈ t.headers.elements, ∀ e' ∈ t.headers.elements,
      e.value.data = e'.value.data → e = e' := by
    have distinct : (t.headers.elements.map fun e => e.value.data).Nodup := by
      rw [List.Nodup, List.pairwise_map]
      exact collected.ordered.imp Nat.ne_of_lt
    exact fun e member e' member' => List.inj_on_of_nodup_map distinct member member'
  rw [collected.key, last_filter_iff weaker injective]
  have last := collected.last_key
  rw [headersOf] at last
  generalize (t.headers.elements.filter fun e => startsWith e.lowcaseKey 0 keyName).getLast? = x
    at last ⊢
  generalize ((lines.filterMap lineHeader).zipIdx.filter (looksKey memory)).getLast? = y at last ⊢
  cases last with
  | none => simp
  | some stored => simp [stored.pair_eq]

theorem Collected.recognizes_iff (collected : Collected memory lines bound t) :
    t.Recognizes ↔ NoLookalike memory (lines.filterMap lineHeader) := by
  constructor
  · rintro ⟨upgrade, key, -⟩
    exact ⟨collected.upgrade_iff.mp upgrade, collected.key_iff.mp key⟩
  · rintro ⟨upgrade, key⟩
    have exact_upgrade := collected.upgrade_iff.mpr upgrade
    have exact_key := collected.key_iff.mpr key
    refine ⟨exact_upgrade, exact_key, fun sha1 block t' answered => ?_⟩
    obtain ⟨is_upgrade, some_key⟩ := answered_requires answered
    refine ⟨exact_upgrade.mp is_upgrade, ?_⟩
    rw [exact_key, Option.isSome_map] at some_key
    obtain ⟨e, last⟩ := Option.isSome_iff_exists.mp some_key
    have member := List.mem_filter.mp (List.mem_of_getLast? last)
    exact ⟨e, member.1, member.2⟩

/-- A request that is found to carry both headers is answered with the value of the last one. -/
theorem Finished.answers {p q : Nat} {part : List UInt8} {h : Header} {sha1 : Sha1Ctx}
    {block : Nat → UInt8} (finished : Finished memory p lines q part t) (upgrade : t.upgrade = true)
    (last : ((headersOf lines).filter (looksKey memory)).getLast? = some h)
    (no_nul : ∀ b ∈ h.1.2, b ≠ 0) :
    ∃ t', t.websocketHandler sha1 (some block) = some (.answered t') ∧
      cells t'.b.mem t'.b.pos t'.b.last = switchingProtocols (acceptKey h.1.2) := by
  have related := finished.last_key
  have key := finished.key
  rw [last] at related
  generalize (t.headers.elements.filter fun e => startsWith e.lowcaseKey 0 keyName).getLast? = x
    at related key
  cases related with
  | @some e _ stored =>
    refine handler_answers (p := e.value.data) upgrade key stored.value no_nul ?_
    have value_end := stored.value_end
    have position := finished.position
    have inside := finished.inside
    omega

end Recognition

/-- The upgrade headers are recognized exactly when no other header looks like them. -/
theorem upgrade_headers_recognized_iff (memory : Nat → HeaderMemory) (start : Nat) (r : RequestLine)
    (state : RequestLineState) (b : HeaderIn) (n : Nat) (reads : List HeaderRead) (t : HeaderRequest)
    (accepted : (parseRequestLine r state b).code = .ok)
    (room : (parseRequestLine r state b).b.last ≤ start + clientHeaderBufferSize)
    (processed : processRequestHeaders memory n true (.enter start (parseRequestLine r state b))
      reads = some (.processed t)) :
    t.Recognizes ↔ NoLookalike memory (sectionHeaders
      ((HeaderRequest.enter start (parseRequestLine r state b)).ahead reads)) := by
  have under := @enter_underway memory start _ (accepted_inside accepted) room
  obtain ⟨lines, q, part, rest, finished, input⟩ :=
    headers_run Consumes.top Consumes.turn ⟨_, _, _, under, rfl⟩ processed t rfl
  rw [finished.recognizes_iff, ← finished.complete.sectionHeaders_eq finished.blank, input]
  rfl

/-- A request with an upgrade header and a key. -/
theorem upgrade_headers_recognized_both :
    let memory : Nat → HeaderMemory := fun _ => ⟨true, some fun _ => 0⟩
    let call := parseRequestLine .fresh .start (HeaderIn.received ⟨fun _ => 0, 0, 0⟩
      (ascii "GET / HTTP/1.1\r\nUpgrade: websocket\r\nSec-WebSocket-Key: x\r\n\r\n"))
    ∃ n t, processRequestHeaders memory n true (.enter 0 call) [] = some (.processed t) ∧
      t.Recognizes := by
  intro memory call
  have accepted : call.code = .ok := by decide +kernel
  have room : call.b.last ≤ 0 + clientHeaderBufferSize := by decide +kernel
  let hs : List HeaderText :=
    [⟨ascii "Upgrade", 1, ascii "websocket", 0, true, by decide +kernel, by decide +kernel,
        ⟨by decide +kernel, by decide +kernel, by decide +kernel⟩⟩,
      ⟨ascii "Sec-WebSocket-Key", 1, ascii "x", 0, true, by decide +kernel, by decide +kernel,
        ⟨by decide +kernel, by decide +kernel, by decide +kernel⟩⟩]
  have provided : ∀ k, (memory k).part = true ∧ (memory k).lowcaseKey ≠ none :=
    fun _ => ⟨rfl, nofun⟩
  have arrives : ∀ read ∈ ([] : List HeaderRead), read.Arrives := nofun
  have received : cells call.b.mem call.b.pos call.b.last ++ [] = headerSection hs := by
    decide +kernel
  have fits : call.b.pos + (headerSection hs).length ≤ 0 + clientHeaderBufferSize := by
    decide +kernel
  obtain ⟨n, t, lines, q, part, ended, -⟩ :=
    section_processed (accepted_inside accepted) provided arrives received fits
  refine ⟨n, t, ended, (upgrade_headers_recognized_iff _ 0 _ _ _ n [] t accepted room ended).mpr ?_⟩
  have headers : sectionHeaders ((HeaderRequest.enter 0 call).ahead []) = hs.map HeaderText.pair := by
    decide +kernel
  have last : ((hs.map HeaderText.pair).zipIdx.filter (looksKey memory)).getLast? =
      some ((ascii "Sec-WebSocket-Key", ascii "x"), 1) := by
    decide +kernel
  change NoLookalike memory (sectionHeaders ((HeaderRequest.enter 0 call).ahead []))
  rw [headers]
  refine ⟨fun _ => ⟨_, List.mem_cons_self, by decide +kernel⟩, fun h found => ?_⟩
  rw [last] at found
  cases found
  decide +kernel

/-- A request with neither of the headers, but two that look like them, is answered. -/
theorem lookalike_headers_answered :
    let memory : Nat → HeaderMemory := fun _ => ⟨true, some fun _ => 0⟩
    let call := parseRequestLine .fresh .start (HeaderIn.received ⟨fun _ => 0, 0, 0⟩ (ascii
      "GET / HTTP/1.1\r\nUpgrade-Insecure: websockets\r\nSec-WebSocket-Keys: x\r\n\r\n"))
    ∃ n t t', processRequestHeaders memory n true (.enter 0 call) [] = some (.processed t) ∧
      ¬ t.Recognizes ∧
      t.websocketHandler ⟨⟨0, 0, 0, 0, 0⟩, 0, fun _ => 0⟩ (some fun _ => 0) = some (.answered t') ∧
      ∀ e ∈ t.headers.elements, isUpgrade (e.pair t.b.mem) = false ∧
        isKey (e.pair t.b.mem) = false := by
  intro memory call
  have accepted : call.code = .ok := by decide +kernel
  let hs : List HeaderText :=
    [⟨ascii "Upgrade-Insecure", 1, ascii "websockets", 0, true, by decide +kernel, by decide +kernel,
        ⟨by decide +kernel, by decide +kernel, by decide +kernel⟩⟩,
      ⟨ascii "Sec-WebSocket-Keys", 1, ascii "x", 0, true, by decide +kernel, by decide +kernel,
        ⟨by decide +kernel, by decide +kernel, by decide +kernel⟩⟩]
  have provided : ∀ k, (memory k).part = true ∧ (memory k).lowcaseKey ≠ none :=
    fun _ => ⟨rfl, nofun⟩
  have arrives : ∀ read ∈ ([] : List HeaderRead), read.Arrives := nofun
  have received : cells call.b.mem call.b.pos call.b.last ++ [] = headerSection hs := by
    decide +kernel
  have fits : call.b.pos + (headerSection hs).length ≤ 0 + clientHeaderBufferSize := by
    decide +kernel
  obtain ⟨n, t, lines, q, part, ended, finished, found, -⟩ :=
    section_processed (accepted_inside accepted) provided arrives received fits
  have upgrade : t.upgrade = true := by
    rw [finished.upgrade, headersOf, found]
    decide +kernel
  have last : ((headersOf lines).filter (looksKey memory)).getLast? =
      some ((ascii "Sec-WebSocket-Keys", ascii "x"), 1) := by
    rw [headersOf, found]
    decide +kernel
  have neither : ∀ e ∈ t.headers.elements, isUpgrade (e.pair t.b.mem) = false ∧
      isKey (e.pair t.b.mem) = false := by
    have none : ∀ h ∈ hs.map HeaderText.pair, isUpgrade h = false ∧ isKey h = false := by
      decide +kernel
    intro e member
    refine none _ ?_
    rw [← found, ← finished.pairs]
    exact List.mem_map_of_mem member
  obtain ⟨t', answered, -⟩ := finished.answers upgrade last (by decide +kernel)
  refine ⟨n, t, t', ended, fun recognizes => ?_, answered, neither⟩
  obtain ⟨e, member, is⟩ := (recognizes.answered _ _ _ answered).1
  rw [(neither e member).1] at is
  cases is

end Ngx.Http
