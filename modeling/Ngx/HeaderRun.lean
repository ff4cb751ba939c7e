import Ngx.HeaderSection

/-! Runs of the loop past a header section. The input is made of complete lines, of the part of a
line that has been parsed, and of what is ahead; the headers in the lines stand in the list, with
their names and values in the buffer before the line that is being parsed. -/
namespace Ngx.Http

open ByteLoop Resumable

def arriving : Nat → List HeaderRead → List UInt8
  | _, [] => []
  | room, read :: reads =>
    match read.found with
    | .data bytes => bytes.take room ++ arriving (room - (bytes.take room).length) reads
    | _ => arriving room reads

def HeaderRequest.ahead (s : HeaderRequest) (reads : List HeaderRead) : List UInt8 :=
  cells s.b.mem s.b.pos s.b.last ++ arriving (s.stop - s.b.last) reads

/-- A name and a value, and the number of headers before them. -/
abbrev Header := (List UInt8 × List UInt8) × Nat

def keyMemory (memory : Nat → HeaderMemory) (h : Header) (k : Nat) : UInt8 :=
  (h.1.1.map tolower)[k]?.getD (((memory h.2).lowcaseKey.map (· k)).getD 0)

/-- The header `h` is in the list as `e`, and in the buffer before `bound`. -/
structure Stored (memory : Nat → HeaderMemory) (mem : Nat → UInt8) (bound : Nat) (e : TableElt)
    (h : Header) : Prop where
  key_len : e.key.len = h.1.1.length
  key : Holds mem e.key.data h.1.1
  key_end : e.key.data + h.1.1.length < bound
  value_len : e.value.len = h.1.2.length
  value : Holds mem e.value.data (h.1.2 ++ [0])
  value_end : e.value.data + h.1.2.length < bound
  hash : e.hash = (h.1.1.map tolower).foldl ngxHash 0
  lowcase : e.lowcaseKey = keyMemory memory h

def looksUpgrade (memory : Nat → HeaderMemory) (h : Header) : Bool :=
  startsWith (keyMemory memory h) 0 upgradeName && upgradeValue.isPrefixOf h.1.2

def CompleteLines (lines : List (List UInt8)) : Prop :=
  ∀ line ∈ lines, ∃ body, line = body ++ [lf] ∧ lf ∉ body ∧ body ≠ [] ∧ body ≠ [cr]

def headersOf (lines : List (List UInt8)) : List Header := (lines.filterMap lineHeader).zipIdx

structure Collected (memory : Nat → HeaderMemory) (lines : List (List UInt8)) (bound : Nat)
    (s : HeaderRequest) : Prop where
  complete : CompleteLines lines
  stored : List.Forall₂ (Stored memory s.b.mem bound) s.headers.elements (headersOf lines)
  ordered : s.headers.elements.Pairwise fun e e' => e.value.data < e'.value.data
  upgrade : s.upgrade = (headersOf lines).any (looksUpgrade memory)
  key : s.secWebsocketKey = ((s.headers.elements.filter fun e =>
    startsWith e.lowcaseKey 0 keyName).getLast?).map fun e => e.value.data

/-- A header section from `p` on, of which `lines` have been parsed, and `part` of the next line,
which begins at `q`. -/
structure Underway (memory : Nat → HeaderMemory) (p : Nat) (lines : List (List UInt8)) (q : Nat)
    (part : List UInt8) (s : HeaderRequest) : Prop extends Collected memory lines q s where
  place : q = p + lines.flatten.length
  position : s.b.pos = q + part.length
  inside : s.b.pos ≤ s.b.last
  room : s.b.last ≤ s.stop
  cursor : ∃ r c, part.foldlM (headerLineByte true) (.enter r .start q) = .ok c ∧
    c.written = s.line ∧ c.state = s.state
  holds : Holds s.b.mem q part
  length : s.requestLength = (q - s.requestStart : Int)

structure Finished (memory : Nat → HeaderMemory) (p : Nat) (lines : List (List UInt8)) (q : Nat)
    (part : List UInt8) (s : HeaderRequest) : Prop extends Collected memory lines q s where
  place : q = p + lines.flatten.length
  blank : part = [lf] ∨ part = [cr, lf]
  position : s.b.pos = q + part.length
  inside : s.b.pos ≤ s.stop
  length : s.requestLength = (s.b.pos - s.requestStart : Int)

inductive Parsed (memory : Nat → HeaderMemory) (p : Nat) (lines : List (List UInt8)) (q : Nat)
    (part : List UInt8) (s : HeaderRequest) : HeaderTurnEnd → Prop where
  | again {t : HeaderRequest}
      (under : Underway memory p lines q (part ++ cells s.b.mem s.b.pos s.b.last) t)
      (used : t.b.pos = t.b.last) (last : t.b.last = s.b.last) (start : t.start = s.start)
      (request : t.requestStart = s.requestStart) : Parsed memory p lines q part s (.goesOn true t)
  | line {front back : List UInt8} {t : HeaderRequest} {r : HeaderLine} {c c' : HeaderLineCursor}
      (bytes : cells s.b.mem s.b.pos s.b.last = front ++ lf :: back)
      (folded : (part ++ front).foldlM (headerLineByte true) (.enter r .start q) = .ok c)
      (done : headerLineByte true c lf = .error (.done c'))
      (under : Underway memory p (lines ++ [part ++ front ++ [lf]])
        (q + (part ++ front ++ [lf]).length) [] t)
      (rest : cells t.b.mem t.b.pos t.b.last = back) (last : t.b.last = s.b.last)
      (start : t.start = s.start) (request : t.requestStart = s.requestStart) :
      Parsed memory p lines q part s (.goesOn false t)
  | headerDone {front back : List UInt8} {t : HeaderRequest} {r : HeaderLine}
      {c c' : HeaderLineCursor} (bytes : cells s.b.mem s.b.pos s.b.last = front ++ lf :: back)
      (folded : (part ++ front).foldlM (headerLineByte true) (.enter r .start q) = .ok c)
      (stopped : headerLineByte true c lf = .error (.headerDone c'))
      (request : t.requestStart = s.requestStart)
      (finished : Finished memory p lines q (part ++ front ++ [lf]) t) :
      Parsed memory p lines q part s (.ends (.processed t))
  | invalid {front back : List UInt8} {ch : UInt8} {t : HeaderRequest} {r : HeaderLine}
      {c c' : HeaderLineCursor} (bytes : cells s.b.mem s.b.pos s.b.last = front ++ ch :: back)
      (folded : (part ++ front).foldlM (headerLineByte true) (.enter r .start q) = .ok c)
      (refused : headerLineByte true c ch = .error (.invalid c')) :
      Parsed memory p lines q part s (.ends (.finalized httpBadRequest t))
  | noMemory (missing : (memory (headersOf lines).length).part = false ∨
      (memory (headersOf lines).length).lowcaseKey = none) :
      Parsed memory p lines q part s (.ends (.closed httpInternalServerError))

section Headers

variable {memory : Nat → HeaderMemory} {mem mem' : Nat → UInt8} {bound bound' : Nat} {e : TableElt}
  {h : Header} {lines : List (List UInt8)} {line : List UInt8}

theorem keyMemory_holds : Holds (keyMemory memory h) 0 (h.1.1.map tolower) := by
  intro i inside
  rw [Nat.zero_add, keyMemory, List.getElem?_eq_getElem inside, Option.getD_some]

theorem startsWith_eq {d : Nat} {value word : List UInt8} (holds : Holds mem d (value ++ [0]))
    (no_nul : ∀ b ∈ word, b ≠ 0) : startsWith mem d word = word.isPrefixOf value := by
  induction word generalizing d value with
  | nil => simp [startsWith, cells]
  | cons b word ih =>
    obtain ⟨first, rest⟩ := List.forall_mem_cons.mp no_nul
    have step : startsWith mem d (b :: word) = (mem d == b && startsWith mem (d + 1) word) := by
      rw [startsWith, startsWith, List.length_cons, cells_cons (by omega),
        Nat.add_comm word.length 1, ← Nat.add_assoc]
      simp [Bool.beq_eq_decide_eq]
    rw [step]
    cases value with
    | nil =>
      have nul : mem d = 0 := holds.head.1
      simp [nul, Ne.symm first]
    | cons x value =>
      obtain ⟨at_d, later⟩ := holds.head
      rw [at_d, ih later rest, List.isPrefixOf_cons_cons, Bool.beq_comm]

theorem Stored.transfer (stored : Stored memory mem bound e h) (le : bound ≤ bound')
    (same : ∀ i < bound, mem' i = mem i) : Stored memory mem' bound' e h := by
  have key_end := stored.key_end
  have value_end := stored.value_end
  refine ⟨stored.key_len, fun i inside => ?_, by omega, stored.value_len, fun i inside => ?_,
    by omega, stored.hash, stored.lowcase⟩
  · rw [same _ (by omega)]
    exact stored.key i inside
  · have within := inside
    rw [List.length_append, List.length_singleton] at within
    rw [same _ (by omega)]
    exact stored.value i inside

theorem headersOf_concat :
    headersOf (lines ++ [line]) =
      headersOf lines ++ ((lineHeader line).map fun found => (found, (headersOf lines).length)).toList := by
  rw [headersOf, headersOf, List.filterMap_append, List.zipIdx_append]
  cases found : lineHeader line <;> simp [found]

theorem push_elements {α : Type} {memory : Bool} {x : α} {l l' : NgxList α}
    (pushed : l.push memory x = some l') : l'.elements = l.elements ++ [x] := by
  unfold NgxList.push at pushed
  split at pushed
  · split at pushed
    · cases pushed
      simp [NgxList.elements]
    · cases pushed
  · cases pushed
    simp [NgxList.elements]

theorem push_memory {α : Type} {x : α} (l : NgxList α) : ∃ l', l.push true x = some l' := by
  unfold NgxList.push
  split
  · exact ⟨_, rfl⟩
  · exact ⟨_, rfl⟩

end Headers

section Store

variable {memory : Nat → HeaderMemory} {q k : Nat} {body name value : List UInt8}
  {c : HeaderLineCursor} {mem : Nat → UInt8} {lines : List (List UInt8)} {s t : HeaderRequest}

/-- Where the name and the value are in a line, and the bytes that the NULs are written to. -/
theorem Field.places (field : Field q body name value c)
    (holds : Holds mem q (body ++ (List.replicate k cr ++ [lf]))) :
    Holds mem q name ∧ Holds mem c.r.headerStart value ∧ q + name.length ≤ c.r.headerStart ∧
      (value ≠ [] → q + name.length < c.r.headerStart) ∧
      c.r.headerStart + value.length < q + (body ++ (List.replicate k cr ++ [lf])).length := by
  rcases field.shape with ⟨rfl, rfl, start⟩ | ⟨n, m, rfl, start⟩
  · rw [start]
    refine ⟨holds.split.1, fun i inside => absurd inside (Nat.not_lt_zero i), Nat.le_refl _,
      fun nonempty => absurd rfl nonempty, ?_⟩
    simp only [List.length_append, List.length_singleton, List.length_nil]
    omega
  · rw [start]
    obtain ⟨at_name, at_colon⟩ := holds.split.1.split
    obtain ⟨-, at_value⟩ := at_colon.head.2.split
    rw [spaceRun, List.length_replicate] at at_value
    refine ⟨at_name, at_value.split.1, by omega, fun _ => by omega, ?_⟩
    simp only [List.length_append, List.length_cons, spaceRun, List.length_replicate]
    omega

/-- The lower-case key, from either source. -/
theorem Field.lowcaseKey_eq (field : Field q body name value c) (valid : c.r.invalidHeader = false)
    (holds : Holds mem q name) (block : Nat → UInt8) :
    lowcaseKey block c.written ⟨name.length, q⟩ mem =
      fun i => (name.map tolower)[i]?.getD (block i) := by
  funext i
  rw [field.named.invalid, Bool.not_eq_false'] at valid
  have hashed := field.named.hashed valid
  unfold lowcaseKey
  by_cases inside : i < name.length
  · have lowered : (name.map tolower)[i]? = some (tolower name[i]) := by
      rw [List.getElem?_map, List.getElem?_eq_getElem inside]
      rfl
    rw [if_pos inside, lowered, Option.getD_some]
    split
    next whole =>
      have short : name.length < lcHeaderLen := by
        change name.length = c.i.val at whole
        omega
      have taken := hashed.lowcase short
      have at_i := congrArg (fun l : List UInt8 => l[i]?) taken
      rw [lowered, List.getElem?_take_of_lt inside, Vector.getElem?_toList] at at_i
      change (c.r.lowcaseHeader[i]?).getD 0 = _
      rw [at_i, Option.getD_some]
    next => rw [holds i inside]
  · rw [if_neg inside, List.getElem?_eq_none (by rw [List.length_map]; omega), Option.getD_none]

def terminated (mem : Nat → UInt8) (i j : Nat) : Nat → UInt8 :=
  Function.update (Function.update mem i 0) j 0

theorem terminated_other {i j x : Nat} (first : x ≠ i) (second : x ≠ j) :
    terminated mem i j x = mem x := by
  rw [terminated, Function.update_of_ne second, Function.update_of_ne first]

def tableElt (block : Nat → UInt8) (mem : Nat → UInt8) (c : HeaderLineCursor) (q : Nat)
    (name value : List UInt8) : TableElt where
  hash := c.hash
  key := ⟨name.length, q⟩
  value := ⟨value.length, c.r.headerStart⟩
  lowcaseKey := lowcaseKey block c.written ⟨name.length, q⟩ mem

theorem Field.stored (field : Field q body name value c) (valid : c.r.invalidHeader = false)
    (holds : Holds mem q (body ++ (List.replicate k cr ++ [lf]))) {block : Nat → UInt8} {n : Nat}
    (given : (memory n).lowcaseKey = some block) :
    Stored memory (terminated mem (q + name.length) (c.r.headerStart + value.length))
      (q + (body ++ (List.replicate k cr ++ [lf])).length)
      (tableElt block (terminated mem (q + name.length) (c.r.headerStart + value.length)) c q
        name value) ((name, value), n) := by
  obtain ⟨at_name, at_value, apart, gap, inside⟩ := field.places holds
  have at_name : Holds (terminated mem (q + name.length) (c.r.headerStart + value.length)) q name := by
    intro i lt
    rw [terminated_other (by omega) (by omega)]
    exact at_name i lt
  refine ⟨rfl, at_name, ?_, rfl, ?_, inside, ?_, ?_⟩
  · change q + name.length < _
    omega
  · intro i lt
    change i < (value ++ [0]).length at lt
    rw [List.length_append, List.length_singleton] at lt
    change terminated mem _ _ (c.r.headerStart + i) = _
    by_cases last : i = value.length
    · subst last
      rw [terminated, Function.update_self, List.getElem_concat_length rfl]
    · have before : i < value.length := by omega
      have nonempty : value ≠ [] := List.ne_nil_of_length_pos (by omega)
      have := gap nonempty
      rw [terminated_other (by omega) (by omega), List.getElem_append_left before]
      exact at_value i before
  · rw [field.named.invalid, Bool.not_eq_false'] at valid
    exact (field.named.hashed valid).hash
  · change lowcaseKey block c.written ⟨name.length, q⟩ _ = _
    rw [field.lowcaseKey_eq valid at_name]
    funext i
    rw [keyMemory, given]
    rfl

theorem Field.store_eq (field : Field q body name value c) (line : s.line = c.written)
    (m : HeaderMemory) :
    s.store m = m.lowcaseKey.bind fun block =>
      let mem := terminated s.b.mem (q + name.length) (c.r.headerStart + value.length)
      let h := tableElt block mem c q name value
      (s.headers.push m.part h).map fun headers =>
        { s with
          b := { s.b with mem := mem }
          headers := headers
          upgrade := s.upgrade ||
            (startsWith h.lowcaseKey 0 upgradeName &&
              startsWith mem c.r.headerStart upgradeValue)
          secWebsocketKey :=
            if startsWith h.lowcaseKey 0 keyName then some c.r.headerStart
            else s.secWebsocketKey } := by
  have name_end : c.written.headerNameEnd - c.written.headerNameStart = name.length := by
    change c.r.headerNameEnd - c.r.headerNameStart = _
    rw [field.name_end, field.named.start, Nat.add_sub_cancel_left]
  have value_end : c.written.headerEnd - c.written.headerStart = value.length := by
    change c.r.headerEnd - c.r.headerStart = _
    rw [field.value_end, Nat.add_sub_cancel_left]
  have start : c.written.headerNameStart = q := field.named.start
  rw [HeaderRequest.store, line, name_end, value_end, start]
  rfl

theorem Field.complete (field : Field q body name value c) (complete : CompleteLines lines) :
    CompleteLines (lines ++ [body ++ (List.replicate k cr ++ [lf])]) := by
  have spaces (n : Nat) : lf ∉ spaceRun n := fun member =>
    absurd (List.eq_of_mem_replicate member) (by decide)
  have in_name : lf ∉ name := fun member =>
    absurd (field.named.line_ends lf member) (by decide)
  have in_value : lf ∉ value := fun member => (field.trimmed.bytes lf member).2.1 rfl
  have breaks : lf ∉ List.replicate k cr := fun member =>
    absurd (List.eq_of_mem_replicate member) (by decide)
  have shape : lf ∉ body ∧ ∃ rest, body = name ++ rest := by
    rcases field.shape with ⟨rfl, -, -⟩ | ⟨n, m, rfl, -⟩
    · exact ⟨in_name, [], (List.append_nil _).symm⟩
    · refine ⟨?_, _, rfl⟩
      simp only [List.mem_append, List.mem_cons, not_or]
      exact ⟨in_name, by decide, spaces n, in_value, spaces m⟩
  obtain ⟨in_body, rest, rfl⟩ := shape
  intro line member
  rcases List.mem_append.mp member with old | new
  · exact complete line old
  · rw [List.mem_singleton] at new
    refine ⟨name ++ rest ++ List.replicate k cr, by simp only [new, List.append_assoc], ?_, ?_, ?_⟩
    · rw [List.mem_append, not_or]
      exact ⟨in_body, breaks⟩
    · simp [field.named.nonempty]
    · cases first : name with
      | nil => exact (field.named.nonempty first).elim
      | cons b more =>
        rintro same
        injection same with same _
        have plain := field.named.line_ends b (first ▸ List.mem_cons_self)
        rw [same] at plain
        exact absurd plain (by decide)

structure HeaderRequest.Keeps (s t : HeaderRequest) : Prop where
  start : t.start = s.start
  state : t.state = s.state
  request_start : t.requestStart = s.requestStart
  length : t.requestLength = s.requestLength
  pos : t.b.pos = s.b.pos
  last : t.b.last = s.b.last

theorem Collected.exists_header (collected : Collected memory lines q s) {e : TableElt}
    (member : e ∈ s.headers.elements) : ∃ h, Stored memory s.b.mem q e h := by
  obtain ⟨i, inside, rfl⟩ := List.mem_iff_getElem.mp member
  exact ⟨_, collected.stored.get inside (collected.stored.length_eq ▸ inside)⟩

/-- A header that is stored joins those of the lines before it. -/
theorem Collected.store (collected : Collected memory lines q s)
    (field : Field q body name value c) (valid : c.r.invalidHeader = false)
    (holds : Holds s.b.mem q (body ++ (List.replicate k cr ++ [lf]))) (line : s.line = c.written)
    (stored : s.store (memory s.headers.elements.length) = some t) :
    Collected memory (lines ++ [body ++ (List.replicate k cr ++ [lf])])
        (q + (body ++ (List.replicate k cr ++ [lf])).length) t ∧
      (∀ i, q + (body ++ (List.replicate k cr ++ [lf])).length ≤ i → t.b.mem i = s.b.mem i) ∧
      s.Keeps t := by
  have count : (headersOf lines).length = s.headers.elements.length :=
    collected.stored.length_eq.symm
  obtain ⟨at_name, at_value, apart, gap, inside⟩ := field.places holds
  rw [field.store_eq line, Option.bind_eq_some_iff] at stored
  obtain ⟨block, given, stored⟩ := stored
  obtain ⟨headers, pushed, rfl⟩ := Option.map_eq_some_iff.mp stored
  have new := field.stored valid holds given
  have elements := push_elements pushed
  have headers_eq : headersOf (lines ++ [body ++ (List.replicate k cr ++ [lf])]) =
      headersOf lines ++ [((name, value), s.headers.elements.length)] := by
    rw [headersOf_concat, field.lineHeader_eq, valid, count]
    rfl
  refine ⟨⟨field.complete collected.complete, ?_, ?_, ?_, ?_⟩, fun i behind => ?_,
    ⟨rfl, rfl, rfl, rfl, rfl, rfl⟩⟩
  · rw [elements, headers_eq]
    refine List.rel_append ?_ (.cons new .nil)
    refine collected.stored.imp fun e h old => old.transfer (Nat.le_add_right q _) fun i before => ?_
    exact terminated_other (by omega) (by omega)
  · rw [elements, List.pairwise_append]
    refine ⟨collected.ordered, List.pairwise_singleton _ _, fun e member e' last => ?_⟩
    rw [List.mem_singleton] at last
    subst last
    obtain ⟨h, old⟩ := collected.exists_header member
    have before := old.value_end
    change e.value.data < c.r.headerStart
    omega
  · rw [headers_eq, List.any_append, List.any_cons, List.any_nil, Bool.or_false, ← collected.upgrade,
      looksUpgrade, ← new.lowcase, ← startsWith_eq new.value (by decide +kernel)]
    rfl
  · rw [elements, List.filter_append, List.filter_singleton]
    dsimp only
    split
    next looks =>
      rw [looks, cond_true, List.getLast?_concat]
      rfl
    next other =>
      rw [Bool.not_eq_true] at other
      rw [other, cond_false, List.append_nil, collected.key]
  · exact terminated_other (by omega) (by omega)

theorem Field.store_missing (field : Field q body name value c) (line : s.line = c.written)
    {m : HeaderMemory} (missing : s.store m = none) : m.part = false ∨ m.lowcaseKey = none := by
  rw [field.store_eq line] at missing
  cases given : m.lowcaseKey with
  | none => exact .inr rfl
  | some block =>
    refine .inl ?_
    rw [given] at missing
    have unpushed := Option.map_eq_none_iff.mp missing
    cases part : m.part with
    | false => rfl
    | true =>
      obtain ⟨l', pushed⟩ := push_memory s.headers
      rw [part, pushed] at unpushed
      cases unpushed

/-- A line without a header only moves the bound. -/
theorem Collected.skip (collected : Collected memory lines q s) (field : Field q body name value c)
    (invalid : c.r.invalidHeader = true) :
    Collected memory (lines ++ [body ++ (List.replicate k cr ++ [lf])])
      (q + (body ++ (List.replicate k cr ++ [lf])).length) s := by
  have same : headersOf (lines ++ [body ++ (List.replicate k cr ++ [lf])]) = headersOf lines := by
    rw [headersOf_concat, field.lineHeader_eq, invalid]
    exact List.append_nil _
  refine ⟨field.complete collected.complete, ?_, collected.ordered, ?_, collected.key⟩
  · rw [same]
    exact collected.stored.imp fun e h old => old.transfer (Nat.le_add_right q _) fun _ _ => rfl
  · rw [same]
    exact collected.upgrade

end Store

structure Begun (q : Nat) (part : List UInt8) (r : HeaderLine) (state : HeaderLineState)
    (b : HeaderIn) : Prop where
  position : b.pos = q + part.length
  inside : b.pos ≤ b.last
  cursor : ∃ r₀ c, part.foldlM (headerLineByte true) (.enter r₀ .start q) = .ok c ∧
    c.written = r ∧ c.state = state
  holds : Holds b.mem q part

inductive Called (q : Nat) (part : List UInt8) (b : HeaderIn) : HeaderLineCall → Prop where
  | again {r₀ : HeaderLine} {c : HeaderLineCursor}
      (folded : (part ++ cells b.mem b.pos b.last).foldlM (headerLineByte true)
        (.enter r₀ .start q) = .ok c) :
      Called q part b ⟨.again, c.written, c.state, { b with pos := b.last }⟩
  | done {front back : List UInt8} {r₀ : HeaderLine} {c c' : HeaderLineCursor}
      (bytes : cells b.mem b.pos b.last = front ++ lf :: back)
      (folded : (part ++ front).foldlM (headerLineByte true) (.enter r₀ .start q) = .ok c)
      (done : headerLineByte true c lf = .error (.done c')) :
      Called q part b ⟨.ok, c'.written, .start, { b with pos := c.p + 1 }⟩
  | headerDone {front back : List UInt8} {r₀ r : HeaderLine} {c c' : HeaderLineCursor}
      (bytes : cells b.mem b.pos b.last = front ++ lf :: back)
      (folded : (part ++ front).foldlM (headerLineByte true) (.enter r₀ .start q) = .ok c)
      (stopped : headerLineByte true c lf = .error (.headerDone c'))
      (blank : part ++ front = [] ∨ part ++ front = [cr]) (start : r.headerNameStart = q) :
      Called q part b
        ⟨.headerDone, r, .start, { b with pos := q + (part ++ front ++ [lf]).length }⟩
  | invalid {front back : List UInt8} {ch : UInt8} {r₀ r : HeaderLine} {state : HeaderLineState}
      {c c' : HeaderLineCursor} (bytes : cells b.mem b.pos b.last = front ++ ch :: back)
      (folded : (part ++ front).foldlM (headerLineByte true) (.enter r₀ .start q) = .ok c)
      (refused : headerLineByte true c ch = .error (.invalid c')) :
      Called q part b ⟨.invalidHeader, r, state, b⟩

section Call

variable {q : Nat} {part front back : List UInt8} {r r₀ : HeaderLine} {state : HeaderLineState}
  {b : HeaderIn} {c c' : HeaderLineCursor}

theorem Begun.entered (begun : Begun q part r state b)
    (folded : part.foldlM (headerLineByte true) (.enter r₀ .start q) = .ok c)
    (written : c.written = r) (at_state : c.state = state) :
    HeaderLineCursor.enter r state b.pos = c.reload ∧ c.p = b.pos := by
  have position : c.p = b.pos := by
    rw [begun.position]
    exact headerLineByte_moves.foldlM_pos folded
  rw [HeaderLineCursor.reload, written, at_state, position]
  exact ⟨rfl, rfl⟩

/-- A call, by what its bytes are. -/
theorem Begun.call (begun : Begun q part r state b) :
    Called q part b (parseHeaderLine r state b true) := by
  obtain ⟨r₀, c, folded, written, at_state⟩ := begun.cursor
  obtain ⟨entered, position⟩ := begun.entered folded written at_state
  have call := parseHeaderLine_eq r state b
  have related := foldlM_related (headerLineByte_alike (u := true)) (c := c.reload) (d := c) rfl
    (cells b.mem b.pos b.last)
  have inside := begun.inside
  rw [entered] at call
  generalize (cells b.mem b.pos b.last).foldlM (headerLineByte true) c.reload = x at related call
  cases ends : (cells b.mem b.pos b.last).foldlM (headerLineByte true) c with
  | ok c₁ =>
    rw [ends] at related
    cases related with
    | @ok d _ alike =>
      obtain ⟨fields, same_state, same_p⟩ := alike.fields
      have after : d.p = b.last := by
        rw [same_p, headerLineByte_moves.foldlM_pos ends, position, cells_length]
        omega
      dsimp only at call
      rw [after, fields, same_state] at call
      rw [call]
      exact .again (foldlM_append_ok.mpr ⟨c, folded, ends⟩)
  | error stop =>
    rw [ends] at related
    obtain ⟨front, ch, back, c₁, bytes, passed, stopped⟩ := foldlM_error.mp ends
    have whole := foldlM_append_ok.mpr ⟨c, folded, passed⟩
    have reads := reads_fold (reads_start r₀ q) whole
    have place : c₁.p = q + (part ++ front).length := reads.position
    have places := stop_position stopped
    cases related with
    | @error stop' _ alike =>
      cases stop with
      | done c' =>
        cases stop' with
        | done d =>
          obtain ⟨fields, -, same_p⟩ := HeaderLineCursor.Alike.fields (HeaderLineStop.done.inj alike)
          have at_p : d.p = c₁.p := same_p.trans (places.1 c' rfl)
          obtain ⟨rfl, -⟩ := reads_done reads stopped
          dsimp only at call
          rw [fields, at_p] at call
          rw [call]
          exact .done bytes whole stopped
        | _ => cases alike
      | headerDone c' =>
        cases stop' with
        | headerDone d =>
          obtain ⟨fields, -, same_p⟩ :=
            HeaderLineCursor.Alike.fields (HeaderLineStop.headerDone.inj alike)
          obtain ⟨rfl, empty, start⟩ := reads_headerDone reads stopped
          have names : d.written.headerNameStart = c'.written.headerNameStart := by rw [fields]
          have after : d.p + 1 = q + (part ++ front ++ [lf]).length := by
            rw [same_p, places.2 c' rfl, place, @List.length_append _ _ [lf], Nat.add_assoc]
            rfl
          dsimp only at call
          rw [after] at call
          rw [call]
          exact .headerDone bytes whole stopped empty (names.trans start)
        | _ => cases alike
      | invalid c' =>
        cases stop' with
        | invalid d =>
          rw [call]
          exact .invalid bytes whole stopped
        | _ => cases alike

/-- The line that a fold has found, and where the call stands behind it. -/
theorem line_field {line : List UInt8}
    (folded : line.foldlM (headerLineByte true) (.enter r .start q) = .ok c)
    (done : headerLineByte true c lf = .error (.done c')) :
    ∃ body name value k, line ++ [lf] = body ++ (List.replicate k cr ++ [lf]) ∧
      Field q body name value c' ∧ c.p + 1 = q + (line ++ [lf]).length := by
  have reads := reads_fold (reads_start r q) folded
  obtain ⟨-, body, name, value, k, shape, field⟩ := reads_done reads done
  refine ⟨body, name, value, k, ?_, field, ?_⟩
  · rw [← List.nil_append line, shape, List.append_assoc]
  · rw [reads.position, List.nil_append, List.length_append]
    rfl

/-- What memory holds when the line has ended. -/
theorem Begun.line_bytes (begun : Begun q part r state b)
    (bytes : cells b.mem b.pos b.last = front ++ lf :: back) :
    Holds b.mem q (part ++ front ++ [lf]) ∧ q + (part ++ front ++ [lf]).length ≤ b.last ∧
      cells b.mem (q + (part ++ front ++ [lf]).length) b.last = back := by
  have position := begun.position
  have length := congrArg List.length bytes
  rw [cells_length, List.length_append, List.length_cons] at length
  have whole : q + (part ++ front ++ [lf]).length = b.pos + (front.length + 1) := by
    simp only [List.length_append, List.length_singleton]
    omega
  refine ⟨?_, by omega, ?_⟩
  · have ahead : Holds b.mem b.pos (front ++ [lf] ++ back) :=
      cells_holds (by rw [bytes, List.append_assoc]; rfl)
    rw [List.append_assoc]
    exact begun.holds.append (position ▸ ahead.split.1)
  · rw [whole, cells_drop, bytes, List.drop_append]
    simp

end Call

section Turn

variable {memory : Nat → HeaderMemory} {p q : Nat} {lines : List (List UInt8)}
  {part front back : List UInt8} {s t : HeaderRequest} {r : HeaderLine} {c c' : HeaderLineCursor}

/-- The next line begins. -/
theorem Collected.next {line : List UInt8} (place : q = p + lines.flatten.length)
    (collected : Collected memory (lines ++ [line]) (q + line.length) t)
    (position : t.b.pos = q + line.length) (inside : t.b.pos ≤ t.b.last) (room : t.b.last ≤ t.stop)
    (state : t.state = .start) (length : t.requestLength = (t.b.pos - t.requestStart : Int)) :
    Underway memory p (lines ++ [line]) (q + line.length) [] t where
  toCollected := collected
  place := by
    rw [List.flatten_append, List.flatten_singleton, List.length_append, place, Nat.add_assoc]
  position := position
  inside := inside
  room := room
  cursor := ⟨t.line, .enter t.line .start (q + line.length), rfl, rfl, state.symm⟩
  holds := fun i inside => absurd inside (Nat.not_lt_zero i)
  length := by rw [length, position]

theorem Underway.begun (under : Underway memory p lines q part s) :
    Begun q part s.line s.state s.b :=
  ⟨under.position, under.inside, under.cursor, under.holds⟩

/-- The state after a call that returned `NGX_OK`, with the length of the line counted. -/
def HeaderRequest.counted (s : HeaderRequest) (c : HeaderLineCursor) (pos : Nat) : HeaderRequest :=
  { s with
    line := c.written
    state := .start
    b := { s.b with pos := pos }
    requestLength := s.requestLength + (pos - c.written.headerNameStart : Int) }

theorem Underway.parse_line (under : Underway memory p lines q part s)
    (bytes : cells s.b.mem s.b.pos s.b.last = front ++ lf :: back)
    (folded : (part ++ front).foldlM (headerLineByte true) (.enter r .start q) = .ok c)
    (done : headerLineByte true c lf = .error (.done c')) :
    Parsed memory p lines q part s
      (if c'.written.invalidHeader then .goesOn false (s.counted c' (c.p + 1))
      else match (s.counted c' (c.p + 1)).store (memory s.headers.elements.length) with
        | some t => .goesOn false t
        | none => .ends (.closed httpInternalServerError)) := by
  obtain ⟨body, name, value, k, line, field, place⟩ := line_field folded done
  obtain ⟨holds, ahead, rest⟩ := under.begun.line_bytes bytes
  rw [← place] at ahead rest
  have collected : Collected memory lines q (s.counted c' (c.p + 1)) :=
    ⟨under.complete, under.stored, under.ordered, under.upgrade, under.key⟩
  have start : c'.written.headerNameStart = q := field.named.start
  have counted : (s.counted c' (c.p + 1)).requestLength = (c.p + 1 : Nat) - s.requestStart := by
    change s.requestLength + ((c.p + 1 : Nat) - c'.written.headerNameStart : Int) = _
    rw [under.length, start]
    omega
  cases invalid : c'.written.invalidHeader with
  | true =>
    have skipped := collected.skip (k := k) field invalid
    rw [← line] at skipped
    exact .line bytes folded done (skipped.next under.place place ahead under.room rfl counted) rest
      rfl rfl rfl
  | false =>
    cases stored : (s.counted c' (c.p + 1)).store (memory s.headers.elements.length) with
    | none =>
      have missing := field.store_missing rfl stored
      rw [under.stored.length_eq] at missing
      exact .noMemory missing
    | some t =>
      rw [line] at holds
      obtain ⟨joined, same, keeps⟩ := collected.store field invalid holds rfl stored
      rw [← line] at joined same
      have pos : t.b.pos = c.p + 1 := keeps.pos
      have last : t.b.last = s.b.last := keeps.last
      have room := under.room
      refine .line bytes folded done (joined.next under.place (pos.trans place) ?_ ?_ keeps.state ?_) ?_
        last keeps.start keeps.request_start
      · omega
      · rw [last, HeaderRequest.stop, keeps.start]
        exact room
      · rw [keeps.length, counted, pos, keeps.request_start]
        rfl
      · rw [pos, last, ← rest]
        exact cells_congr_from fun i behind => same i (by omega)

/-- All bytes are used up inside the line. -/
theorem Underway.used_up (under : Underway memory p lines q part s)
    (folded : (part ++ cells s.b.mem s.b.pos s.b.last).foldlM (headerLineByte true)
      (.enter r .start q) = .ok c)
    (written : t.line = c.written) (state : t.state = c.state)
    (same : t = { s with line := t.line, state := t.state, b := { s.b with pos := s.b.last } }) :
    Underway memory p lines q (part ++ cells s.b.mem s.b.pos s.b.last) t := by
  have inside := under.inside
  have position := under.position
  have used : s.b.last = q + (part ++ cells s.b.mem s.b.pos s.b.last).length := by
    rw [List.length_append, cells_length]
    omega
  have joined : Holds s.b.mem q (part ++ cells s.b.mem s.b.pos s.b.last) :=
    under.holds.append (position ▸ cells_holds rfl)
  rw [same]
  exact ⟨⟨under.complete, under.stored, under.ordered, under.upgrade, under.key⟩, under.place, used,
    le_refl _, under.room, ⟨r, c, folded, written.symm, state.symm⟩, joined, under.length⟩

/-- The line is empty. -/
theorem Underway.finished (under : Underway memory p lines q part s)
    (bytes : cells s.b.mem s.b.pos s.b.last = front ++ lf :: back)
    (blank : part ++ front = [] ∨ part ++ front = [cr]) (start : t.line.headerNameStart = q)
    (same : t = { s with
      line := t.line
      state := t.state
      b := { s.b with pos := q + (part ++ front ++ [lf]).length }
      requestLength := s.requestLength +
        ((q + (part ++ front ++ [lf]).length : Nat) - t.line.headerNameStart : Int) }) :
    Finished memory p lines q (part ++ front ++ [lf]) t := by
  have count := congrArg List.length bytes
  have position := under.position
  have room := under.room
  have within : q + (part ++ front ++ [lf]).length ≤ s.stop := by
    simp only [cells_length, List.length_append, List.length_cons, List.length_nil] at count ⊢
    omega
  have length : s.requestLength +
      ((q + (part ++ front ++ [lf]).length : Nat) - t.line.headerNameStart : Int) =
        (q + (part ++ front ++ [lf]).length : Nat) - s.requestStart := by
    rw [under.length, start]
    omega
  have ending : part ++ front ++ [lf] = [lf] ∨ part ++ front ++ [lf] = [cr, lf] := by
    rcases blank with nothing | carriage
    · exact .inl (by rw [nothing]; rfl)
    · exact .inr (by rw [carriage]; rfl)
  rw [same]
  exact ⟨⟨under.complete, under.stored, under.ordered, under.upgrade, under.key⟩, under.place, ending,
    rfl, within, length⟩

/-- A turn that parses, by what its bytes are. -/
theorem Underway.parse (under : Underway memory p lines q part s) :
    Parsed memory p lines q part s (s.parse (memory s.headers.elements.length)) := by
  have called := under.begun.call
  rw [HeaderRequest.parse]
  generalize parseHeaderLine s.line s.state s.b true = call at called
  cases called with
  | again folded => exact .again (under.used_up folded rfl rfl rfl) rfl rfl rfl rfl
  | done bytes folded done => exact under.parse_line bytes folded done
  | headerDone bytes folded stopped blank start =>
    exact .headerDone bytes folded stopped rfl (under.finished bytes blank start rfl)
  | invalid bytes folded refused => exact .invalid bytes folded refused

end Turn

/-- The next event finds the read successful, or nothing there and the connection in time. -/
def HeaderRead.Arrives (read : HeaderRead) : Prop :=
  match read.found with
  | .again => read.readEvent = true ∧ read.timedout = false
  | .error => False
  | .data bytes => bytes ≠ []

inductive ReadCase (s : HeaderRequest) (reads : List HeaderRead) : HeaderInput → Prop where
  | full (used : s.b.pos = s.stop) :
      ReadCase s reads (.ends (.finalized httpInternalServerError s))
  | waiting (nothing : reads = []) (used : s.b.pos = s.b.last) :
      ReadCase s reads (.ends (.waiting s))
  | failed {rc : Int} {read : HeaderRead} (member : read ∈ reads) (fails : ¬ read.Arrives) :
      ReadCase s reads (.ends (.closed rc))
  | again {read : HeaderRead} {later : List HeaderRead} (reading : reads = read :: later)
      (same : s.ahead later = s.ahead reads) : ReadCase s reads (.again later)
  | old (pending : s.b.pos < s.b.last) : ReadCase s reads (.bytes s reads)
  | new {read : HeaderRead} {later : List HeaderRead} {piece : List UInt8}
      (reading : reads = read :: later) (used : s.b.pos = s.b.last) (some : piece ≠ [])
      (fits : piece.length ≤ s.stop - s.b.last)
      (same : HeaderRequest.ahead { s with b := s.b.received piece } later = s.ahead reads) :
      ReadCase s reads (.bytes { s with b := s.b.received piece } later)

section Reads

variable {memory : Nat → HeaderMemory} {p q : Nat} {lines : List (List UInt8)} {part : List UInt8}
  {s t : HeaderRequest} {reads : List HeaderRead}

theorem ahead_received (used : s.b.pos = s.b.last) (piece : List UInt8) :
    HeaderRequest.ahead { s with b := s.b.received piece } reads =
      piece ++ arriving (s.stop - s.b.last - piece.length) reads := by
  change cells (store s.b.mem s.b.last piece) s.b.pos (s.b.last + piece.length) ++
    arriving (s.stop - (s.b.last + piece.length)) reads = _
  rw [used, cells_store_piece, Nat.sub_sub]

theorem read_cases (inside : s.b.pos ≤ s.b.last) (room : s.b.last ≤ s.stop) :
    ReadCase s reads (s.read reads) := by
  unfold HeaderRequest.read
  split
  next used => exact .full used
  next unused =>
    split
    next pending => exact .old pending
    next past =>
      have used : s.b.pos = s.b.last := by omega
      cases reads with
      | nil => exact .waiting rfl used
      | cons read later =>
        dsimp only
        cases found : read.found with
        | again =>
          dsimp only
          have fails (event : read.readEvent = false ∨ read.timedout = true) : ¬ read.Arrives := by
            rw [HeaderRead.Arrives, found]
            rintro ⟨registered, intime⟩
            rcases event with event | event <;> simp_all
          split
          next event => exact .failed List.mem_cons_self (fails (.inl (by simpa using event)))
          · split
            next event => exact .failed List.mem_cons_self (fails (.inr event))
            · refine .again rfl ?_
              rw [HeaderRequest.ahead, HeaderRequest.ahead, arriving, found]
        | error =>
          refine .failed List.mem_cons_self ?_
          rw [HeaderRead.Arrives, found]
          exact id
        | data bytes =>
          dsimp only
          split
          next nothing =>
            refine .failed List.mem_cons_self ?_
            rw [HeaderRead.Arrives, found]
            rcases List.take_eq_nil_iff.mp nothing with none | empty
            · omega
            · exact not_not_intro empty
          next some =>
            refine .new rfl used some (List.length_take_le _ _) ?_
            rw [ahead_received used, HeaderRequest.ahead, arriving, found, used, cells_nil (le_refl _)]
            rfl

theorem Underway.received (under : Underway memory p lines q part s) {piece : List UInt8}
    (fits : piece.length ≤ s.stop - s.b.last) :
    Underway memory p lines q part { s with b := s.b.received piece } := by
  have position := under.position
  have inside := under.inside
  have room := under.room
  have same (i : Nat) (before : i < s.b.last) : store s.b.mem s.b.last piece i = s.b.mem i := by
    rw [Resumable.store, if_neg (by omega)]
  refine ⟨⟨under.complete, ?_, under.ordered, under.upgrade, under.key⟩, under.place, position, ?_,
    ?_, under.cursor, fun i lt => ?_, under.length⟩
  · refine under.stored.imp fun e h old => old.transfer (Nat.le_refl q) fun i before => ?_
    exact same i (by omega)
  · exact Nat.le_add_right_of_le inside
  · change s.b.last + piece.length ≤ s.stop
    omega
  · rw [← under.holds i lt]
    exact same _ (by omega)

/-- What every turn keeps holds until the loop ends. -/
theorem headers_run {I : HeaderRequest → List HeaderRead → Prop} {E : HeadersEnd → Prop}
    (top : ∀ {s reads}, I s reads → match s.read reads with
      | .ends e => E e
      | .again later => I s later
      | .bytes t later => I t later)
    (turn : ∀ {s reads}, I s reads → match s.parse (memory s.headers.elements.length) with
      | .ends e => E e
      | .goesOn _ t => I t reads)
    {n : Nat} {again : Bool} {e : HeadersEnd} (holds : I s reads)
    (ended : processRequestHeaders memory n again s reads = some e) : E e := by
  induction n generalizing again s reads with
  | zero => cases ended
  | succ n ih =>
    have parse {t : HeaderRequest} {later : List HeaderRead} (holds : I t later)
        (ended : (match t.parse (memory t.headers.elements.length) with
          | .ends e => some e
          | .goesOn again s => processRequestHeaders memory n again s later) = some e) : E e := by
      have goes := turn holds
      cases turned : t.parse (memory t.headers.elements.length) with
      | ends e' =>
        rw [turned] at goes ended
        cases ended
        exact goes
      | goesOn again s =>
        rw [turned] at goes ended
        exact ih goes ended
    rw [processRequestHeaders] at ended
    cases again with
    | false => exact parse holds ended
    | true =>
      have goes := top holds
      rw [if_pos rfl] at ended
      cases input : s.read reads with
      | ends e' =>
        rw [input] at goes ended
        cases ended
        exact goes
      | again later =>
        rw [input] at goes ended
        exact ih goes ended
      | bytes t later =>
        rw [input] at goes ended
        exact parse goes ended

/-- The loop returns, whatever it reads. -/
theorem headers_return (under : Underway memory p lines q part s) (reads : List HeaderRead)
    (again : Bool) {n : Nat}
    (enough : 2 * (s.stop - s.b.pos) + 2 * reads.length + (if again then 0 else 1) < n) :
    ∃ e, processRequestHeaders memory n again s reads = some e := by
  induction n generalizing again s reads lines q part with
  | zero => exact absurd enough (Nat.not_lt_zero _)
  | succ n ih =>
    have parse {t : HeaderRequest} {later : List HeaderRead}
        (under : Underway memory p lines q part t)
        (enough : 2 * (t.stop - t.b.pos) + 2 * later.length +
          (if t.b.pos < t.b.last then 0 else 1) < n + 1) :
        ∃ e, (match t.parse (memory t.headers.elements.length) with
          | .ends e => some e
          | .goesOn again s => processRequestHeaders memory n again s later) = some e := by
      have inside := under.inside
      have room := under.room
      have position := under.position
      have parsed := under.parse
      generalize t.parse (memory t.headers.elements.length) = turned at parsed
      cases parsed with
      | @again t' next used last start request =>
        have stop : t'.stop = t.stop := congrArg (· + clientHeaderBufferSize) start
        refine ih next later true ?_
        rw [if_pos rfl, stop, used, last]
        split at enough <;> omega
      | @line front back t' r c c' bytes folded done next rest last start request =>
        have stop : t'.stop = t.stop := congrArg (· + clientHeaderBufferSize) start
        have further := next.position
        have inside' := next.inside
        simp only [List.length_append, List.length_singleton, List.length_nil] at further
        refine ih next later false ?_
        rw [if_neg Bool.false_ne_true, stop]
        split at enough <;> omega
      | headerDone => exact ⟨_, rfl⟩
      | invalid => exact ⟨_, rfl⟩
      | noMemory => exact ⟨_, rfl⟩
    rw [processRequestHeaders]
    cases again with
    | false =>
      refine parse under ?_
      rw [if_neg Bool.false_ne_true] at enough
      split <;> omega
    | true =>
      rw [if_pos rfl] at enough ⊢
      have input : ReadCase s reads (s.read reads) := read_cases under.inside under.room
      generalize s.read reads = x at input
      cases input with
      | full => exact ⟨_, rfl⟩
      | waiting => exact ⟨_, rfl⟩
      | failed => exact ⟨_, rfl⟩
      | again reading =>
        refine ih under _ true ?_
        rw [reading, List.length_cons] at enough
        rw [if_pos rfl]
        omega
      | old pending =>
        refine parse under ?_
        rw [if_pos pending]
        omega
      | @new read later piece reading used some fits same =>
        refine parse (under.received fits) ?_
        have length := List.length_pos_of_ne_nil some
        have pending : s.b.pos < s.b.last + piece.length := by omega
        change 2 * (s.stop - s.b.pos) + 2 * later.length +
          (if s.b.pos < s.b.last + piece.length then 0 else 1) < n + 1
        rw [reading, List.length_cons] at enough
        rw [if_pos pending]
        omega

end Reads

end Ngx.Http
