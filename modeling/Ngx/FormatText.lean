import Ngx.SprintfNum

/-! Formats made of bytes and complete directives, and the one text that each of them prints
whatever the limit is. -/
namespace Ngx.Sprintf

open BoundedText

/-- The flags `u`, `m`, `X`, `x` and `*`. -/
inductive Flag where
  | unsigned
  | maxWidth
  | upperHex
  | hex
  | slen
  deriving DecidableEq, Repr

def Flag.letter : Flag → UInt8
  | .unsigned => 'u'.toUInt8
  | .maxWidth => 'm'.toUInt8
  | .upperHex => 'X'.toUInt8
  | .hex => 'x'.toUInt8
  | .slen => '*'.toUInt8

/-- A complete directive: after the `%` a width, the flags, digits after a point, and a letter that
none of these can be taken for, other than the `f`. -/
structure Directive where
  width : List UInt8
  flags : List Flag
  frac : Option (List UInt8)
  letter : UInt8
  width_digits : ∀ ch ∈ width, Decimal.isDigit ch = true
  frac_digits : ∀ ds, frac = some ds → ∀ ch ∈ ds, Decimal.isDigit ch = true
  letter_not_digit : Decimal.isDigit letter = false
  letter_plain : letter ∉ 0 :: ascii "umXx.*f"

def Directive.bytes (d : Directive) : List UInt8 :=
  '%'.toUInt8 :: (d.width ++ d.flags.map Flag.letter ++
    (match d.frac with | none => [] | some ds => '.'.toUInt8 :: ds) ++ [d.letter])

inductive Piece where
  | literal (ch : UInt8) (plain : ch ≠ 0 ∧ ch ≠ '%'.toUInt8)
  | directive (d : Directive)

def Piece.bytes : Piece → List UInt8
  | .literal ch _ => [ch]
  | .directive d => d.bytes

/-- The arguments that a letter takes. A `u_char *` has as many bytes as `slen` says, or a NUL. -/
inductive Takes (letter : UInt8) (slen : UInt64) : List Arg → Prop where
  | str (v : List UInt8) (eq : letter = 'V'.toUInt8) : Takes letter slen [.str v]
  | terminated (p : List UInt8) (eq : letter = 's'.toUInt8) (unset : slen = noLen)
      (nul : 0 ∈ p) : Takes letter slen [.chars p]
  | counted (p : List UInt8) (eq : letter = 's'.toUInt8) (set : slen ≠ noLen)
      (readable : slen.toNat ≤ p.length) : Takes letter slen [.chars p]
  | word (w : UInt64) (mem : letter ∈ ascii "OTzilLArp") : Takes letter slen [.word w]
  | int (w : UInt32) (mem : letter ∈ ascii "PdDc") : Takes letter slen [.int w]
  | none (not_mem : letter ∉ ascii "VsOTzilLArpPdDc") : Takes letter slen []

/-- The arguments of a directive: one for each `*`, of which the last counts, and those of its
letter. -/
inductive Directive.Takes (d : Directive) : List Arg → Prop where
  | intro (slens : List UInt64) (own : List Arg) (count : slens.length = d.flags.count .slen)
      (takes : Sprintf.Takes d.letter (slens.getLastD noLen) own) :
      Directive.Takes d (slens.map .word ++ own)

inductive Matches : List Piece → List Arg → Prop where
  | nil (args : List Arg) : Matches [] args
  | literal {ps : List Piece} {args : List Arg} (ch : UInt8) (plain : ch ≠ 0 ∧ ch ≠ '%'.toUInt8)
      (rest : Matches ps args) : Matches (.literal ch plain :: ps) args
  | directive {ps : List Piece} {args taken : List Arg} (d : Directive) (takes : d.Takes taken)
      (rest : Matches ps args) : Matches (.directive d :: ps) (taken ++ args)

theorem scanNumber_append (n : UInt64) {ds rest : List UInt8}
    (digits : ∀ ch ∈ ds, Decimal.isDigit ch = true)
    (stops : ∀ ch, rest.head? = some ch → Decimal.isDigit ch = false) :
    (scanNumber n (ds ++ rest)).2 = rest := by
  induction ds generalizing n with
  | nil =>
    cases rest with
    | nil => rfl
    | cons ch rest => simp [scanNumber, stops ch rfl]
  | cons ch ds ih =>
    rw [List.cons_append, scanNumber, if_pos (digits ch List.mem_cons_self)]
    exact ih _ fun ch member => digits ch (List.mem_cons_of_mem _ member)

/-- The flags are read up to the letter, and each `*` takes an argument. -/
theorem scanFlags_flags (l : Locals) (flags : List Flag) (slens : List UInt64) (rest : List UInt8)
    (args : List Arg) (count : slens.length = flags.count .slen) :
    ∃ l', l'.slen = slens.getLastD l.slen ∧
      scanFlags l (slens.map .word ++ args) (flags.map Flag.letter ++ rest) =
        scanFlags l' args rest := by
  induction flags generalizing l slens with
  | nil =>
    obtain rfl : slens = [] := List.eq_nil_of_length_eq_zero count
    exact ⟨l, rfl, rfl⟩
  | cons flag flags ih =>
    cases flag with
    | slen =>
      cases slens with
      | nil => simp at count
      | cons slen slens =>
        obtain ⟨l', eq, scanned⟩ := ih { l with slen := slen } slens (by simpa using count)
        exact ⟨l', by rwa [List.getLastD_cons], scanned⟩
    | unsigned =>
      exact ih { l with sign := false } slens (by simpa using count)
    | maxWidth =>
      exact ih { l with maxWidth := true } slens (by simpa using count)
    | upperHex =>
      exact ih { l with hex := 2, sign := false } slens (by simpa using count)
    | hex =>
      exact ih { l with hex := 1, sign := false } slens (by simpa using count)

theorem Flag.letter_not_digit (flag : Flag) : Decimal.isDigit flag.letter = false := by
  cases flag <;> decide

/-- The flags end where the letter stands, behind a point or not. -/
theorem scanFlags_letter (l : Locals) (args : List Arg) (d : Directive) (rest : List UInt8) :
    scanFlags l args ((match d.frac with | none => [] | some ds => '.'.toUInt8 :: ds) ++
      d.letter :: rest) = some (l, d.letter :: rest, args) := by
  have plain := d.letter_plain
  have letters : (0 :: ascii "umXx.*f") = [0, 'u'.toUInt8, 'm'.toUInt8, 'X'.toUInt8, 'x'.toUInt8,
    '.'.toUInt8, '*'.toUInt8, 'f'.toUInt8] := rfl
  simp only [letters, List.mem_cons, List.not_mem_nil, or_false, not_or] at plain
  cases frac : d.frac with
  | none => simp only [List.nil_append, scanFlags, plain, if_false]
  | some ds =>
    have stops : ∀ ch, (d.letter :: rest).head? = some ch → Decimal.isDigit ch = false := by
      simpa using d.letter_not_digit
    have skipped := scanNumber_append 0 (d.frac_digits ds frac) stops
    have point : scanFlags l args ('.'.toUInt8 :: (ds ++ d.letter :: rest)) =
        some (l, (scanNumber 0 (ds ++ d.letter :: rest)).2, args) := rfl
    rw [List.cons_append, point, skipped]

theorem scanDirective_bytes (d : Directive) (slens : List UInt64) (rest : List UInt8)
    (args : List Arg) (count : slens.length = d.flags.count .slen) :
    ∃ l, l.slen = slens.getLastD noLen ∧
      scanDirective (d.bytes.tail ++ rest) (slens.map .word ++ args) =
        some (l, d.letter :: rest, args) := by
  let frac := match d.frac with | none => [] | some ds => '.'.toUInt8 :: ds
  have shape : d.bytes.tail ++ rest =
      d.width ++ (d.flags.map Flag.letter ++ (frac ++ d.letter :: rest)) := by
    simp [Directive.bytes, frac]
  have stops : ∀ ch, (d.flags.map Flag.letter ++ (frac ++ d.letter :: rest)).head? = some ch →
      Decimal.isDigit ch = false := by
    intro ch first
    cases flags : d.flags with
    | nil =>
      cases given : d.frac with
      | none =>
        simp only [flags, frac, given, List.map_nil, List.nil_append, List.head?_cons,
          Option.some.injEq] at first
        exact first ▸ d.letter_not_digit
      | some ds =>
        simp only [flags, frac, given, List.map_nil, List.nil_append, List.cons_append,
          List.head?_cons, Option.some.injEq] at first
        exact first ▸ rfl
    | cons flag flags' =>
      simp only [flags, List.map_cons, List.cons_append, List.head?_cons,
        Option.some.injEq] at first
      exact first ▸ flag.letter_not_digit
  rw [shape, scanDirective]
  obtain ⟨l, slen, scanned⟩ := scanFlags_flags
    ⟨if (d.width ++ (d.flags.map Flag.letter ++ (frac ++ d.letter :: rest))).head? =
        some '0'.toUInt8 then '0'.toUInt8 else ' '.toUInt8,
      (scanNumber 0 (d.width ++ (d.flags.map Flag.letter ++ (frac ++ d.letter :: rest)))).1,
      true, 0, false, noLen⟩ d.flags slens (frac ++ d.letter :: rest) args count
  refine ⟨l, slen, ?_⟩
  simp only [scanNumber_append 0 d.width_digits stops]
  exact scanned.trans (scanFlags_letter l args d rest)

def Number.text (n : Number) : List UInt8 :=
  let l := n.locals
  if l.sign = true ∧ n.i64 < 0 then
    '-'.toUInt8 :: numberText (-n.i64).toUInt64 l.zero l.hex l.width
  else numberText (if l.sign then n.i64.toUInt64 else n.ui64) l.zero l.hex l.width

theorem printNumber_prints (n : Number) : PrintsBefore (printNumber n) n.text := by
  obtain ⟨i64, ui64, l⟩ := n
  intro last o room
  cases sign : l.sign with
  | false =>
    have printed := (sprintfNum_prints ui64 l.zero l.hex l.width).before last o room
    simpa [printNumber, Number.text, sign] using printed
  | true =>
    by_cases negative : i64 < 0
    · have printed :=
        (sprintfNum_prints (-i64).toUInt64 l.zero l.hex l.width).cons '-'.toUInt8 last o room
      simpa only [printNumber, Number.text, sign, negative, if_true, and_self] using printed
    · have printed := (sprintfNum_prints i64.toUInt64 l.zero l.hex l.width).before last o room
      simpa only [printNumber, Number.text, sign, negative, if_true, if_false, and_false]
        using printed

theorem takeNumber_word (l : Locals) (w : UInt64) {letter : UInt8}
    (mem : letter ∈ ascii "OTzilLArp") :
    ∃ n, ∀ args, takeNumber l letter (.word w :: args) = some (n, args) := by
  have letters : ascii "OTzilLArp" = ['O'.toUInt8, 'T'.toUInt8, 'z'.toUInt8, 'i'.toUInt8,
    'l'.toUInt8, 'L'.toUInt8, 'A'.toUInt8, 'r'.toUInt8, 'p'.toUInt8] := rfl
  simp only [letters, List.mem_cons, List.not_mem_nil, or_false] at mem
  rcases mem with rfl | rfl | rfl | rfl | rfl | rfl | rfl | rfl | rfl
  all_goals exact ⟨_, fun _ => rfl⟩

theorem takeNumber_int (l : Locals) (w : UInt32) {letter : UInt8} (mem : letter ∈ ascii "PdD") :
    ∃ n, ∀ args, takeNumber l letter (.int w :: args) = some (n, args) := by
  have letters : ascii "PdD" = ['P'.toUInt8, 'd'.toUInt8, 'D'.toUInt8] := rfl
  simp only [letters, List.mem_cons, List.not_mem_nil, or_false] at mem
  rcases mem with rfl | rfl | rfl
  all_goals exact ⟨_, fun _ => rfl⟩

theorem copyString_eq {p : List UInt8} (nul : 0 ∈ p) {last : Nat} (o : Out)
    (room : o.buf ≤ last) :
    copyString last o p = some (o.copy ((p.takeWhile (· ≠ 0)).take (last - o.buf))) := by
  induction p generalizing o with
  | nil => simp at nul
  | cons ch p ih =>
    by_cases ends : ch = 0
    · simp [copyString, ends]
    · by_cases before : o.buf < last
      · have rest := ih (by simpa [Ne.symm ends] using nul) (o.put ch) before
        have limit : last - o.buf = last - (o.put ch).buf + 1 := by
          rw [Out.put_buf]
          omega
        simpa [copyString, ends, before, limit] using rest
      · have full : last - o.buf = 0 := by omega
        simp [copyString, before, full]

theorem convert_string (l : Locals) (p : List UInt8) (args : List Arg) (last : Nat) (o : Out) :
    convert l 's'.toUInt8 (.chars p :: args) last o =
      if l.slen = noLen then (copyString last o p).map (·, args)
      else if p.length < min (last - o.buf) l.slen.toNat then none
      else some (o.copy (p.take (min (last - o.buf) l.slen.toNat)), args) := rfl

theorem convert_number {l : Locals} {letter : UInt8} {taken args : List Arg} {n : Number}
    (mem : letter ∈ ascii "OPTzidlDLArp") (takes : takeNumber l letter taken = some (n, args))
    (last : Nat) (o : Out) :
    convert l letter taken last o = (printNumber n last o).map (·, args) := by
  have not_str : letter ≠ 'V'.toUInt8 := fun eq => absurd (eq ▸ mem) (by decide)
  have not_chars : letter ≠ 's'.toUInt8 := fun eq => absurd (eq ▸ mem) (by decide)
  unfold convert
  rw [if_neg not_str, if_neg not_chars, if_pos mem, takes, Option.bind_some]

theorem mem_of_all {xs ys : List UInt8} (all : xs.all (ys.contains ·) = true) {ch : UInt8}
    (mem : ch ∈ xs) : ch ∈ ys :=
  List.contains_iff_mem.mp (List.all_eq_true.mp all ch mem)

/-- The letters that write one byte without a look at the limit. -/
theorem convert_byte (l : Locals) {letter : UInt8} (not_mem : letter ∉ ascii "VsOTzilLArpPdDc")
    (plain : letter ≠ 'f'.toUInt8) :
    ∃ ch, ∀ args last o, convert l letter args last o = some (o.put ch, args) := by
  have not_str : letter ≠ 'V'.toUInt8 := fun eq => not_mem (eq ▸ by decide)
  have not_chars : letter ≠ 's'.toUInt8 := fun eq => not_mem (eq ▸ by decide)
  have not_number : letter ∉ ascii "OPTzidlDLArp" := fun mem => not_mem (mem_of_all (by decide) mem)
  have not_char : letter ≠ 'c'.toUInt8 := fun eq => not_mem (eq ▸ by decide)
  by_cases zero : letter = 'Z'.toUInt8
  · exact ⟨0, fun args last o => by subst zero; rfl⟩
  · by_cases line : letter = 'N'.toUInt8
    · exact ⟨'\n'.toUInt8, fun args last o => by subst line; rfl⟩
    · refine ⟨letter, fun args last o => ?_⟩
      simp only [convert, not_str, not_chars, not_number, plain, not_char, zero, line, if_false]
      split
      · rename_i percent
        rw [percent]
      · rfl

theorem put_prints (ch : UInt8) : PrintsBefore (fun _ o => some (o.put ch)) [ch] :=
  Prints.nil.cons ch

/-- Each letter prints one text, cut off at the limit, and takes its arguments. -/
theorem convert_prints (l : Locals) {letter : UInt8} {own : List Arg}
    (takes : Takes letter l.slen own) (plain : letter ≠ 'f'.toUInt8) :
    ∃ text : List UInt8, ∀ args last o, o.buf < last →
      convert l letter (own ++ args) last o =
        some (o.copy (text.take (last - o.buf)), args) := by
  cases takes with
  | str v eq =>
    rw [eq]
    refine ⟨v, fun args last o room => ?_⟩
    have clip : v.take (min (last - o.buf) v.length) = v.take (last - o.buf) := by
      rw [List.take_eq_take_iff]
      omega
    exact congrArg (fun text => some (o.copy text, args)) clip
  | terminated p eq unset nul =>
    rw [eq]
    refine ⟨p.takeWhile (· ≠ 0), fun args last o room => ?_⟩
    rw [List.singleton_append, convert_string, if_pos unset,
      copyString_eq nul o (Nat.le_of_lt room), Option.map_some]
  | counted p eq set readable =>
    rw [eq]
    refine ⟨p.take l.slen.toNat, fun args last o room => ?_⟩
    have inside : ¬ p.length < min (last - o.buf) l.slen.toNat := by omega
    rw [List.singleton_append, convert_string, if_neg set, if_neg inside, List.take_take]
  | word w mem =>
    obtain ⟨n, taken⟩ := takeNumber_word l w mem
    have number : letter ∈ ascii "OPTzidlDLArp" := mem_of_all (by decide) mem
    refine ⟨n.text, fun args last o room => ?_⟩
    rw [List.singleton_append, convert_number number (taken args),
      printNumber_prints n last o room, Option.map_some]
  | int w mem =>
    by_cases char : letter = 'c'.toUInt8
    · rw [char]
      refine ⟨[(w &&& 0xff).toUInt8], fun args last o room => ?_⟩
      have printed := put_prints (w &&& 0xff).toUInt8 last o room
      exact congrArg (·.map (·, args)) printed
    · have integer : letter ∈ ascii "PdD" := by
        have parts : ascii "PdDc" = ascii "PdD" ++ ['c'.toUInt8] := rfl
        rw [parts, List.mem_append, List.mem_singleton] at mem
        exact mem.resolve_right char
      obtain ⟨n, taken⟩ := takeNumber_int l w integer
      have number : letter ∈ ascii "OPTzidlDLArp" := mem_of_all (by decide) integer
      refine ⟨n.text, fun args last o room => ?_⟩
      rw [List.singleton_append, convert_number number (taken args),
        printNumber_prints n last o room, Option.map_some]
  | none not_mem =>
    obtain ⟨ch, byte⟩ := convert_byte l not_mem plain
    refine ⟨[ch], fun args last o room => ?_⟩
    rw [byte, List.nil_append]
    exact congrArg (·.map (·, args)) (put_prints ch last o room)

theorem vslprintf_literal {ch : UInt8} (plain : ch ≠ 0 ∧ ch ≠ '%'.toUInt8) (fmt : List UInt8)
    (args : List Arg) (last : Nat) (o : Out) : vslprintf (ch :: fmt) args last o =
      if o.buf < last then vslprintf fmt args last (o.put ch) else some o := by
  rw [vslprintf]
  by_cases room : o.buf < last
  · simp [room, plain, Nat.not_le.mpr room]
  · simp [room, Nat.not_lt.mp room]

theorem vslprintf_directive {fmt rest : List UInt8} {args args' : List Arg} {l : Locals}
    {letter : UInt8} (scanned : scanDirective fmt args = some (l, letter :: rest, args'))
    (last : Nat) (o : Out) : vslprintf ('%'.toUInt8 :: fmt) args last o =
      if o.buf < last then
        (convert l letter args' last o).bind fun (o, args) => vslprintf rest args last o
      else some o := by
  rw [vslprintf]
  by_cases room : o.buf < last
  · have not_nul : '%'.toUInt8 ≠ 0 := by decide
    simp only [not_nul, Nat.not_le.mpr room, or_self, if_false, if_true, room]
    split
    · rename_i l₂ letter₂ rest₂ args₂ scanned₂
      rw [scanned] at scanned₂
      cases scanned₂
      rfl
    · rename_i no_letter
      exact absurd scanned (no_letter l letter rest args')
  · simp [room, Nat.not_lt.mp room]

/-- A format with its arguments prints one text, cut off at the limit. -/
theorem vslprintf_prints {fmt : List Piece} {args : List Arg} (matching : Matches fmt args) :
    ∃ text, Prints (vslprintf (fmt.flatMap Piece.bytes) args) text := by
  induction matching with
  | nil args => exact ⟨[], fun last o _ => by simp [vslprintf]⟩
  | literal ch plain rest ih =>
    obtain ⟨text, prints⟩ := ih
    refine ⟨ch :: text, ?_⟩
    intro last o room
    rw [List.flatMap_cons, Piece.bytes, List.singleton_append, vslprintf_literal plain]
    exact (prints.cons ch).guarded last o room
  | @directive ps args taken d takes rest ih =>
    obtain ⟨text, prints⟩ := ih
    obtain ⟨slens, own, count, takes⟩ := takes
    obtain ⟨l, slen, scanned⟩ := scanDirective_bytes d slens (ps.flatMap Piece.bytes)
      (own ++ args) count
    have plain : d.letter ≠ 'f'.toUInt8 := fun eq => d.letter_plain (eq ▸ by decide)
    obtain ⟨first, begins⟩ := convert_prints l (slen ▸ takes) plain
    have directive : PrintsBefore
        (fun last o => (convert l d.letter (own ++ args) last o).map Prod.fst) first :=
      fun last o room => congrArg (·.map Prod.fst) (begins args last o room)
    refine ⟨first ++ text, fun last o room => ?_⟩
    have whole : d.bytes = '%'.toUInt8 :: d.bytes.tail := rfl
    rw [List.flatMap_cons, Piece.bytes, whole, List.cons_append, List.append_assoc,
      vslprintf_directive scanned, ← (directive.append prints).guarded last o room]
    by_cases before : o.buf < last
    · simp only [before, if_true, begins args last o before, Option.bind_some, Option.map_some]
    · simp only [before, if_false]

/-- What is below `last` is a prefix of the text that `ngx_sprintf` writes. -/
theorem vslprintf_prefix {fmt : List Piece} {args : List Arg} (matching : Matches fmt args) :
    ∃ text : List UInt8,
      (∀ o : Out, o.buf + text.length ≤ noLast →
        sprintf (fmt.flatMap Piece.bytes) args o = some (o.copy text)) ∧
      ∀ last (o : Out), o.buf ≤ last → ∃ o',
        vslprintf (fmt.flatMap Piece.bytes) args last o = some o' ∧
        o'.buf = o.buf + min (last - o.buf) text.length ∧
        (∀ i, o.buf + i < o'.buf → some (o'.mem (o.buf + i)) = text[i]?) ∧
        ∀ a, a < o.buf ∨ o'.buf ≤ a → o'.mem a = o.mem a := by
  obtain ⟨text, prints⟩ := vslprintf_prints matching
  refine ⟨text, fun o room => prints.all room, fun last o room => ?_⟩
  refine ⟨_, prints last o room, by simp, fun i inside => ?_, fun a outside => ?_⟩
  · rw [Out.copy_buf] at inside
    have short : i < (text.take (last - o.buf)).length := by omega
    rw [Out.copy_inside short, List.getElem_take, List.getElem?_eq_getElem]
  · rw [Out.copy_buf] at outside
    exact Out.copy_outside outside

def plainP : Directive := ⟨[], [], none, 'P'.toUInt8, by simp, by simp, by decide, by decide⟩

/-- The format `%P#%P: ` of a log line. -/
def logPid : List Piece :=
  [.directive plainP, .literal '#'.toUInt8 (by decide), .directive plainP,
    .literal ':'.toUInt8 (by decide), .literal ' '.toUInt8 (by decide)]

theorem logPid_matches : Matches logPid [.int 1234, .int 0] := by
  have takes : ∀ w, plainP.Takes [.int w] := fun w => .intro [] [.int w] rfl (.int w (by decide))
  exact .directive plainP (takes 1234) (.literal _ _ (.directive plainP (takes 0)
    (.literal _ _ (.literal _ _ (.nil [])))))

theorem vslprintf_prefix_logPid : ∃ text : List UInt8,
    (∀ o : Out, o.buf + text.length ≤ noLast →
      sprintf (logPid.flatMap Piece.bytes) [.int 1234, .int 0] o = some (o.copy text)) ∧
    ∀ last (o : Out), o.buf ≤ last → ∃ o',
      vslprintf (logPid.flatMap Piece.bytes) [.int 1234, .int 0] last o = some o' ∧
      o'.buf = o.buf + min (last - o.buf) text.length ∧
      (∀ i, o.buf + i < o'.buf → some (o'.mem (o.buf + i)) = text[i]?) ∧
      ∀ a, a < o.buf ∨ o'.buf ≤ a → o'.mem a = o.mem a :=
  vslprintf_prefix logPid_matches

end Ngx.Sprintf
