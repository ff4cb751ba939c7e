import Ngx.FormatText
import Ngx.Times

/-! The times of HTTP headers and of cookies. -/
namespace Ngx.Times

open BoundedText Gregorian Positional Sprintf

def week : List String := ["Sun", "Mon", "Tue", "Wed", "Thu", "Fri", "Sat"]

def months : List String :=
  ["Jan", "Feb", "Mar", "Apr", "May", "Jun", "Jul", "Aug", "Sep", "Oct", "Nov", "Dec"]

/-- An element of a table of C strings; there is none where the code would read past the table. -/
def nameAt (names : List String) (i : Int32) : Option (List UInt8) :=
  i.toInt.toNat?.bind fun i => names[i]?.map fun name => ascii name ++ [0]

def httpTimeFormat : List UInt8 := ascii "%s, %02d %s %4d %02d:%02d:%02d GMT"

def httpTime (t : Int64) (o : Out) : Option Out :=
  let tm := gmtime t
  (nameAt week tm.wday).bind fun wday =>
    (nameAt months (tm.mon - 1)).bind fun mon =>
      sprintf httpTimeFormat
        [.chars wday, .int tm.mday.toUInt32, .chars mon, .int tm.year.toUInt32,
          .int tm.hour.toUInt32, .int tm.min.toUInt32, .int tm.sec.toUInt32] o

def httpCookieTime (t : Int64) (o : Out) : Option Out :=
  let tm := gmtime t
  let format := if tm.year > 2037 then ascii "%s, %02d-%s-%d %02d:%02d:%02d GMT"
    else ascii "%s, %02d-%s-%02d %02d:%02d:%02d GMT"
  (nameAt week tm.wday).bind fun wday =>
    (nameAt months (tm.mon - 1)).bind fun mon =>
      sprintf format
        [.chars wday, .int tm.mday.toUInt32, .chars mon,
          .int (if tm.year > 2037 then tm.year else tm.year % 100).toUInt32,
          .int tm.hour.toUInt32, .int tm.min.toUInt32, .int tm.sec.toUInt32] o

variable {fmt rest text : List UInt8} {args args' : List Arg}

theorem writes_nil (args : List Arg) : Prints (vslprintf [] args) [] :=
  fun last o _ => by simp [vslprintf]

theorem writes_literals (prints : Prints (vslprintf fmt args) text) : ∀ (literals : List UInt8),
    (∀ ch ∈ literals, ch ≠ 0 ∧ ch ≠ '%'.toUInt8) →
      Prints (vslprintf (literals ++ fmt) args) (literals ++ text)
  | [], _ => prints
  | ch :: literals, plain => by
    have rest := writes_literals prints literals fun ch' member => plain ch' (List.mem_cons_of_mem ch member)
    intro last o room
    rw [List.cons_append, vslprintf_literal (plain ch List.mem_cons_self)]
    exact (rest.cons ch).guarded last o room

theorem writes_directive {l : Locals} {letter : UInt8} {first : List UInt8}
    (scanned : scanDirective fmt args = some (l, letter :: rest, args))
    (begins : ∀ last o, o.buf < last →
      convert l letter args last o = some (o.copy (first.take (last - o.buf)), args'))
    (prints : Prints (vslprintf rest args') text) :
    Prints (vslprintf ('%'.toUInt8 :: fmt) args) (first ++ text) := by
  have directive : PrintsBefore (fun last o => (convert l letter args last o).map Prod.fst) first :=
    fun last o room => congrArg (·.map Prod.fst) (begins last o room)
  intro last o room
  rw [vslprintf_directive scanned, ← (directive.append prints).guarded last o room]
  by_cases before : o.buf < last
  · simp only [before, if_true, begins last o before, Option.bind_some, Option.map_some]
  · simp only [before, if_false]

theorem ascii_no_nul {name : String} (plain : ∀ ch ∈ ascii name, ch ≠ 0) :
    (ascii name ++ [0]).takeWhile (· ≠ 0) = ascii name := by
  rw [List.takeWhile_append_of_pos (by simpa using plain)]
  simp

theorem writes_string {name : String} (plain : ∀ ch ∈ ascii name, ch ≠ 0)
    (prints : Prints (vslprintf rest args) text) :
    Prints (vslprintf (ascii "%s" ++ rest) (.chars (ascii name ++ [0]) :: args))
      (ascii name ++ text) := by
  have scanned : scanDirective ('s'.toUInt8 :: rest) (.chars (ascii name ++ [0]) :: args) =
    some (⟨' '.toUInt8, 0, true, 0, false, noLen⟩, 's'.toUInt8 :: rest,
      .chars (ascii name ++ [0]) :: args) := rfl
  refine writes_directive scanned ?_ prints
  intro last o room
  rw [convert_string, if_pos rfl, copyString_eq (by simp) o (Nat.le_of_lt room), ascii_no_nul plain]
  rfl

def padded (zero : UInt8) (width n : Nat) : List UInt8 :=
  List.replicate (width - (numeral decimalDigits n).length) zero ++ numeral decimalDigits n

theorem number_text {x : Int32} {n : Nat} {zero : UInt8} {width : UInt64} (value : x.toInt = n) :
    Number.text ⟨x.toInt64, 0, ⟨zero, width, true, 0, false, noLen⟩⟩ = padded zero width.toNat n := by
  have wide : x.toInt64.toInt = n := by
    rw [Int32.toInt_toInt64, value]
  have positive : ¬x.toInt64 < 0 := by
    have zero : (0 : Int64).toInt = 0 := rfl
    rw [Int64.lt_iff_toInt_lt, wide, zero]
    omega
  have word := Words.toNat_toUInt64 x.toInt64
  rw [wide, if_pos (by omega)] at word
  have same : x.toInt64.toUInt64.toNat = n := by omega
  simp only [Number.text, positive, and_false, if_false, if_true, numberText, same]
  rfl

theorem writes_int {x : Int32} {n : Nat} {zero : UInt8} {w : UInt64} (value : x.toInt = n)
    (scanned : scanDirective fmt (.int x.toUInt32 :: args) =
      some (⟨zero, w, true, 0, false, noLen⟩, 'd'.toUInt8 :: rest, .int x.toUInt32 :: args))
    (prints : Prints (vslprintf rest args) text) :
    Prints (vslprintf ('%'.toUInt8 :: fmt) (.int x.toUInt32 :: args))
      (padded zero w.toNat n ++ text) := by
  refine writes_directive scanned ?_ prints
  intro last o room
  rw [← number_text value, convert_number (n := ⟨x.toInt64, 0, ⟨zero, w, true, 0, false, noLen⟩⟩)
    (by decide) rfl, printNumber_prints _ last o room]
  rfl

theorem writes_two {x : Int32} {n : Nat} (value : x.toInt = n)
    (prints : Prints (vslprintf rest args) text) :
    Prints (vslprintf (ascii "%02d" ++ rest) (.int x.toUInt32 :: args))
      (padded '0'.toUInt8 2 n ++ text) :=
  writes_int (w := 2) value rfl prints

theorem writes_four {x : Int32} {n : Nat} (value : x.toInt = n)
    (prints : Prints (vslprintf rest args) text) :
    Prints (vslprintf (ascii "%4d" ++ rest) (.int x.toUInt32 :: args))
      (padded ' '.toUInt8 4 n ++ text) :=
  writes_int (w := 4) value rfl prints

theorem writes_unpadded {x : Int32} {n : Nat} (value : x.toInt = n)
    (prints : Prints (vslprintf rest args) text) :
    Prints (vslprintf (ascii "%d" ++ rest) (.int x.toUInt32 :: args))
      (padded ' '.toUInt8 0 n ++ text) :=
  writes_int (w := 0) value rfl prints

def nameOf (names : List String) (i : Nat) : List UInt8 := ascii (names[i]?.getD "")

def dayText (seconds : Nat) : List UInt8 :=
  nameOf week (weekday (seconds / 86400)) ++ ascii ", " ++ padded '0'.toUInt8 2 (date (seconds / 86400)).day

def monthText (seconds : Nat) : List UInt8 := nameOf months ((date (seconds / 86400)).month - 1)

def clockText (seconds : Nat) : List UInt8 :=
  ascii " " ++ padded '0'.toUInt8 2 (seconds / 3600 % 24) ++ ascii ":" ++
    padded '0'.toUInt8 2 (seconds / 60 % 60) ++ ascii ":" ++ padded '0'.toUInt8 2 (seconds % 60) ++
    ascii " GMT"

/-- As in `Mon, 28 Sep 1970 06:00:00 GMT`. -/
def httpTimeText (seconds : Nat) : List UInt8 :=
  dayText seconds ++ ascii " " ++ monthText seconds ++ ascii " " ++
    padded ' '.toUInt8 4 (date (seconds / 86400)).year ++ clockText seconds

/-- As in `Mon, 28-Sep-70 06:00:00 GMT`, with the whole year after 2037. -/
def cookieTimeText (seconds : Nat) : List UInt8 :=
  dayText seconds ++ ascii "-" ++ monthText seconds ++ ascii "-" ++
    (if (date (seconds / 86400)).year > 2037 then padded ' '.toUInt8 0 (date (seconds / 86400)).year
      else padded '0'.toUInt8 2 ((date (seconds / 86400)).year % 100)) ++ clockText seconds

theorem week_plain : ∀ name ∈ week, ∀ ch ∈ ascii name, ch ≠ 0 := by decide +kernel

theorem months_plain : ∀ name ∈ months, ∀ ch ∈ ascii name, ch ≠ 0 := by decide +kernel

theorem nameAt_eq {names : List String} {i : Int32} {n : Nat} (value : i.toInt = n)
    (inside : n < names.length) :
    ∃ name ∈ names, nameAt names i = some (ascii name ++ [0]) ∧ nameOf names n = ascii name := by
  refine ⟨names[n], List.getElem_mem inside, ?_, ?_⟩
  · have index : Int.toNat? n = some n := rfl
    rw [nameAt, value, index, Option.bind_some, List.getElem?_eq_getElem inside]
    rfl
  · rw [nameOf, List.getElem?_eq_getElem inside, Option.getD_some]

theorem mon_before (t : Int64) :
    ((gmtime t).mon - 1).toInt = ((date (told t / 86400)).month - 1 : Nat) := by
  have month := (date_valid (told t / 86400)).month
  have one : (1 : Int32).toInt = 1 := rfl
  rw [Int32.toInt_sub, (gmtime_date t).2.1, one, Int.bmod_eq_of_le (by omega) (by omega)]
  omega

/-- The names that both formats begin with. -/
theorem names_eq (t : Int64) : ∃ day ∈ week, ∃ month ∈ months,
    nameAt week (gmtime t).wday = some (ascii day ++ [0]) ∧
      nameAt months ((gmtime t).mon - 1) = some (ascii month ++ [0]) ∧
      nameOf week (weekday (told t / 86400)) = ascii day ∧ monthText (told t) = ascii month := by
  have seven : weekday (told t / 86400) < week.length := by
    rw [weekday_eq]
    exact Nat.mod_lt _ (by decide)
  have twelve : (date (told t / 86400)).month - 1 < months.length := by
    have month := (date_valid (told t / 86400)).month
    have length : months.length = 12 := rfl
    omega
  obtain ⟨day, dayMember, dayAt, dayOf⟩ := nameAt_eq (gmtime_wday t) seven
  obtain ⟨month, monthMember, monthAt, monthOf⟩ := nameAt_eq (mon_before t) twelve
  exact ⟨day, dayMember, month, monthMember, dayAt, monthAt, dayOf, monthOf⟩

/-- The end of both formats. -/
theorem clock_writes (t : Int64) : Prints (vslprintf (ascii " %02d:%02d:%02d GMT")
    [.int (gmtime t).hour.toUInt32, .int (gmtime t).min.toUInt32, .int (gmtime t).sec.toUInt32])
    (clockText (told t)) := by
  obtain ⟨sec, min, hour⟩ := gmtime_clock t
  have ending : Prints (vslprintf (ascii " GMT" ++ []) []) (ascii " GMT" ++ []) :=
    writes_literals (writes_nil []) _ (by decide +kernel)
  have colon : ∀ ch ∈ ascii ":", ch ≠ 0 ∧ ch ≠ '%'.toUInt8 := by decide +kernel
  have minutes := writes_two min (writes_literals (writes_two sec ending) (ascii ":") colon)
  have whole := writes_literals (writes_two hour (writes_literals minutes (ascii ":") colon))
    (ascii " ") (by decide +kernel)
  have shape : ascii " %02d:%02d:%02d GMT" = ascii " " ++ (ascii "%02d" ++ (ascii ":" ++ (ascii "%02d" ++
    (ascii ":" ++ (ascii "%02d" ++ (ascii " GMT" ++ [])))))) := by decide
  rw [shape]
  simpa only [clockText, List.append_assoc, List.append_nil] using whole

/-- The beginning of both formats: the names, and between them the day in its separators. -/
theorem start_writes (t : Int64) (separator : List UInt8)
    (plain : ∀ ch ∈ separator, ch ≠ 0 ∧ ch ≠ '%'.toUInt8) {rest text : List UInt8} {args : List Arg}
    (prints : Prints (vslprintf rest args) text) : ∃ wday mon,
    nameAt week (gmtime t).wday = some wday ∧ nameAt months ((gmtime t).mon - 1) = some mon ∧
      Prints (vslprintf (ascii "%s, %02d" ++ separator ++ ascii "%s" ++ separator ++ rest)
          (.chars wday :: .int (gmtime t).mday.toUInt32 :: .chars mon :: args))
        (dayText (told t) ++ separator ++ monthText (told t) ++ separator ++ text) := by
  obtain ⟨day, dayMember, month, monthMember, dayAt, monthAt, dayOf, monthOf⟩ := names_eq t
  refine ⟨_, _, dayAt, monthAt, ?_⟩
  have second := writes_string (months_plain month monthMember) (writes_literals prints _ plain)
  have middle := writes_two (gmtime_date t).1 (writes_literals second _ plain)
  have whole := writes_string (week_plain day dayMember)
    (writes_literals middle (ascii ", ") (by decide +kernel))
  have shape : ascii "%s, %02d" = ascii "%s" ++ (ascii ", " ++ ascii "%02d") := by decide
  rw [shape]
  simpa only [dayText, dayOf, monthOf, List.append_assoc] using whole

theorem length_padded {z : UInt8} {w n : Nat} (some_width : 0 < w) (small : n < 10 ^ w) :
    (padded z w n).length = w := by
  have short : (numeral decimalDigits n).length ≤ w :=
    numeral_length_le (by decide) some_width small
  rw [padded, List.length_append, List.length_replicate]
  omega

theorem length_names : (∀ name ∈ week, (ascii name).length = 3) ∧
    ∀ name ∈ months, (ascii name).length = 3 := by decide

theorem length_dayText (t : Int64) : (dayText (told t)).length = 7 := by
  obtain ⟨day, dayMember, -, -, -, -, dayOf, -⟩ := names_eq t
  have valid := date_valid (told t / 86400)
  have days := valid.day
  have bounds := monthLength_bounds (date (told t / 86400)).year (date (told t / 86400)).month
  have two := length_padded (z := '0'.toUInt8) (w := 2) (by decide)
    (show (date (told t / 86400)).day < 10 ^ 2 by omega)
  have comma : (ascii ", ").length = 2 := rfl
  simp only [dayText, dayOf, List.length_append, length_names.1 day dayMember, two, comma]

theorem length_monthText (t : Int64) : (monthText (told t)).length = 3 := by
  obtain ⟨-, -, month, monthMember, -, -, -, monthOf⟩ := names_eq t
  rw [monthOf]
  exact length_names.2 month monthMember

theorem length_clockText (seconds : Nat) : (clockText seconds).length = 13 := by
  have two : ∀ n, n < 100 → (padded '0'.toUInt8 2 n).length = 2 := fun n small =>
    length_padded (by decide) small
  have hour := two (seconds / 3600 % 24) (by omega)
  have min := two (seconds / 60 % 60) (by omega)
  have sec := two (seconds % 60) (by omega)
  simp only [clockText, List.length_append, hour, min, sec]
  rfl

theorem value_numeral (n : Nat) : value decimalDigits (numeral decimalDigits n) = n :=
  (numeral_canonical (by decide) (by decide) n).value_eq

theorem value_zeros (k : Nat) (ds : List UInt8) :
    value decimalDigits (List.replicate k '0'.toUInt8 ++ ds) = value decimalDigits ds := by
  induction k with
  | zero => rfl
  | succ k ih =>
    rw [List.replicate_succ, List.cons_append, ← ih]
    rfl

theorem padded_zero_injective {w n m : Nat}
    (same : padded '0'.toUInt8 w n = padded '0'.toUInt8 w m) : n = m := by
  have values := congrArg (value decimalDigits) same
  rwa [padded, padded, value_zeros, value_zeros, value_numeral, value_numeral] at values

theorem length_year {n : Nat} (low : 1000 ≤ n) (high : n < 10000) :
    (numeral decimalDigits n).length = 4 := by
  have step : ∀ {m}, 10 ≤ m → (numeral decimalDigits m).length =
      (numeral decimalDigits (m / 10)).length + 1 := by
    intro m large
    rw [numeral_step (by decide) large, List.length_append]
    rfl
  rw [step (by omega), step (by omega), step (by omega),
    numeral_small (show n / 10 / 10 / 10 < decimalDigits.length from
      (by omega : n / 10 / 10 / 10 < 10))]
  rfl

theorem padded_year {w n : Nat} (narrow : w ≤ 4) (low : 1000 ≤ n) (high : n < 10000) :
    padded ' '.toUInt8 w n = numeral decimalDigits n := by
  rw [padded, length_year low high, Nat.sub_eq_zero_of_le narrow]
  rfl

theorem year_bounds (t : Int64) : 1970 ≤ (date (told t / 86400)).year ∧
    (date (told t / 86400)).year ≤ 9999 := date_year (told_day_le t)

theorem length_httpTimeText (t : Int64) : (httpTimeText (told t)).length = 29 := by
  have year := year_bounds t
  have four := length_year (show 1000 ≤ (date (told t / 86400)).year by omega) (by omega)
  have space : (ascii " ").length = 1 := rfl
  simp only [httpTimeText, List.length_append, length_dayText, length_monthText, length_clockText,
    space, padded_year (Nat.le_refl 4) (show 1000 ≤ (date (told t / 86400)).year by omega) (by omega),
    four]

theorem length_cookieTimeText (t : Int64) : (cookieTimeText (told t)).length =
    if (date (told t / 86400)).year > 2037 then 29 else 27 := by
  have year := year_bounds t
  have four := length_year (show 1000 ≤ (date (told t / 86400)).year by omega) (by omega)
  have two := length_padded (z := '0'.toUInt8) (w := 2) (by decide)
    (show (date (told t / 86400)).year % 100 < 10 ^ 2 by omega)
  have dash : (ascii "-").length = 1 := rfl
  simp only [cookieTimeText, List.length_append, length_dayText, length_monthText, length_clockText,
    dash]
  split
  · rw [padded_year (by decide) (by omega) (by omega), four]
  · rw [two]

theorem httpTime_eq (t : Int64) {o : Out} (room : o.buf + 29 ≤ noLast) :
    httpTime t o = some (o.copy (httpTimeText (told t))) := by
  obtain ⟨wday, mon, wdayAt, monAt, prints⟩ := start_writes t (ascii " ") (by decide +kernel)
    (writes_four (gmtime_date t).2.2 (clock_writes t))
  have shape : httpTimeFormat = ascii "%s, %02d" ++ ascii " " ++ ascii "%s" ++ ascii " " ++
    (ascii "%4d" ++ ascii " %02d:%02d:%02d GMT") := by decide
  have text : httpTimeText (told t) = dayText (told t) ++ ascii " " ++ monthText (told t) ++ ascii " " ++
      (padded ' '.toUInt8 4 (date (told t / 86400)).year ++ clockText (told t)) := by
    simp only [httpTimeText, List.append_assoc]
  rw [← shape, ← text] at prints
  rw [httpTime, wdayAt, Option.bind_some, monAt, Option.bind_some, sprintf]
  exact prints.all (by rw [length_httpTimeText]; exact room)

theorem httpCookieTime_eq (t : Int64) {o : Out} (room : o.buf + 29 ≤ noLast) :
    httpCookieTime t o = some (o.copy (cookieTimeText (told t))) := by
  have yearField := (gmtime_date t).2.2
  have year := year_bounds t
  have limit : (2037 : Int32).toInt = 2037 := rfl
  have late : (gmtime t).year > 2037 ↔ (date (told t / 86400)).year > 2037 := by
    rw [gt_iff_lt, Int32.lt_iff_toInt_lt, limit, yearField]
    omega
  have fits : o.buf + (cookieTimeText (told t)).length ≤ noLast := by
    rw [length_cookieTimeText]
    split <;> omega
  by_cases after : (date (told t / 86400)).year > 2037
  · obtain ⟨wday, mon, wdayAt, monAt, prints⟩ := start_writes t (ascii "-") (by decide +kernel)
      (writes_unpadded yearField (clock_writes t))
    have shape : ascii "%s, %02d-%s-%d %02d:%02d:%02d GMT" = ascii "%s, %02d" ++ ascii "-" ++
      ascii "%s" ++ ascii "-" ++ (ascii "%d" ++ ascii " %02d:%02d:%02d GMT") := by decide
    have text : cookieTimeText (told t) = dayText (told t) ++ ascii "-" ++ monthText (told t) ++
        ascii "-" ++ (padded ' '.toUInt8 0 (date (told t / 86400)).year ++ clockText (told t)) := by
      simp only [cookieTimeText, if_pos after, List.append_assoc]
    rw [← shape, ← text] at prints
    have branch : (gmtime t).year > 2037 := late.mpr after
    simp only [httpCookieTime, wdayAt, monAt, Option.bind_some, if_pos branch, sprintf]
    exact prints.all fits
  · have short : ((gmtime t).year % 100).toInt = ((date (told t / 86400)).year % 100 : Nat) := by
      have hundred : (100 : Int32).toInt = 100 := rfl
      rw [Int32.toInt_mod, yearField, hundred, Int.tmod_eq_emod_of_nonneg (by omega)]
      omega
    obtain ⟨wday, mon, wdayAt, monAt, prints⟩ := start_writes t (ascii "-") (by decide +kernel)
      (writes_two short (clock_writes t))
    have shape : ascii "%s, %02d-%s-%02d %02d:%02d:%02d GMT" = ascii "%s, %02d" ++ ascii "-" ++
      ascii "%s" ++ ascii "-" ++ (ascii "%02d" ++ ascii " %02d:%02d:%02d GMT") := by decide
    have text : cookieTimeText (told t) = dayText (told t) ++ ascii "-" ++ monthText (told t) ++
        ascii "-" ++ (padded '0'.toUInt8 2 ((date (told t / 86400)).year % 100) ++
          clockText (told t)) := by
      simp only [cookieTimeText, if_neg after, List.append_assoc]
    rw [← shape, ← text] at prints
    have branch : ¬(gmtime t).year > 2037 := mt late.mp after
    simp only [httpCookieTime, wdayAt, monAt, Option.bind_some, if_neg branch, sprintf]
    exact prints.all fits

theorem clockText_injective {s s' : Nat} (same : clockText s = clockText s') :
    s % 86400 = s' % 86400 := by
  have two : ∀ n, n < 100 → (padded '0'.toUInt8 2 n).length = 2 := fun n small =>
    length_padded (by decide) small
  have hour : s / 3600 % 24 = s' / 3600 % 24 ∧ s / 60 % 60 = s' / 60 % 60 ∧ s % 60 = s' % 60 := by
    simp only [clockText, List.append_assoc] at same
    obtain ⟨-, same⟩ := List.append_inj same rfl
    obtain ⟨hours, same⟩ := List.append_inj same (by rw [two _ (by omega), two _ (by omega)])
    obtain ⟨-, same⟩ := List.append_inj same rfl
    obtain ⟨minutes, same⟩ := List.append_inj same (by rw [two _ (by omega), two _ (by omega)])
    obtain ⟨-, same⟩ := List.append_inj same rfl
    obtain ⟨seconds, -⟩ := List.append_inj same (by rw [two _ (by omega), two _ (by omega)])
    exact ⟨padded_zero_injective hours, padded_zero_injective minutes, padded_zero_injective seconds⟩
  omega

theorem monthText_injective : ∀ i < 12, ∀ j < 12, nameOf months i = nameOf months j → i = j := by
  decide

/-- The day and the month of two times are the same if the texts say so. -/
theorem day_month_injective {t t' : Int64} (days : dayText (told t) = dayText (told t'))
    (months : monthText (told t) = monthText (told t')) :
    (date (told t / 86400)).day = (date (told t' / 86400)).day ∧
      (date (told t / 86400)).month = (date (told t' / 86400)).month := by
  have two : ∀ d : Int64, (padded '0'.toUInt8 2 (date (told d / 86400)).day).length = 2 := by
    intro d
    have day := (date_valid (told d / 86400)).day
    have bounds := monthLength_bounds (date (told d / 86400)).year (date (told d / 86400)).month
    exact length_padded (by decide) (show (date (told d / 86400)).day < 10 ^ 2 by omega)
  rw [dayText, dayText] at days
  obtain ⟨-, day⟩ := List.append_inj' days (by rw [two, two])
  have month := (date_valid (told t / 86400)).month
  have month' := (date_valid (told t' / 86400)).month
  have before := monthText_injective _ (by omega) _ (by omega) months
  exact ⟨padded_zero_injective day, by omega⟩

theorem told_eq {s s' : Nat} (dates : date (s / 86400) = date (s' / 86400))
    (clocks : clockText s = clockText s') : s = s' := by
  have days := date_injective dates
  have seconds := clockText_injective clocks
  omega

theorem httpTimeText_injective {t t' : Int64}
    (same : httpTimeText (told t) = httpTimeText (told t')) : told t = told t' := by
  have year := year_bounds t
  have year' := year_bounds t'
  have four := length_year (show 1000 ≤ (date (told t / 86400)).year by omega) (by omega)
  have four' := length_year (show 1000 ≤ (date (told t' / 86400)).year by omega) (by omega)
  simp only [httpTimeText, List.append_assoc] at same
  rw [padded_year (Nat.le_refl 4) (by omega) (by omega),
    padded_year (Nat.le_refl 4) (by omega) (by omega)] at same
  obtain ⟨days, same⟩ := List.append_inj same (by rw [length_dayText, length_dayText])
  obtain ⟨-, same⟩ := List.append_inj same rfl
  obtain ⟨months, same⟩ := List.append_inj same (by rw [length_monthText, length_monthText])
  obtain ⟨-, same⟩ := List.append_inj same rfl
  obtain ⟨years, clocks⟩ := List.append_inj same (by rw [four, four'])
  obtain ⟨day, month⟩ := day_month_injective days months
  have numbers := congrArg (value decimalDigits) years
  rw [value_numeral, value_numeral] at numbers
  exact told_eq (Date.ext numbers month day) clocks

theorem cookieTimeText_injective {t t' : Int64}
    (same : cookieTimeText (told t) = cookieTimeText (told t')) : told t = told t' := by
  have year := year_bounds t
  have year' := year_bounds t'
  have branch : (date (told t / 86400)).year > 2037 ↔ (date (told t' / 86400)).year > 2037 := by
    have lengths := congrArg List.length same
    rw [length_cookieTimeText, length_cookieTimeText] at lengths
    split at lengths <;> split at lengths <;> omega
  simp only [cookieTimeText, List.append_assoc, branch] at same
  obtain ⟨days, same⟩ := List.append_inj same (by rw [length_dayText, length_dayText])
  obtain ⟨-, same⟩ := List.append_inj same rfl
  obtain ⟨months, same⟩ := List.append_inj same (by rw [length_monthText, length_monthText])
  obtain ⟨-, same⟩ := List.append_inj same rfl
  obtain ⟨years, clocks⟩ := List.append_inj' same (by rw [length_clockText, length_clockText])
  obtain ⟨day, month⟩ := day_month_injective days months
  refine told_eq (Date.ext ?_ month day) clocks
  split at years
  case isTrue late =>
    rw [padded_year (by decide) (by omega) (by omega), padded_year (by decide) (by omega) (by omega)] at years
    have numbers := congrArg (value decimalDigits) years
    rwa [value_numeral, value_numeral] at numbers
  case isFalse early =>
    have rests := padded_zero_injective years
    omega

theorem copy_injective {o : Out} {text text' : List UInt8} (length : text.length = text'.length)
    (same : o.copy text = o.copy text') : text = text' := by
  refine List.ext_getElem length fun i inside inside' => ?_
  have byte := Out.copy_inside (o := o) inside
  have byte' := Out.copy_inside (o := o) inside'
  rw [← byte, ← byte', same]

/-- For every time `ngx_http_time` writes the 29 bytes of its date in the calendar, and
`ngx_http_cookie_time` the 29 or, up to 2037, 27. -/
theorem http_time_text (t : Int64) {o : Out} (room : o.buf + 29 ≤ noLast) :
    httpTime t o = some (o.copy (httpTimeText (told t))) ∧ (httpTimeText (told t)).length = 29 ∧
      httpCookieTime t o = some (o.copy (cookieTimeText (told t))) ∧
      (cookieTimeText (told t)).length = if (date (told t / 86400)).year > 2037 then 29 else 27 :=
  ⟨httpTime_eq t room, length_httpTimeText t, httpCookieTime_eq t room, length_cookieTimeText t⟩

theorem http_time_text_epoch : httpTime 0 ⟨fun _ => 0, 100⟩ =
      some (Out.copy ⟨fun _ => 0, 100⟩ (ascii "Thu, 01 Jan 1970 00:00:00 GMT")) := by
  have written := (http_time_text 0 (o := ⟨fun _ => 0, 100⟩) (by decide)).1
  have text : httpTimeText (told 0) = ascii "Thu, 01 Jan 1970 00:00:00 GMT" := by decide
  rwa [text] at written

/-- Two times have the same text, in a header or in a cookie, only if they are the same second between
1970 and 9999. -/
theorem http_time_injective (t t' : Int64) {o : Out} (room : o.buf + 29 ≤ noLast) :
    (httpTime t o = httpTime t' o ↔ told t = told t') ∧
      (httpCookieTime t o = httpCookieTime t' o ↔ told t = told t') := by
  rw [httpTime_eq t room, httpTime_eq t' room, httpCookieTime_eq t room, httpCookieTime_eq t' room]
  refine ⟨⟨fun same => ?_, fun same => by rw [same]⟩, fun same => ?_, fun same => by rw [same]⟩
  · refine httpTimeText_injective (copy_injective ?_ (Option.some.inj same))
    rw [length_httpTimeText, length_httpTimeText]
  · have out := Option.some.inj same
    have lengths := congrArg Out.buf out
    rw [Out.copy_buf, Out.copy_buf] at lengths
    exact cookieTimeText_injective (copy_injective (by omega) out)

theorem http_time_injective_day :
    (httpTime 0 ⟨fun _ => 0, 100⟩ = httpTime 86400 ⟨fun _ => 0, 100⟩ ↔ told 0 = told 86400) ∧
      (httpCookieTime 0 ⟨fun _ => 0, 100⟩ = httpCookieTime 86400 ⟨fun _ => 0, 100⟩ ↔
        told 0 = told 86400) :=
  http_time_injective 0 86400 (by decide)

end Ngx.Times
