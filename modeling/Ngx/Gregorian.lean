import Mathlib

/-! The Gregorian calendar, from one day to the next, and Gauss' formulas for the days that have
passed since a first of March. -/
namespace Gregorian

@[ext]
structure Date where
  year : Nat
  month : Nat
  day : Nat
deriving DecidableEq, Repr

def leap (year : Nat) : Bool := year % 4 == 0 && (year % 100 != 0 || year % 400 == 0)

/-- The days of a month, `long` telling whether February has 29. -/
def daysIn (long : Bool) : Nat → Nat
  | 2 => if long then 29 else 28
  | 4 | 6 | 9 | 11 => 30
  | _ => 31

def monthLength (year : Nat) : Nat → Nat := daysIn (leap year)

def Date.next (d : Date) : Date :=
  if d.day < monthLength d.year d.month then { d with day := d.day + 1 }
  else if d.month < 12 then ⟨d.year, d.month + 1, 1⟩
  else ⟨d.year + 1, 1, 1⟩

def epoch : Date := ⟨1970, 1, 1⟩

def date (days : Nat) : Date := Date.next^[days] epoch

/-- The weekday that many days after the epoch, which was a Thursday; Sunday is 0. -/
def weekday (days : Nat) : Nat := (fun day => (day + 1) % 7)^[days] 4

structure Date.Valid (d : Date) : Prop where
  month : 1 ≤ d.month ∧ d.month ≤ 12
  day : 1 ≤ d.day ∧ d.day ≤ monthLength d.year d.month

theorem monthLength_bounds (year month : Nat) :
    28 ≤ monthLength year month ∧ monthLength year month ≤ 31 := by
  unfold monthLength daysIn
  split
  · split <;> decide
  all_goals decide

def Date.rank (d : Date) : Nat := (d.year * 12 + d.month) * 31 + d.day

theorem Date.Valid.next {d : Date} (valid : d.Valid) : d.next.Valid ∧ d.rank < d.next.rank := by
  obtain ⟨month, day⟩ := valid
  have bounds := monthLength_bounds d.year d.month
  rw [Date.next]
  split
  case isTrue inside => exact ⟨⟨month, by simp only; omega⟩, by simp only [Date.rank]; omega⟩
  case isFalse =>
    split
    case isTrue early =>
      have bounds' := monthLength_bounds d.year (d.month + 1)
      exact ⟨⟨by simp only; omega, by simp only; omega⟩, by simp only [Date.rank]; omega⟩
    case isFalse =>
      have bounds' := monthLength_bounds (d.year + 1) 1
      exact ⟨⟨by simp only; omega, by simp only; omega⟩, by simp only [Date.rank]; omega⟩

theorem date_succ (days : Nat) : date (days + 1) = (date days).next :=
  Function.iterate_succ_apply' _ _ _

theorem date_valid (days : Nat) : (date days).Valid := by
  induction days with
  | zero => exact ⟨by decide, by decide⟩
  | succ days ih =>
    rw [date_succ]
    exact ih.next.1

theorem date_rank_strictMono : StrictMono fun days => (date days).rank := by
  refine strictMono_nat_of_lt_succ fun days => ?_
  rw [date_succ]
  exact (date_valid days).next.2

theorem date_injective : Function.Injective date := fun _ _ same =>
  date_rank_strictMono.injective (congrArg Date.rank same)

theorem weekday_eq (days : Nat) : weekday days = (4 + days) % 7 := by
  induction days with
  | zero => rfl
  | succ days ih =>
    rw [weekday, Function.iterate_succ_apply', ← weekday, ih]
    omega

/-- The days from March 1 of the year 0 to March 1 of a year. -/
def daysTo (year : Nat) : Nat := 365 * year + year / 4 - year / 100 + year / 400

/-- The days of the year that begins in March, with the February of the year after. -/
def marchLength (year : Nat) : Nat := 365 + (leap (year + 1)).toNat

theorem daysTo_succ (year : Nat) : daysTo (year + 1) = daysTo year + marchLength year := by
  simp only [daysTo, marchLength, leap]
  cases fourth : (year + 1) % 4 == 0 <;> cases century : (year + 1) % 100 != 0 <;>
    cases fourCenturies : (year + 1) % 400 == 0 <;> simp at * <;> omega

theorem marchLength_cases (year : Nat) : marchLength year = 365 ∧ leap (year + 1) = false ∨
    marchLength year = 366 ∧ leap (year + 1) = true := by
  rw [marchLength]
  cases leap (year + 1) <;> simp

/-- Gauss' formulas for the month, counted from the January before, and the day in it. -/
def marchMonth (day : Nat) : Nat := (day + 31) * 10 / 306

def marchDay (day : Nat) : Nat := day - (367 * marchMonth day / 12 - 30) + 1

def monthOf (day : Nat) : Nat := if day ≥ 306 then marchMonth day - 10 else marchMonth day + 2

def ofMarch (year day : Nat) : Date :=
  ⟨if day ≥ 306 then year + 1 else year, monthOf day, marchDay day⟩

abbrev Follows (long : Bool) (day : Nat) : Prop :=
  if marchDay day < daysIn long (monthOf day) then
    monthOf (day + 1) = monthOf day ∧ marchDay (day + 1) = marchDay day + 1 ∧ day + 1 ≠ 306
  else if monthOf day < 12 then
    monthOf (day + 1) = monthOf day + 1 ∧ marchDay (day + 1) = 1 ∧ day + 1 ≠ 306
  else monthOf (day + 1) = 1 ∧ marchDay (day + 1) = 1 ∧ day + 1 = 306

theorem follows : ∀ long day, day < 364 + long.toNat → Follows long day := by
  have short : ∀ day < 364, Follows false day := by decide +kernel
  have full : ∀ day < 365, Follows true day := by decide +kernel
  intro long day inside
  cases long with
  | false => exact short day inside
  | true => exact full day inside

/-- Only the February of the year after lies in a year that begins in March. -/
theorem month_before : ∀ day < 306, monthOf day ≠ 2 := by decide +kernel

theorem daysIn_eq (long long' : Bool) {month : Nat} (other : month ≠ 2) :
    daysIn long month = daysIn long' month := by
  unfold daysIn
  split
  · exact absurd rfl other
  all_goals rfl

theorem monthLength_ofMarch (year : Nat) (day : Nat) :
    monthLength (ofMarch year day).year (ofMarch year day).month = daysIn (leap (year + 1)) (monthOf day) := by
  by_cases after : day ≥ 306
  · simp only [ofMarch, if_pos after, monthLength]
  · exact daysIn_eq _ _ (month_before day (by omega))

theorem next_ofMarch {year day : Nat} (inside : day + 1 < marchLength year) :
    (ofMarch year day).next = ofMarch year (day + 1) := by
  have goesOn : Follows (leap (year + 1)) day := by
    rw [marchLength] at inside
    exact follows _ day (by omega)
  rw [Follows] at goesOn
  rw [Date.next, monthLength_ofMarch]
  change (if marchDay day < daysIn (leap (year + 1)) (monthOf day) then _ else _) = _
  split at goesOn
  case isTrue same =>
    obtain ⟨month, marchDay, noTurn⟩ := goesOn
    have side : day + 1 ≥ 306 ↔ day ≥ 306 := by omega
    simp only [if_pos same, ofMarch, month, marchDay, side]
  case isFalse ended =>
    split at goesOn
    case isTrue early =>
      obtain ⟨month, marchDay, noTurn⟩ := goesOn
      have side : day + 1 ≥ 306 ↔ day ≥ 306 := by omega
      simp only [if_neg ended, ofMarch, month, marchDay, side, early, if_true]
    case isFalse december =>
      obtain ⟨month, marchDay, turn⟩ := goesOn
      have before : ¬day ≥ 306 := by omega
      have after : day + 1 ≥ 306 := by omega
      simp only [if_neg ended, ofMarch, month, marchDay, before, after, december, if_true, if_false]

theorem next_ofMarch_last {year day : Nat} (last : day + 1 = marchLength year) :
    (ofMarch year day).next = ofMarch (year + 1) 0 := by
  obtain ⟨length, common⟩ | ⟨length, leapYear⟩ := marchLength_cases year
  · obtain rfl : day = 364 := by omega
    simp [ofMarch, monthOf, marchMonth, marchDay, Date.next, monthLength, daysIn, common]
  · obtain rfl : day = 365 := by omega
    simp [ofMarch, monthOf, marchMonth, marchDay, Date.next, monthLength, daysIn, leapYear]

/-- A day counted from March 1 of the year 0 is the given one of the given year. -/
structure Located (days year day : Nat) : Prop where
  sum : daysTo year + day = days
  inside : day < marchLength year

theorem daysTo_mono {year year' : Nat} (earlier : year ≤ year') : daysTo year ≤ daysTo year' := by
  induction earlier with
  | refl => exact Nat.le_refl _
  | @step year' _ ih =>
    have next := daysTo_succ year'
    exact Nat.le_trans ih (next ▸ Nat.le_add_right _ _)

theorem Located.unique {days year day year' day' : Nat} (located : Located days year day)
    (located' : Located days year' day') : year = year' ∧ day = day' := by
  have same : year = year' := by
    have next := daysTo_succ year
    have next' := daysTo_succ year'
    have sum := located.sum
    have sum' := located'.sum
    have inside := located.inside
    have inside' := located'.inside
    by_contra different
    obtain earlier | later := Nat.lt_or_gt_of_ne different
    · have far := daysTo_mono (Nat.succ_le_of_lt earlier)
      simp only [Nat.succ_eq_add_one] at far
      omega
    · have far := daysTo_mono (Nat.succ_le_of_lt later)
      simp only [Nat.succ_eq_add_one] at far
      omega
  subst same
  exact ⟨rfl, by have sum := located.sum; have sum' := located'.sum; omega⟩

theorem Located.succ {days year day : Nat} (located : Located days year day) :
    ∃ year' day', Located (days + 1) year' day' ∧ (ofMarch year day).next = ofMarch year' day' := by
  have sum := located.sum
  have inside := located.inside
  by_cases last : day + 1 = marchLength year
  · refine ⟨year + 1, 0, ⟨?_, ?_⟩, next_ofMarch_last last⟩
    · rw [daysTo_succ]
      omega
    · obtain ⟨length, _⟩ | ⟨length, _⟩ := marchLength_cases (year + 1) <;> omega
  · exact ⟨year, day + 1, ⟨by omega, by omega⟩, next_ofMarch (by omega)⟩

/-- January 1, 1970 is day 306 of the year that began in March 1969. -/
theorem epoch_located : Located 719468 1969 306 := ⟨by decide, by decide⟩

theorem located_date (days : Nat) :
    ∃ year day, Located (days + 719468) year day ∧ date days = ofMarch year day := by
  induction days with
  | zero => exact ⟨1969, 306, by simpa using epoch_located, by decide⟩
  | succ days ih =>
    obtain ⟨year, day, located, same⟩ := ih
    obtain ⟨year', day', located', next⟩ := located.succ
    refine ⟨year', day', by rwa [Nat.add_right_comm], ?_⟩
    rw [date_succ, same, next]

theorem date_eq {days year day : Nat} (located : Located (days + 719468) year day) :
    date days = ofMarch year day := by
  obtain ⟨year', day', located', same⟩ := located_date days
  obtain ⟨rfl, rfl⟩ := located.unique located'
  exact same

/-- Gauss' guess at the year of a day is right or one too late. -/
theorem located_guess (days : Nat) : ∃ year day, Located days year day ∧
    ((days + 2) * 400 / 146097 = year ∨ (days + 2) * 400 / 146097 = year + 1) := by
  generalize guessed : (days + 2) * 400 / 146097 = guess
  have low : 146097 * guess ≤ (days + 2) * 400 := by omega
  have high : (days + 2) * 400 < 146097 * (guess + 1) := by omega
  have before : days < daysTo (guess + 1) := by
    simp only [daysTo]
    omega
  have next := daysTo_succ guess
  by_cases reached : daysTo guess ≤ days
  · exact ⟨guess, days - daysTo guess, ⟨by omega, by omega⟩, .inl rfl⟩
  · cases guess with
    | zero => exact absurd (Nat.zero_le days) reached
    | succ year =>
      have previous := daysTo_succ year
      have after : daysTo year ≤ days := by
        simp only [daysTo]
        omega
      exact ⟨year, days - daysTo year, ⟨by omega, by omega⟩, .inr rfl⟩

end Gregorian
