import Ngx.Gregorian
import Ngx.Words

/-! The broken-down time that the strings of the cached time are made of. -/
namespace Ngx.Times

open Gregorian

structure Tm where
  sec : Int32
  min : Int32
  hour : Int32
  mday : Int32
  mon : Int32
  year : Int32
  wday : Int32

def toInt (x : UInt64) : Int32 := x.toUInt32.toInt32

def daysAndSeconds (t : Int64) : UInt64 × UInt64 :=
  let t := if t < 0 then 0 else t
  let days := (t / 86400).toUInt64
  let sec := (t % 86400).toUInt64
  if days > 2932896 then (2932896, 86399) else (days, sec)

/-- The year that begins in March and the day in it, of the days since March 1, 1 BC. -/
def yearAndDay (days : UInt64) : UInt64 × Int64 :=
  let year := (days + 2) * 400 / (365 * 400 + 100 - 4 + 1)
  let yday := (days - (365 * year + year / 4 - year / 100 + year / 400)).toInt64
  if yday < 0 then
    let leap : UInt64 := if year % 4 = 0 ∧ (year % 100 ≠ 0 ∨ year % 400 = 0) then 1 else 0
    (year - 1, (365 + leap + yday.toUInt64).toInt64)
  else (year, yday)

/-- The month and the day in it, of the day in a year that begins in March. -/
def monthAndDay (yday : Int64) : UInt64 × UInt64 :=
  let mon := ((yday + 31) * 10 / 306).toUInt64
  (mon, yday.toUInt64 - (367 * mon / 12 - 30) + 1)

def gmtime (t : Int64) : Tm :=
  let days := (daysAndSeconds t).1
  let sec := (daysAndSeconds t).2
  let wday := (4 + days) % 7
  let hour := sec / 3600
  let sec := sec % 3600
  let min := sec / 60
  let sec := sec % 60
  let located := yearAndDay (days - (31 + 28) + 719527)
  let year := located.1
  let yday := located.2
  let mon := (monthAndDay yday).1
  let mday := (monthAndDay yday).2
  let year := if yday ≥ 306 then year + 1 else year
  let mon := if yday ≥ 306 then mon - 10 else mon + 2
  ⟨toInt sec, toInt min, toInt hour, toInt mday, toInt mon, toInt year, toInt wday⟩

def lastSecond : Nat := 2932896 * 86400 + 86399

structure Tells (tm : Tm) (seconds : Nat) : Prop where
  sec : tm.sec.toInt = (seconds % 60 : Nat)
  min : tm.min.toInt = (seconds / 60 % 60 : Nat)
  hour : tm.hour.toInt = (seconds / 3600 % 24 : Nat)
  mday : tm.mday.toInt = (date (seconds / 86400)).day
  mon : tm.mon.toInt = (date (seconds / 86400)).month
  year : tm.year.toInt = (date (seconds / 86400)).year
  wday : tm.wday.toInt = weekday (seconds / 86400)

theorem toInt_small {x : UInt64} (small : x.toNat < 2 ^ 31) : (toInt x).toInt = x.toNat := by
  have cut : x.toUInt32.toNat = x.toNat := by
    rw [UInt64.toNat_toUInt32]
    omega
  rw [toInt, Words.toInt_toInt32, cut, if_pos small]

theorem daysTo_word {year : UInt64} (small : year.toNat < 2 ^ 32) :
    (365 * year + year / 4 - year / 100 + year / 400).toNat = daysTo year.toNat := by
  simp only [UInt64.toNat_add, UInt64.toNat_sub, UInt64.toNat_mul, UInt64.toNat_div,
    UInt64.reduceToNat, daysTo]
  omega

theorem leap_word (year : UInt64) :
    (if year % 4 = 0 ∧ (year % 100 ≠ 0 ∨ year % 400 = 0) then (1 : UInt64) else 0).toNat =
      (leap year.toNat).toNat := by
  have zero : ∀ c : UInt64, year % c = 0 ↔ year.toNat % c.toNat = 0 := fun c => by
    rw [← UInt64.toNat_inj, UInt64.toNat_mod]
    rfl
  have same : (year % 4 = 0 ∧ (year % 100 ≠ 0 ∨ year % 400 = 0)) ↔ leap year.toNat = true := by
    simp [zero, leap]
  cases long : leap year.toNat with
  | true => rw [if_pos (same.mpr long)]; rfl
  | false => rw [if_neg (by rw [same, long]; exact Bool.false_ne_true)]; rfl

theorem yearAndDay_located {days : UInt64} {year day : Nat} (small : days.toNat < 2 ^ 32)
    (located : Located days.toNat year day) :
    (yearAndDay days).1.toNat = year ∧ (yearAndDay days).2.toInt = day := by
  let guess := (days + 2) * 400 / (365 * 400 + 100 - 4 + 1)
  have guessed : guess.toNat = (days.toNat + 2) * 400 / 146097 := by
    have divisor : (365 * 400 + 100 - 4 + 1 : UInt64).toNat = 146097 := rfl
    simp only [guess, UInt64.toNat_div, UInt64.toNat_mul, UInt64.toNat_add, divisor,
      UInt64.reduceToNat]
    omega
  have bound : guess.toNat < 2 ^ 32 := by omega
  let diff := (days - (365 * guess + guess / 4 - guess / 100 + guess / 400)).toInt64
  have before : daysTo guess.toNat < 2 ^ 42 := by
    simp only [daysTo]
    omega
  have value : diff.toInt = (days.toNat : Int) - daysTo guess.toNat := by
    have wide := daysTo_word bound
    simp only [diff, Words.toInt_toInt64, UInt64.toNat_sub, wide]
    split <;> omega
  have shape : yearAndDay days = if diff < 0 then
      (guess - 1, (365 + (if guess % 4 = 0 ∧ (guess % 100 ≠ 0 ∨ guess % 400 = 0) then (1 : UInt64) else 0) +
        diff.toUInt64).toInt64)
    else (guess, diff) := rfl
  have negative : diff < 0 ↔ days.toNat < daysTo guess.toNat := by
    have zero : (0 : Int64).toInt = 0 := rfl
    rw [Int64.lt_iff_toInt_lt, value, zero]
    omega
  have sum := located.sum
  have inside := located.inside
  obtain ⟨year', day', located', same | late⟩ := located_guess days.toNat
  all_goals obtain ⟨rfl, rfl⟩ := located.unique located'
  · rw [← guessed] at same
    subst same
    rw [shape, if_neg (by rw [negative]; omega)]
    exact ⟨rfl, by simp only [value]; omega⟩
  · rw [← guessed] at late
    have next := daysTo_succ year
    rw [shape, if_pos (by rw [negative, late, next]; omega)]
    constructor
    · simp only [UInt64.toNat_sub, UInt64.reduceToNat]
      omega
    · have long := leap_word guess
      have word := Words.toNat_toUInt64 diff
      rw [late] at long value
      rw [marchLength] at next inside
      have single : (leap (year + 1)).toNat ≤ 1 := Bool.toNat_le _
      have neg : ¬0 ≤ diff.toInt := by omega
      rw [if_neg neg] at word
      simp only [Words.toInt_toInt64, UInt64.toNat_add, long, UInt64.reduceToNat]
      split <;> omega

theorem monthAndDay_eq {yday : Int64} {day : Nat} (value : yday.toInt = day) (short : day < 366) :
    (monthAndDay yday).1.toNat = marchMonth day ∧ (monthAndDay yday).2.toNat = marchDay day := by
  have thirtyOne : (31 : Int64).toInt = 31 := rfl
  have ten : (10 : Int64).toInt = 10 := rfl
  have divisor : (306 : Int64).toInt = 306 := rfl
  have first : (yday + 31).toInt = day + 31 := by
    rw [Int64.toInt_add, value, thirtyOne, Int.bmod_eq_of_le (by omega) (by omega)]
  have second : ((yday + 31) * 10).toInt = (day + 31) * 10 := by
    rw [Int64.toInt_mul, first, ten, Int.bmod_eq_of_le (by omega) (by omega)]
  have quotient : ((yday + 31) * 10 / 306).toInt = ((day + 31) * 10 / 306 : Nat) := by
    rw [Int64.toInt_div_of_ne_right _ _ (by decide), second, divisor,
      Int.tdiv_eq_ediv_of_nonneg (by omega)]
    omega
  have word := Words.toNat_toUInt64 ((yday + 31) * 10 / 306)
  have word' := Words.toNat_toUInt64 yday
  rw [quotient, if_pos (by omega)] at word
  rw [value, if_pos (by omega)] at word'
  have month : (monthAndDay yday).1.toNat = marchMonth day := by
    have same : (((yday + 31) * 10 / 306).toUInt64.toNat : Int) = marchMonth day := word
    exact_mod_cast same
  refine ⟨month, ?_⟩
  change (yday.toUInt64 - (367 * (monthAndDay yday).1 / 12 - 30) + 1).toNat = marchDay day
  have months : 1 ≤ marchMonth day ∧ marchMonth day ≤ 12 := by
    simp only [marchMonth]
    omega
  have passed : 30 ≤ 367 * marchMonth day / 12 ∧ 367 * marchMonth day / 12 - 30 ≤ day := by
    simp only [marchMonth] at *
    omega
  have before : (367 * (monthAndDay yday).1 / 12 - 30).toNat = 367 * marchMonth day / 12 - 30 := by
    have product : 367 * marchMonth day % 2 ^ 64 = 367 * marchMonth day :=
      Nat.mod_eq_of_lt (by omega)
    simp only [UInt64.toNat_sub, UInt64.toNat_mul, UInt64.toNat_div, month, UInt64.reduceToNat, product]
    omega
  simp only [UInt64.toNat_add, UInt64.toNat_sub, before, UInt64.reduceToNat, marchDay]
  omega

def told (t : Int64) : Nat := min t.toInt.toNat lastSecond

theorem daysAndSeconds_eq (t : Int64) : (daysAndSeconds t).1.toNat = told t / 86400 ∧
    (daysAndSeconds t).2.toNat = told t % 86400 := by
  let t' := if t < 0 then 0 else t
  have zero : (0 : Int64).toInt = 0 := rfl
  have day : (86400 : Int64).toInt = 86400 := rfl
  have clamped : t'.toInt = (t.toInt.toNat : Int) := by
    simp only [t', Int64.lt_iff_toInt_lt, zero]
    split
    case isTrue negative => rw [zero]; omega
    case isFalse => omega
  have days : (t' / 86400).toInt = (t.toInt.toNat / 86400 : Nat) := by
    rw [Int64.toInt_div_of_ne_right _ _ (by decide), clamped, day, Int.tdiv_eq_ediv_of_nonneg (by omega)]
    omega
  have sec : (t' % 86400).toInt = (t.toInt.toNat % 86400 : Nat) := by
    rw [Int64.toInt_mod, clamped, day, Int.tmod_eq_emod_of_nonneg (by omega)]
    omega
  have daysWord := Words.toNat_toUInt64 (t' / 86400)
  have secWord := Words.toNat_toUInt64 (t' % 86400)
  rw [days, if_pos (by omega)] at daysWord
  rw [sec, if_pos (by omega)] at secWord
  have shape : daysAndSeconds t = if (t' / 86400).toUInt64 > 2932896 then (2932896, 86399)
    else ((t' / 86400).toUInt64, (t' % 86400).toUInt64) := rfl
  have last : (2932896 : UInt64).toNat = 2932896 ∧ (86399 : UInt64).toNat = 86399 := ⟨rfl, rfl⟩
  rw [shape, told, lastSecond]
  split
  case isTrue beyond =>
    rw [gt_iff_lt, UInt64.lt_iff_toNat_lt, last.1] at beyond
    exact ⟨by simp only [last.1]; omega, by simp only [last.2]; omega⟩
  case isFalse within =>
    rw [gt_iff_lt, UInt64.lt_iff_toNat_lt, last.1] at within
    exact ⟨by simp only; omega, by simp only; omega⟩

theorem last_located : Located (2932896 + 719468) 9999 305 := ⟨by decide, by decide⟩

theorem date_last : date 2932896 = ⟨9999, 12, 31⟩ := (date_eq last_located).trans (by decide)

theorem date_year {days : Nat} (early : days ≤ 2932896) :
    1970 ≤ (date days).year ∧ (date days).year ≤ 9999 := by
  have monotone : ∀ {a b}, a ≤ b → (date a).rank ≤ (date b).rank := fun le =>
    date_rank_strictMono.monotone le
  have first := monotone (Nat.zero_le days)
  have last := monotone early
  have start : date 0 = ⟨1970, 1, 1⟩ := rfl
  rw [date_last] at last
  rw [start] at first
  simp only [Date.rank] at first last
  have month := (date_valid days).month
  have day := (date_valid days).day
  have length := monthLength_bounds (date days).year (date days).month
  omega

theorem told_le (t : Int64) : told t ≤ lastSecond := Nat.min_le_right _ _

theorem told_day_le (t : Int64) : told t / 86400 ≤ 2932896 := by
  have bound := told_le t
  rw [lastSecond] at bound
  omega

def daysBefore (t : Int64) : UInt64 := (daysAndSeconds t).1 - (31 + 28) + 719527

/-- The fields one by one. -/
theorem gmtime_fields (t : Int64) : gmtime t =
    let sec := (daysAndSeconds t).2
    let year := (yearAndDay (daysBefore t)).1
    let yday := (yearAndDay (daysBefore t)).2
    let mon := (monthAndDay yday).1
    ⟨toInt (sec % 3600 % 60), toInt (sec % 3600 / 60), toInt (sec / 3600),
      toInt (monthAndDay yday).2, toInt (if yday ≥ 306 then mon - 10 else mon + 2),
      toInt (if yday ≥ 306 then year + 1 else year), toInt ((4 + (daysAndSeconds t).1) % 7)⟩ := rfl

theorem gmtime_clock (t : Int64) : (gmtime t).sec.toInt = (told t % 60 : Nat) ∧
    (gmtime t).min.toInt = (told t / 60 % 60 : Nat) ∧
    (gmtime t).hour.toInt = (told t / 3600 % 24 : Nat) := by
  have secWord := (daysAndSeconds_eq t).2
  have secValue : ((daysAndSeconds t).2 % 3600 % 60).toNat = told t % 60 := by
    simp only [UInt64.toNat_mod, secWord, UInt64.reduceToNat]
    omega
  have minValue : ((daysAndSeconds t).2 % 3600 / 60).toNat = told t / 60 % 60 := by
    simp only [UInt64.toNat_mod, UInt64.toNat_div, secWord, UInt64.reduceToNat]
    omega
  have hourValue : ((daysAndSeconds t).2 / 3600).toNat = told t / 3600 % 24 := by
    simp only [UInt64.toNat_div, secWord, UInt64.reduceToNat]
    omega
  rw [gmtime_fields]
  refine ⟨?_, ?_, ?_⟩
  · rw [toInt_small (by omega), secValue]
  · rw [toInt_small (by omega), minValue]
  · rw [toInt_small (by omega), hourValue]

theorem gmtime_wday (t : Int64) : (gmtime t).wday.toInt = weekday (told t / 86400) := by
  have bound := told_day_le t
  have value : ((4 + (daysAndSeconds t).1) % 7).toNat = weekday (told t / 86400) := by
    simp only [UInt64.toNat_mod, UInt64.toNat_add, (daysAndSeconds_eq t).1, UInt64.reduceToNat,
      weekday_eq]
    omega
  have small : weekday (told t / 86400) < 7 := by
    rw [weekday_eq]
    omega
  rw [gmtime_fields, toInt_small (by omega), value]

theorem daysBefore_eq (t : Int64) : (daysBefore t).toNat = told t / 86400 + 719468 := by
  have bound := told_day_le t
  have shift : (31 + 28 : UInt64).toNat = 59 := rfl
  simp only [daysBefore, UInt64.toNat_add, UInt64.toNat_sub, (daysAndSeconds_eq t).1, shift,
    UInt64.reduceToNat]
  omega

theorem gmtime_date (t : Int64) : (gmtime t).mday.toInt = (date (told t / 86400)).day ∧
    (gmtime t).mon.toInt = (date (told t / 86400)).month ∧
    (gmtime t).year.toInt = (date (told t / 86400)).year := by
  have bound := told_day_le t
  have counted := daysBefore_eq t
  obtain ⟨year, day, located, same⟩ := located_date (told t / 86400)
  obtain ⟨yearWord, dayWord⟩ := yearAndDay_located (by omega) (counted ▸ located)
  have short : day < 366 := by
    have inside := located.inside
    obtain ⟨length, _⟩ | ⟨length, _⟩ := marchLength_cases year <;> omega
  obtain ⟨monthWord, mdayWord⟩ := monthAndDay_eq dayWord short
  have turn : (yearAndDay (daysBefore t)).2 ≥ 306 ↔ day ≥ 306 := by
    have limit : (306 : Int64).toInt = 306 := rfl
    rw [ge_iff_le, Int64.le_iff_toInt_le, dayWord, limit]
    omega
  have years := date_year bound
  have valid := date_valid (told t / 86400)
  have length := monthLength_bounds (date (told t / 86400)).year (date (told t / 86400)).month
  have days := valid.day
  have months := valid.month
  rw [same] at years days months length
  have early : year ≤ 9999 := by
    simp only [ofMarch] at years
    split at years <;> omega
  have monthBounds : marchMonth day ≤ 12 ∧ (day ≥ 306 → 11 ≤ marchMonth day) := by
    simp only [marchMonth]
    omega
  have monValue : (if day ≥ 306 then (monthAndDay (yearAndDay (daysBefore t)).2).1 - 10
      else (monthAndDay (yearAndDay (daysBefore t)).2).1 + 2).toNat = (ofMarch year day).month := by
    simp only [ofMarch, monthOf]
    split
    · simp only [UInt64.toNat_sub, monthWord, UInt64.reduceToNat]
      omega
    · simp only [UInt64.toNat_add, monthWord, UInt64.reduceToNat]
      omega
  have yearValue : (if day ≥ 306 then (yearAndDay (daysBefore t)).1 + 1
      else (yearAndDay (daysBefore t)).1).toNat = (ofMarch year day).year := by
    simp only [ofMarch]
    split
    · simp only [UInt64.toNat_add, yearWord, UInt64.reduceToNat]
      omega
    · exact yearWord
  have mdayValue : (ofMarch year day).day = marchDay day := rfl
  rw [same, gmtime_fields]
  simp only [turn]
  refine ⟨?_, ?_, ?_⟩
  · rw [toInt_small (by omega), mdayWord, mdayValue]
  · rw [toInt_small (by omega), monValue]
  · rw [toInt_small (by omega), yearValue]

/-- Whatever the time is, `ngx_gmtime` gives its date in the Gregorian calendar, its weekday and its
time of day, with times before 1970 and after 9999 taken for the first and the last second between. -/
theorem gmtime_tells (t : Int64) : Tells (gmtime t) (told t) := by
  obtain ⟨sec, min, hour⟩ := gmtime_clock t
  obtain ⟨mday, mon, year⟩ := gmtime_date t
  exact ⟨sec, min, hour, mday, mon, year, gmtime_wday t⟩

end Ngx.Times
