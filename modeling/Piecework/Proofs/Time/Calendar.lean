import Mathlib.Tactic.Common
import Mathlib.Tactic.SplitIfs
import Piecework.Time.Calendar

/-!
# Dates and days

Counting the days of dates and finding the date of a day are inverse to each other, and both keep
the order of time.

* `daysBeforeYear_yearOfDay`: the year of a day is the one that has begun and has not ended.  The
  guess from the mean length of a year misses it by one at most.
* `monthOfDay_spec` says the same of the month of a day of a year.
* `Date.ofDays_spec`: the date of a day exists, and it is counted as that day.
* `Date.before_ofDays`: of two days, the earlier one has the smaller date.
-/

namespace Piecework.Time

/-! ## Years -/

theorem isLeap_iff {year : Int} :
    isLeap year = true ↔ year % 4 = 0 ∧ (year % 100 ≠ 0 ∨ year % 400 = 0) := by
  simp [isLeap]

theorem daysBeforeYear_add_one (year : Int) :
    daysBeforeYear (year + 1) = daysBeforeYear year + 365 + if isLeap year then 1 else 0 := by
  unfold daysBeforeYear
  split_ifs with hleap
  · rw [isLeap_iff] at hleap
    omega
  · rw [isLeap_iff] at hleap
    omega

theorem daysBeforeYear_mono {y z : Int} (h : y ≤ z) : daysBeforeYear y ≤ daysBeforeYear z := by
  unfold daysBeforeYear
  omega

/-- The year of a day has begun, and has not ended. -/
theorem daysBeforeYear_yearOfDay (n : Int) :
    daysBeforeYear (yearOfDay n) ≤ n ∧ n < daysBeforeYear (yearOfDay n + 1) := by
  have hguess : daysBeforeYear (n * 400 / 146097 - 1) ≤ n ∧
      n < daysBeforeYear (n * 400 / 146097 + 2) := by
    unfold daysBeforeYear
    omega
  unfold yearOfDay
  dsimp only
  split_ifs with hbefore hafter
  · refine ⟨hguess.1, ?_⟩
    rw [Int.sub_add_cancel]
    exact hbefore
  · refine ⟨hafter, ?_⟩
    rw [Int.add_assoc]
    exact hguess.2
  · exact ⟨by omega, by omega⟩

/-! ## Months -/

/-- The days of a year, of twelve months one after the other. -/
theorem daysBeforeMonth_thirteen (leap : Bool) :
    daysBeforeMonth leap 13 = 365 + if leap then 1 else 0 := by
  cases leap <;> rfl

theorem daysBeforeMonth_mono : ∀ leap, ∀ m < 14, ∀ n < 14, 0 < m → m ≤ n →
    daysBeforeMonth leap m ≤ daysBeforeMonth leap n := by
  decide

theorem add_monthLength : ∀ leap, ∀ m < 13, 0 < m →
    daysBeforeMonth leap m + monthLength leap m = daysBeforeMonth leap (m + 1) := by
  decide

/-- The month of a day of the year has begun, and has not ended. -/
theorem monthOfDay_spec {leap : Bool} {n : Nat} (h : n < daysBeforeMonth leap 13) :
    (1 ≤ monthOfDay leap n ∧ monthOfDay leap n ≤ 12) ∧
      daysBeforeMonth leap (monthOfDay leap n) ≤ n ∧
      n < daysBeforeMonth leap (monthOfDay leap n + 1) := by
  have hfirst : daysBeforeMonth leap 1 = 0 := by cases leap <;> rfl
  unfold monthOfDay
  simp only [decide_eq_true_eq]
  split_ifs <;> simp only [Nat.reduceAdd] <;> omega

/-! ## Dates -/

namespace Date

/-- The order of dates: by year, then by month, then by day. -/
def Before (d e : Date) : Prop :=
  d.year < e.year ∨ d.year = e.year ∧ (d.month < e.month ∨ d.month = e.month ∧ d.day < e.day)

theorem isValid_iff {d : Date} : d.isValid = true ↔ (1 ≤ d.month ∧ d.month ≤ 12) ∧
    1 ≤ d.day ∧ d.day ≤ monthLength (isLeap d.year) d.month := by
  simp [isValid, and_assoc]

/-- A day of the calendar is one of the days of its month. -/
theorem dayOfYear_lt {d : Date} (h : d.isValid = true) :
    daysBeforeMonth (isLeap d.year) d.month + d.day ≤
      daysBeforeMonth (isLeap d.year) (d.month + 1) := by
  obtain ⟨⟨hfirst, hlast⟩, -, hday⟩ := isValid_iff.1 h
  have := add_monthLength (isLeap d.year) d.month (by omega) hfirst
  omega

/-- A day of the calendar is one of the days of its year. -/
theorem toDays_bounds {d : Date} (h : d.isValid = true) :
    daysBeforeYear d.year - epochDay ≤ d.toDays ∧
      d.toDays < daysBeforeYear (d.year + 1) - epochDay := by
  obtain ⟨⟨hfirst, hlast⟩, hpos, -⟩ := isValid_iff.1 h
  have hday := dayOfYear_lt h
  have hmonth := daysBeforeMonth_mono (isLeap d.year) (d.month + 1) (by omega) 13 (by omega)
    (by omega) (by omega)
  rw [daysBeforeMonth_thirteen] at hmonth
  rw [daysBeforeYear_add_one, toDays]
  split_ifs at hmonth ⊢ <;> omega

/-- Of two dates that exist, the smaller one has the smaller day. -/
theorem Before.toDays_lt {d e : Date} (hd : d.isValid = true) (he : e.isValid = true)
    (h : d.Before e) : d.toDays < e.toDays := by
  rcases h with hyear | ⟨hyear, hmonth | ⟨hmonth, hday⟩⟩
  · have hd' := (toDays_bounds hd).2
    have he' := (toDays_bounds he).1
    have hyears := daysBeforeYear_mono hyear
    omega
  · have hd' := dayOfYear_lt hd
    obtain ⟨⟨hfirst, hlast⟩, hpos, -⟩ := isValid_iff.1 he
    have hmonths := daysBeforeMonth_mono (isLeap d.year) (d.month + 1) (by omega) e.month
      (by omega) (by omega) hmonth
    rw [toDays, toDays, ← hyear]
    omega
  · rw [toDays, toDays, ← hyear, ← hmonth]
    omega

/-- The date of a day exists, and it is the day that the date is counted as. -/
theorem ofDays_spec (days : Int) : (ofDays days).isValid = true ∧ (ofDays days).toDays = days := by
  obtain ⟨hbegun, hends⟩ := daysBeforeYear_yearOfDay (days + epochDay)
  rw [daysBeforeYear_add_one] at hends
  set year := yearOfDay (days + epochDay) with hyear
  set dayOfYear := (days + epochDay - daysBeforeYear year).toNat with hdayOfYear
  have hday : dayOfYear < daysBeforeMonth (isLeap year) 13 := by
    rw [daysBeforeMonth_thirteen]
    split_ifs at hends ⊢ <;> omega
  obtain ⟨⟨hfirst, hlast⟩, hmonth, hnext⟩ := monthOfDay_spec hday
  set month := monthOfDay (isLeap year) dayOfYear with hmonthOf
  have hlength := add_monthLength (isLeap year) month (by omega) hfirst
  have hdate : ofDays days =
      ⟨year, month, dayOfYear - daysBeforeMonth (isLeap year) month + 1⟩ := rfl
  rw [hdate, isValid_iff, toDays]
  dsimp only
  omega

theorem isValid_ofDays (days : Int) : (ofDays days).isValid = true := (ofDays_spec days).1

theorem toDays_ofDays (days : Int) : (ofDays days).toDays = days := (ofDays_spec days).2

theorem Before.trichotomy (d e : Date) : d.Before e ∨ d = e ∨ e.Before d := by
  rcases d with ⟨y, m, k⟩
  rcases e with ⟨y', m', k'⟩
  simp only [Before, Date.mk.injEq]
  omega

/-- Of two days, the earlier one has the smaller date. -/
theorem before_ofDays {days days' : Int} (h : days < days') :
    (ofDays days).Before (ofDays days') := by
  rcases Before.trichotomy (ofDays days) (ofDays days') with hlt | heq | hgt
  · exact hlt
  · have hsame := congrArg toDays heq
    rw [toDays_ofDays, toDays_ofDays] at hsame
    omega
  · have hless := hgt.toDays_lt (isValid_ofDays _) (isValid_ofDays _)
    rw [toDays_ofDays, toDays_ofDays] at hless
    omega

end Date

end Piecework.Time
