import Piecework.Proofs.Time.Calendar
import Piecework.Proofs.Time.Columns

/-!
# Stamps

The stamp of an instant between the years 0 and 9999 is a text of seven numbers in columns, from
the year down to the microseconds.

* `toList_stamp` gives the numbers and the columns, and `fit_fields` says that each number fits.
* `fields_lt`: an earlier instant has the smaller numbers.  Texts in the same columns compare as
  their numbers do, so `stamp_lt_iff` and `stamp_inj` follow.
* `ofStamp_stamp`: an instant to the microsecond is read back from its stamp.

A leap second is told by its sixtieth second, so it comes after the second before it and before the
next minute, in the text as well as in time.
-/

namespace Piecework.Time

namespace Instant

/-- The order of time.  A leap second is the end of the second before it. -/
def Before (t u : Instant) : Prop :=
  t.seconds < u.seconds ∨ t.seconds = u.seconds ∧ t.nanos < u.nanos

instance (t u : Instant) : Decidable (t.Before u) :=
  inferInstanceAs (Decidable (t.seconds < u.seconds ∨ t.seconds = u.seconds ∧ t.nanos < u.nanos))

theorem Before.trichotomy (t u : Instant) : t.Before u ∨ t = u ∨ u.Before t := by
  rcases t with ⟨seconds, nanos⟩
  rcases u with ⟨seconds', nanos'⟩
  simp only [Before, Instant.mk.injEq]
  omega

/-- A moment of the years 0 to 9999.  Only the last second of a minute may be followed by a leap
second. -/
structure Civil (t : Instant) : Prop where
  nanos : t.nanos < 1000000000 ∨ t.nanos < 2000000000 ∧ t.seconds % 60 = 59
  year : 0 ≤ t.date.year ∧ t.date.year ≤ 9999

/-- A moment that a stamp tells in full: there is nothing to it beyond microseconds. -/
structure Stampable (t : Instant) : Prop extends t.Civil where
  micros : t.nanos % 1000 = 0

/-- The moment without what is beyond microseconds. -/
def toMicros (t : Instant) : Instant := ⟨t.seconds, t.nanos / 1000 * 1000⟩

theorem Civil.toMicros {t : Instant} (h : t.Civil) : t.toMicros.Stampable := by
  have hnanos := h.nanos
  refine ⟨⟨?_, h.year⟩, ?_⟩
  · simp only [Instant.toMicros]
    omega
  · simp only [Instant.toMicros]
    omega

/-- What is beyond microseconds makes no difference to a stamp. -/
theorem stamp_toMicros (t : Instant) : t.toMicros.stamp = t.stamp := by
  have hleap : 1000000000 ≤ t.nanos / 1000 * 1000 ↔ 1000000000 ≤ t.nanos := by omega
  have hnano : t.toMicros.clock.nano / 1000 = t.clock.nano / 1000 := by
    simp only [clock, toMicros, hleap]
    split_ifs <;> omega
  have hsecond : t.toMicros.clock.second = t.clock.second := by
    simp only [clock, toMicros, hleap]
  have hfraction : fractionChars .micros t.toMicros.clock.nano =
      fractionChars .micros t.clock.nano := by
    rw [fractionChars, fractionChars, hnano]
  unfold stamp chars
  dsimp only
  rw [hfraction, hsecond]
  rfl

/-! ## The numbers of a stamp -/

/-- The numbers that a stamp is made of. -/
def fields (t : Instant) : List Nat :=
  [t.date.year.toNat, t.date.month, t.date.day, t.clock.hour, t.clock.minute, t.clock.second,
    t.clock.nano / 1000]

/-- The widths of these numbers, and the marks behind them. -/
def columns : List (Nat × Char) :=
  [(4, '-'), (2, '-'), (2, 'T'), (2, ':'), (2, ':'), (2, '.'), (6, 'Z')]

variable {t u : Instant}

theorem toList_stamp (h : t.Stampable) : t.stamp.toList = inColumns columns t.fields := by
  rw [stamp, String.toList_ofList, chars, yearChars, if_pos h.year]
  simp [fractionChars, columns, fields, inColumns]

theorem isValid_date (t : Instant) : t.date.isValid = true := Date.isValid_ofDays _

theorem monthLength_le : ∀ leap, ∀ m < 13, monthLength leap m ≤ 31 := by decide

/-- The ranges of the time of day. -/
theorem clock_bounds (h : t.Stampable) : t.clock.hour ≤ 23 ∧ t.clock.minute ≤ 59 ∧
    t.clock.second ≤ 60 ∧ t.clock.nano < 1000000000 := by
  have hnanos := h.nanos
  simp only [clock]
  split_ifs <;> omega

theorem fit_fields (h : t.Stampable) : Fit columns t.fields := by
  obtain ⟨⟨hfirst, hlast⟩, hpos, hday⟩ := Date.isValid_iff.1 t.isValid_date
  have hlength := monthLength_le (isLeap t.date.year) t.date.month (by omega)
  obtain ⟨hhour, hminute, hsecond, hnano⟩ := clock_bounds h
  have hyear := h.year
  simp only [Fit, columns, fields, List.forall₂_cons, List.Forall₂.nil, and_true]
  omega

/-- There are only digits and marks in a stamp. -/
theorem nul_not_mem_stamp (h : t.Stampable) : '\x00' ∉ t.stamp.toList := by
  rw [toList_stamp h]
  exact not_mem_inColumns (by decide) (by decide)

/-! ## Order -/

/-- On the same day, an earlier instant shows the smaller numbers on the clock. -/
theorem clock_lt (ht : t.Stampable) (hu : u.Stampable)
    (hday : t.seconds / 86400 = u.seconds / 86400) (h : t.Before u) :
    t.clock.hour < u.clock.hour ∨ t.clock.hour = u.clock.hour ∧
      (t.clock.minute < u.clock.minute ∨ t.clock.minute = u.clock.minute ∧
        (t.clock.second < u.clock.second ∨ t.clock.second = u.clock.second ∧
          t.clock.nano / 1000 < u.clock.nano / 1000)) := by
  have htn := ht.nanos
  have hun := hu.nanos
  have htm := ht.micros
  have hum := hu.micros
  simp only [clock]
  unfold Before at h
  split_ifs <;> omega

/-- An earlier instant has the smaller numbers. -/
theorem fields_lt (ht : t.Stampable) (hu : u.Stampable) (h : t.Before u) : t.fields < u.fields := by
  have hyear := ht.year
  have hyear' := hu.year
  simp only [fields, List.cons_lt_cons_iff, List.not_lt_nil, and_false, or_false]
  obtain hday | hday : t.seconds / 86400 < u.seconds / 86400 ∨
      t.seconds / 86400 = u.seconds / 86400 := by
    unfold Before at h
    omega
  · have hdate : t.date.Before u.date := Date.before_ofDays hday
    unfold Date.Before at hdate
    omega
  · have hdate : t.date = u.date := by rw [date, hday, date]
    have hclock := clock_lt ht hu hday h
    rw [hdate]
    omega

theorem stamp_lt_of_before (ht : t.Stampable) (hu : u.Stampable) (h : t.Before u) :
    t.stamp < u.stamp := by
  rw [String.lt_iff, toList_stamp ht, toList_stamp hu,
    inColumns_lt_iff (fit_fields ht) (fit_fields hu)]
  exact fields_lt ht hu h

/-- Stamps compare as their instants do. -/
theorem stamp_lt_iff (ht : t.Stampable) (hu : u.Stampable) : t.stamp < u.stamp ↔ t.Before u := by
  refine ⟨fun h => ?_, stamp_lt_of_before ht hu⟩
  rcases Before.trichotomy t u with hlt | rfl | hgt
  · exact hlt
  · exact absurd h (lt_irrefl _)
  · exact absurd h (lt_asymm (stamp_lt_of_before hu ht hgt))

theorem stamp_inj (ht : t.Stampable) (hu : u.Stampable) : t.stamp = u.stamp ↔ t = u := by
  refine ⟨fun h => ?_, fun h => h ▸ rfl⟩
  rcases Before.trichotomy t u with hlt | heq | hgt
  · exact absurd h (stamp_lt_of_before ht hu hlt).ne
  · exact heq
  · exact absurd h (stamp_lt_of_before hu ht hgt).ne'

/-! ## Reading -/

/-- The parts of a time in UTC, as a stamp shows them. -/
def parts (t : Instant) : Parts :=
  ⟨t.date.year, t.date.month, t.date.day, t.clock.hour, t.clock.minute, t.clock.second,
    t.clock.nano, 0⟩

/-- All instants of the years 0 to 9999 are in range. -/
theorem inRange_of_year (h : 0 ≤ t.date.year ∧ t.date.year ≤ 9999) : t.inRange = true := by
  obtain ⟨hlow, hhigh⟩ := Date.toDays_bounds t.isValid_date
  have hbegin := daysBeforeYear_mono h.1
  have hend := daysBeforeYear_mono (show t.date.year + 1 ≤ 10000 by omega)
  have hdays : t.date.toDays = t.seconds / 86400 := Date.toDays_ofDays _
  have hfirst : firstDate.toDays ≤ daysBeforeYear 0 - epochDay := by decide
  have hlast : daysBeforeYear 10000 - epochDay ≤ lastDate.toDays := by decide
  rw [inRange, Bool.and_eq_true, decide_eq_true_eq, decide_eq_true_eq]
  omega

/-- The date and the time of day of an instant are its own. -/
theorem ofCivil_date_clock (h : t.Stampable) : ofCivil t.date t.clock = t := by
  have hnanos := h.nanos
  have hdays : t.date.toDays = t.seconds / 86400 := Date.toDays_ofDays _
  rcases t with ⟨seconds, nanos⟩
  simp only [ofCivil, hdays, clock, Instant.mk.injEq]
  dsimp only at hnanos
  split_ifs <;> omega

theorem instant?_parts (h : t.Stampable) : t.parts.instant? = some t := by
  obtain ⟨hhour, hminute, hsecond, -⟩ := clock_bounds h
  have hyear := h.year
  have hfirst : firstDate.year = -262143 := rfl
  have hlast : lastDate.year = 262142 := rfl
  have hcivil : (ofCivil t.date t.clock).addSeconds (-0) = t := by
    rw [ofCivil_date_clock h, addSeconds, Int.neg_zero, Int.add_zero]
  have hparts : t.date.isValid = true ∧ t.clock.hour ≤ 23 ∧ t.clock.minute ≤ 59 ∧
      t.clock.second ≤ 60 ∧ (0 : Int).natAbs < 86400 ∧ firstDate.year ≤ t.date.year ∧
      t.date.year ≤ lastDate.year :=
    ⟨t.isValid_date, hhour, hminute, hsecond, by decide, by omega, by omega⟩
  unfold Parts.instant? parts
  dsimp only
  rw [if_pos hparts, hcivil, if_pos (inRange_of_year h.year)]

/-- A column is read up to its mark. -/
theorem number_column {width n : Nat} (hwidth : 0 < width) (hn : n < 10 ^ width) (mark : Char)
    (rest : List Char) :
    Scan.number width width (padded width n ++ mark :: rest) = some (n, mark :: rest) :=
  number_padded hwidth hn (le_refl _) (le_refl _) (.inl rfl)

theorem literal_mark (mark : Char) (rest : List Char) :
    Scan.literal mark (mark :: rest) = some ((), rest) := if_pos rfl

/-- Six digits behind the point are microseconds. -/
theorem fraction_micros {n : Nat} (hn : n < 10 ^ 6) :
    Scan.fraction ('.' :: (padded 6 n ++ ['Z'])) = some (n * 1000, ['Z']) := by
  have hread : Scan.number 1 9 (padded 6 n ++ ['Z']) = some (n, ['Z']) :=
    number_padded (by decide) hn (by decide) (by decide) (.inr fun c hc => by cases hc; rfl)
  have hlength : (padded 6 n ++ ['Z']).length - ['Z'].length = 6 := by
    rw [List.length_append, length_padded (by decide) hn]
    rfl
  rw [Scan.fraction, hread]
  show some (n * Nat.pow 10 (9 - ((padded 6 n ++ ['Z']).length - ['Z'].length)), _) = _
  rw [hlength]
  rfl

/-- The reader of the standard form finds the parts of an instant in its stamp. -/
theorem rfc3339?_stamp (h : t.Stampable) : rfc3339? t.stamp.toList = t.parts.instant? := by
  obtain ⟨hyear, hmonth, hday, hhour, hminute, hsecond, hmicros⟩ :
      (t.date.year.toNat < 10 ^ 4 ∧ t.date.month < 10 ^ 2 ∧ t.date.day < 10 ^ 2 ∧
        t.clock.hour < 10 ^ 2 ∧ t.clock.minute < 10 ^ 2 ∧ t.clock.second < 10 ^ 2 ∧
        t.clock.nano / 1000 < 10 ^ 6) := by
    simpa [Fit, columns, fields] using fit_fields h
  have hnano : t.clock.nano / 1000 * 1000 = t.clock.nano := by
    have hmicros := h.micros
    simp only [clock]
    split_ifs <;> omega
  have hsigned : (t.date.year.toNat : Int) = t.date.year := Int.toNat_of_nonneg h.year.1
  rw [toList_stamp h]
  simp only [columns, fields, inColumns]
  unfold rfc3339?
  rw [number_column (by decide) hyear]
  simp only [Option.bind_eq_bind, Option.bind_some, literal_mark]
  rw [number_column (by decide) hmonth]
  simp only [Option.bind_some, literal_mark]
  rw [number_column (by decide) hday]
  simp only [Option.bind_some, Scan.separator]
  rw [number_column (by decide) hhour]
  simp only [Option.bind_some, literal_mark]
  rw [number_column (by decide) hminute]
  simp only [Option.bind_some, literal_mark]
  rw [number_column (by decide) hsecond]
  simp only [Option.bind_some]
  rw [fraction_micros hmicros, hnano]
  simp only [Option.bind_some, Scan.offset, List.isEmpty_nil, if_true, hsigned]
  rfl

/-- An instant to the microsecond is read back from its stamp. -/
theorem ofStamp_stamp (h : t.Stampable) : ofStamp t.stamp = t := by
  rw [ofStamp, rfc3339?_stamp h, instant?_parts h]
  rfl

end Instant

end Piecework.Time
