import Unp.Lib.Calendar
import Unp.Lib.Machine

/-!
# Julian day numbers

`getJulianDayNumber` and `getYearMonthDay` are closed formulas over `int`s, whose divisions are
truncating. The years are shifted by 4800, so that nothing that is divided is negative from the year
-4799 on, and 4800 years are twelve times the 400 years after which the calendar comes round.

What the formulas are right about is in the calendar: the day number is the count of the days, but
for where it begins.
-/

namespace Unp.Util

open Unp.Machine Unp.Calendar

/-- `Date::YearMonthDay`. -/
abbrev YearMonthDay := Calendar.Date

/-- The operations are in the order of the source, and each of them may overflow. -/
def getJulianDayNumber (year month day : Int) : Res Int := do
  let a := (← checkedI32 (14 - month)).tdiv 12
  let y ← checkedI32 ((← checkedI32 (year + 4800)) - a)
  let m ← checkedI32 ((← checkedI32 (month + (← checkedI32 (12 * a)))) - 3)
  let months ← checkedI32 ((← checkedI32 (153 * m)) + 2)
  let j ← checkedI32 (day + months.tdiv 5)
  let j ← checkedI32 (j + (← checkedI32 (y * 365)))
  let j ← checkedI32 (j + y.tdiv 4)
  let j ← checkedI32 (j - y.tdiv 100)
  let j ← checkedI32 (j + y.tdiv 400)
  checkedI32 (j - 32045)

def getYearMonthDay (julianDayNumber : Int) : Res YearMonthDay := do
  let a ← checkedI32 (julianDayNumber + 32044)
  let b := (← checkedI32 ((← checkedI32 (4 * a)) + 3)).tdiv 146097
  let c ← checkedI32 (a - (← checkedI32 (b * 146097)).tdiv 4)
  let d := (← checkedI32 ((← checkedI32 (4 * c)) + 3)).tdiv 1461
  let e ← checkedI32 (c - (← checkedI32 (1461 * d)).tdiv 4)
  let m := (← checkedI32 ((← checkedI32 (5 * e)) + 2)).tdiv 153
  let months ← checkedI32 ((← checkedI32 (153 * m)) + 2)
  let day ← checkedI32 ((← checkedI32 (e - months.tdiv 5)) + 1)
  let month ← checkedI32 ((← checkedI32 (m + 3)) - (← checkedI32 (12 * m.tdiv 10)))
  let year ← checkedI32 ((← checkedI32 (b * 100)) + d)
  let year ← checkedI32 ((← checkedI32 (year - 4800)) + m.tdiv 10)
  pure ⟨year, month, day⟩

/-- `Date`. -/
structure Date where
  julianDayNumber : Int
  deriving Repr, DecidableEq

namespace Date

/-- `Date(int y, int m, int d)`. -/
def new (y m d : Int) : Res Date := do
  let julianDayNumber ← getJulianDayNumber y m d
  pure ⟨julianDayNumber⟩

/-- `operator<`. -/
def less (x y : Date) : Bool := x.julianDayNumber < y.julianDayNumber

/-- `operator==`. -/
def equal (x y : Date) : Bool := x.julianDayNumber = y.julianDayNumber

end Date

example : getJulianDayNumber 2000 1 1 = .ok 2451545 := by decide +kernel

/-! ## From a date to its number -/

section Number
variable {t : YearMonthDay}

/-- Of a date the formula computes the count of the days, where it does not overflow. -/
theorem getJulianDayNumber_ok (ht : t.Valid) (hlo : -4799 ≤ t.year) (hhi : t.year ≤ 1000001) :
    getJulianDayNumber t.year t.month t.day = .ok (t.dayCount + 1721120) := by
  obtain ⟨hm₁, hm₂, hd₁, hd₂⟩ := ht
  have hd₃ : t.day ≤ 31 := by
    unfold daysInMonth at hd₂
    split at hd₂
    · split at hd₂ <;> omega
    · split at hd₂ <;> omega
  unfold Calendar.Date.dayCount Calendar.Date.dayOfYear Calendar.Date.marchYear
    Calendar.Date.marchMonth beforeMonth beforeYear getJulianDayNumber
  by_cases hnew : t.month ≤ 2
  · have ha : (14 - t.month).tdiv 12 = 1 := by
      rw [Int.tdiv_eq_ediv_of_nonneg (by omega)]
      omega
    simp (disch := omega) only [checkedI32_ok, ok_bind, ha, Int.tdiv_eq_ediv_of_nonneg, if_pos hnew]
    congr 1
    omega
  · have ha : (14 - t.month).tdiv 12 = 0 := by
      rw [Int.tdiv_eq_ediv_of_nonneg (by omega)]
      omega
    simp (disch := omega) only [checkedI32_ok, ok_bind, ha, Int.tdiv_eq_ediv_of_nonneg, if_neg hnew]
    congr 1
    omega

/-! ## And back -/

theorem beforeYear_century {b r : Int} (hr₀ : 0 ≤ r) (hr : r < 100) :
    beforeYear (100 * b + r) = 36524 * b + b / 4 + (365 * r + r / 4) := by
  unfold beforeYear
  omega

/-- Only a leap year has a day 365: every fourth, but at the end of a century every fourth century. -/
theorem day_le {b r e : Int} (hr₀ : 0 ≤ r) (hr : r < 100)
    (hend : beforeYear (100 * b + r) + e < beforeYear (100 * b + r + 1)) :
    e ≤ 365 ∧ (e = 365 → r % 4 = 3 ∧ (r = 99 → b % 4 = 3)) := by
  rw [beforeYear_century hr₀ hr] at hend
  by_cases hlast : r = 99
  · have hnext : 100 * b + r + 1 = 100 * (b + 1) + 0 := by omega
    rw [hnext, beforeYear_century (by omega) (by omega)] at hend
    omega
  · rw [Int.add_assoc (100 * b) r 1, beforeYear_century (by omega) (by omega)] at hend
    omega

/-- The century, the year in it and the day of that year, from the count of the days. -/
theorem century_split {b r e : Int} (hr₀ : 0 ≤ r) (hr : r < 100) (he : 0 ≤ e)
    (hend : beforeYear (100 * b + r) + e < beforeYear (100 * b + r + 1)) :
    (4 * (beforeYear (100 * b + r) + e) + 3) / 146097 = b ∧
      beforeYear (100 * b + r) + e - b * 146097 / 4 = 365 * r + r / 4 + e ∧
      (4 * (365 * r + r / 4 + e) + 3) / 1461 = r ∧
      365 * r + r / 4 + e - 1461 * r / 4 = e := by
  obtain ⟨hle, hleap⟩ := day_le hr₀ hr hend
  rw [beforeYear_century hr₀ hr]
  refine ⟨?_, ?_, ?_, ?_⟩
  · have hcentury : 365 * r + r / 4 + e ≤ 36523 ∨ 365 * r + r / 4 + e ≤ 36524 ∧ b % 4 = 3 := by
      omega
    omega
  · omega
  · omega
  · omega

/-- The day of the year is before the first day of the next month. -/
theorem dayOfYear_lt (ht : t.Valid) : t.dayOfYear < beforeMonth (t.marchMonth + 1) := by
  obtain ⟨hm₁, hm₂, -, hd₂⟩ := ht
  unfold Calendar.Date.dayOfYear
  by_cases hfeb : t.month = 2
  · have hmonth : t.marchMonth = 11 := by
      unfold Calendar.Date.marchMonth
      rw [if_pos (by omega), hfeb]
      rfl
    have hday : t.day ≤ 29 := by
      unfold daysInMonth at hd₂
      rw [if_pos hfeb] at hd₂
      split at hd₂ <;> omega
    rw [hmonth]
    unfold beforeMonth
    omega
  · rw [Calendar.Date.beforeMonth_succ hm₁ hm₂ hfeb]
    omega

/-- The month and the day, from the day of the year. -/
theorem month_split (ht : t.Valid) :
    (5 * t.dayOfYear + 2) / 153 = t.marchMonth ∧
      t.dayOfYear - (153 * t.marchMonth + 2) / 5 + 1 = t.day ∧
      t.marchMonth + 3 - 12 * (t.marchMonth / 10) = t.month ∧
      t.marchYear + t.marchMonth / 10 = t.year := by
  have hlo : beforeMonth t.marchMonth ≤ t.dayOfYear := by
    have := ht.day_pos
    unfold Calendar.Date.dayOfYear
    omega
  have hhi := dayOfYear_lt ht
  unfold beforeMonth at hlo hhi
  refine ⟨by omega, ?_, ?_, ?_⟩
  · unfold Calendar.Date.dayOfYear beforeMonth
    omega
  · have hm₁ := ht.month_pos
    have hm₂ := ht.month_le
    unfold Calendar.Date.marchMonth
    split <;> omega
  · have hm₁ := ht.month_pos
    have hm₂ := ht.month_le
    unfold Calendar.Date.marchYear Calendar.Date.marchMonth
    split <;> omega

/-- What the second formula computes, step by step. Nothing is negative and nothing overflows, as long
as four times the number of the days does not. -/
theorem getYearMonthDay_eq {j a b c d e m : Int} (ha₀ : 0 ≤ a) (ha₁ : a ≤ 536870000)
    (ha : j + 32044 = a) (hb : (4 * a + 3) / 146097 = b) (hc : a - b * 146097 / 4 = c)
    (hd : (4 * c + 3) / 1461 = d) (he : c - 1461 * d / 4 = e) (hm : (5 * e + 2) / 153 = m) :
    getYearMonthDay j = .ok ⟨b * 100 + d - 4800 + m / 10, m + 3 - 12 * (m / 10),
      e - (153 * m + 2) / 5 + 1⟩ := by
  have hb₀ : 0 ≤ b ∧ b ≤ 14699 := by omega
  have hc₀ : 0 ≤ c ∧ c ≤ 36524 := by omega
  have hd₀ : 0 ≤ d ∧ d ≤ 100 := by omega
  have he₀ : 0 ≤ e ∧ e ≤ 365 := by omega
  have hm₀ : 0 ≤ m ∧ m ≤ 11 := by omega
  unfold getYearMonthDay
  -- the bounds are all that the range checks need
  simp (disch := (clear ha hb hc hd he hm; omega)) only [ha, checkedI32_ok, ok_bind,
    Int.tdiv_eq_ediv_of_nonneg, hb, hc, hd, he, hm, pure_eq_ok]

theorem beforeYear_shift (year : Int) : beforeYear (year + 4800) = beforeYear year + 1753164 := by
  unfold beforeYear
  omega

theorem getYearMonthDay_ok (ht : t.Valid) (hlo : -4799 ≤ t.year) (hhi : t.year ≤ 1000001) :
    getYearMonthDay (t.dayCount + 1721120) = .ok t := by
  obtain ⟨hmonth, hday, hback, hyear⟩ := month_split ht
  have hnonneg := Calendar.Date.dayOfYear_nonneg ht
  have hend := Calendar.Date.dayCount_lt ht
  -- the year since -4800, in centuries
  obtain ⟨b, r, hr₀, hr, hsplit⟩ : ∃ b r, 0 ≤ r ∧ r < 100 ∧ t.marchYear + 4800 = 100 * b + r :=
    ⟨(t.marchYear + 4800) / 100, (t.marchYear + 4800) % 100, by omega, by omega, by omega⟩
  have hbounds : 0 ≤ t.marchYear + 4800 ∧ t.marchYear + 4800 ≤ 1004801 := by
    unfold Calendar.Date.marchYear
    split <;> omega
  have hcount : t.dayCount + 1721120 + 32044 = beforeYear (100 * b + r) + t.dayOfYear := by
    rw [← hsplit, beforeYear_shift]
    unfold Calendar.Date.dayCount
    omega
  have hend' : beforeYear (100 * b + r) + t.dayOfYear < beforeYear (100 * b + r + 1) := by
    rw [← hcount, ← hsplit, Int.add_right_comm t.marchYear 4800 1, beforeYear_shift]
    omega
  obtain ⟨hb, hc, hd, he⟩ := century_split hr₀ hr hnonneg hend'
  obtain ⟨hle, -⟩ := day_le hr₀ hr hend'
  have hfrom := beforeYear_century (b := b) hr₀ hr
  rw [getYearMonthDay_eq (by omega) (by omega) hcount hb hc hd he hmonth]
  congr 1
  cases t
  simp only [Calendar.Date.mk.injEq] at *
  omega

end Number

/-! ## The days of the years that do not overflow -/

/-- A day of one of the years -4799 to 1000000. -/
structure JulianDay extends YearMonthDay where
  valid : toDate.Valid
  year_lo : -4799 ≤ year
  year_hi : year ≤ 1000000

/-- The number of the first of these days. -/
def firstNumber : Int := -31738

/-- The number of the last. -/
def lastNumber : Int := 366963925

example : getJulianDayNumber (-4799) 1 1 = .ok firstNumber ∧
    getJulianDayNumber 1000000 12 31 = .ok lastNumber := by decide +kernel

/-- Every number between those of the first and the last day is that of a day. -/
theorem exists_julianDay {j : Int} (hlo : firstNumber ≤ j) (hhi : j ≤ lastNumber) :
    ∃ t : JulianDay, t.toDate.dayCount + 1721120 = j := by
  unfold firstNumber at hlo
  unfold lastNumber at hhi
  have hfirst : (⟨-4799, 1, 1⟩ : YearMonthDay).Valid := by constructor <;> decide
  have hlast : (⟨1000000, 12, 31⟩ : YearMonthDay).Valid := by constructor <;> decide
  have hcount₁ : (⟨-4799, 1, 1⟩ : YearMonthDay).dayCount = -1752858 := by decide
  have hcount₂ : (⟨1000000, 12, 31⟩ : YearMonthDay).dayCount = 365242805 := by decide
  obtain ⟨t, ht, hcount⟩ := Calendar.Date.exists_dayCount hfirst (j + 31738).toNat
  refine ⟨⟨t, ht, ?_, ?_⟩, ?_⟩
  · by_contra hyear
    have hbefore : t.dayCount < _ := Calendar.Date.dayCount_lt_of_before ht hfirst
      (Or.inl (Int.not_le.mp hyear))
    omega
  · by_contra hyear
    have hafter : _ < t.dayCount := Calendar.Date.dayCount_lt_of_before hlast ht
      (Or.inl (Int.not_le.mp hyear))
    omega
  · show t.dayCount + 1721120 = j
    omega

/-- **The numbers are the calendar.** Every day has a number, from which it comes back; the next day
has the next number; the numbers are in the order of the days; and every number between the first and
the last is one. -/
theorem julianDayNumber_calendar :
    (∀ t : JulianDay, ∃ j, getJulianDayNumber t.year t.month t.day = .ok j ∧
        getYearMonthDay j = .ok t.toDate ∧
        getJulianDayNumber t.next.year t.next.month t.next.day = .ok (j + 1)) ∧
      (∀ s t : JulianDay, ∃ x y, Date.new s.year s.month s.day = .ok x ∧
        Date.new t.year t.month t.day = .ok y ∧ (x.less y = true ↔ s.Before t.toDate) ∧
        (x.equal y = true ↔ s.toDate = t.toDate)) ∧
      ∀ j, firstNumber ≤ j → j ≤ lastNumber → ∃ t : JulianDay, getYearMonthDay j = .ok t.toDate ∧
        getJulianDayNumber t.year t.month t.day = .ok j := by
  have hnumber : ∀ t : JulianDay,
      getJulianDayNumber t.year t.month t.day = .ok (t.toDate.dayCount + 1721120) :=
    fun t => getJulianDayNumber_ok t.valid t.year_lo (Int.le_trans t.year_hi (by decide))
  have hback : ∀ t : JulianDay, getYearMonthDay (t.toDate.dayCount + 1721120) = .ok t.toDate :=
    fun t => getYearMonthDay_ok t.valid t.year_lo (Int.le_trans t.year_hi (by decide))
  refine ⟨?_, ?_, ?_⟩
  · intro t
    refine ⟨_, hnumber t, hback t, ?_⟩
    have hyear : t.year ≤ t.next.year ∧ t.next.year ≤ t.year + 1 := by
      unfold Calendar.Date.next
      split
      · exact ⟨Int.le_refl _, by dsimp only; omega⟩
      · split
        · exact ⟨Int.le_refl _, by dsimp only; omega⟩
        · exact ⟨by dsimp only; omega, Int.le_refl _⟩
    have hlo := t.year_lo
    have hhi := t.year_hi
    rw [getJulianDayNumber_ok (Calendar.Date.next_valid t.valid) (by omega) (by omega),
      Calendar.Date.dayCount_next t.valid, Int.add_right_comm]
  · intro s t
    refine ⟨⟨_⟩, ⟨_⟩, by rw [Date.new, hnumber s]; rfl, by rw [Date.new, hnumber t]; rfl, ?_, ?_⟩
    · rw [Date.less, decide_eq_true_iff, ← Calendar.Date.dayCount_lt_iff s.valid t.valid]
      exact Int.add_lt_add_iff_right _
    · rw [Date.equal, decide_eq_true_iff]
      constructor
      · intro heq
        have hsum : s.toDate.dayCount + 1721120 = t.toDate.dayCount + 1721120 := heq
        exact Calendar.Date.dayCount_inj s.valid t.valid (by omega)
      · intro heq
        rw [heq]
  · intro j hlo hhi
    obtain ⟨t, rfl⟩ := exists_julianDay hlo hhi
    exact ⟨t, hback t, hnumber t⟩

end Unp.Util
