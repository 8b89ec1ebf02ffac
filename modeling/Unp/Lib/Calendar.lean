import Mathlib.Tactic.Common

/-!
# The proleptic Gregorian calendar

A date is a year, a month and a day, and the calendar says which day follows which. `dayCount`
numbers the days: it counts them in years that begin in March, so that the leap day is the last day
of its year and the months before it always have the same lengths. Division is that of the integers,
rounded down, so the count is right for the years before the year 1 too.

The two results are that the count goes up by one from a day to the next, and that it is in the order
of the dates.
-/

namespace Unp.Calendar

structure Date where
  year : Int
  month : Int
  day : Int
  deriving Repr, DecidableEq

def IsLeap (year : Int) : Prop := year % 4 = 0 ∧ (year % 100 ≠ 0 ∨ year % 400 = 0)

instance (year : Int) : Decidable (IsLeap year) :=
  inferInstanceAs (Decidable (year % 4 = 0 ∧ (year % 100 ≠ 0 ∨ year % 400 = 0)))

def daysInMonth (year month : Int) : Int :=
  if month = 2 then if IsLeap year then 29 else 28
  else if month = 4 ∨ month = 6 ∨ month = 9 ∨ month = 11 then 30
  else 31

namespace Date

structure Valid (t : Date) : Prop where
  month_pos : 1 ≤ t.month
  month_le : t.month ≤ 12
  day_pos : 1 ≤ t.day
  day_le : t.day ≤ daysInMonth t.year t.month

/-- The next day. -/
def next (t : Date) : Date :=
  if t.day < daysInMonth t.year t.month then ⟨t.year, t.month, t.day + 1⟩
  else if t.month < 12 then ⟨t.year, t.month + 1, 1⟩
  else ⟨t.year + 1, 1, 1⟩

/-- The order of the dates: by year, month and day. -/
def Before (s t : Date) : Prop :=
  s.year < t.year ∨ s.year = t.year ∧
    (s.month < t.month ∨ s.month = t.month ∧ s.day < t.day)

/-! ## Years that begin in March -/

/-- The year that began last March. -/
def marchYear (t : Date) : Int := if t.month ≤ 2 then t.year - 1 else t.year

/-- The months since March. -/
def marchMonth (t : Date) : Int := if t.month ≤ 2 then t.month + 9 else t.month - 3

end Date

/-- The days before a year. -/
def beforeYear (year : Int) : Int := 365 * year + year / 4 - year / 100 + year / 400

/-- The days before a month of a year that begins in March: five months have 153 days. -/
def beforeMonth (month : Int) : Int := (153 * month + 2) / 5

namespace Date

/-- The days since the first of March. -/
def dayOfYear (t : Date) : Int := beforeMonth t.marchMonth + t.day - 1

/-- The days since the first of March of the year 0. -/
def dayCount (t : Date) : Int := beforeYear t.marchYear + t.dayOfYear

section Months
variable {t : Date}

/-- Every month but the last ends where the next one begins. -/
theorem beforeMonth_succ (hlo : 1 ≤ t.month) (hhi : t.month ≤ 12) (hfeb : t.month ≠ 2) :
    beforeMonth (t.marchMonth + 1) = beforeMonth t.marchMonth + daysInMonth t.year t.month := by
  unfold beforeMonth marchMonth daysInMonth
  rw [if_neg hfeb]
  have hmonths : t.month = 1 ∨ t.month = 3 ∨ t.month = 4 ∨ t.month = 5 ∨ t.month = 6 ∨ t.month = 7 ∨
      t.month = 8 ∨ t.month = 9 ∨ t.month = 10 ∨ t.month = 11 ∨ t.month = 12 := by omega
  rcases hmonths with h | h | h | h | h | h | h | h | h | h | h
  all_goals
    rw [h]
    decide

/-- The leap day is the last day of a year that begins in March. -/
theorem beforeYear_succ (year : Int) :
    beforeYear year + 337 + daysInMonth (year + 1) 2 = beforeYear (year + 1) := by
  have hlength : daysInMonth (year + 1) 2 = if IsLeap (year + 1) then 29 else 28 := if_pos rfl
  rw [hlength]
  unfold beforeYear
  split
  · next hleap =>
    unfold IsLeap at hleap
    omega
  · next hleap =>
    unfold IsLeap at hleap
    omega

theorem dayOfYear_nonneg (ht : t.Valid) : 0 ≤ t.dayOfYear := by
  obtain ⟨hlo, hhi, hday, -⟩ := ht
  unfold dayOfYear beforeMonth marchMonth
  split <;> omega

/-- No day is beyond the end of its year. -/
theorem dayCount_lt (ht : t.Valid) : t.dayCount < beforeYear (t.marchYear + 1) := by
  obtain ⟨hlo, hhi, -, hday⟩ := ht
  rw [← beforeYear_succ]
  unfold dayCount dayOfYear
  by_cases hfeb : t.month = 2
  · have hyear : t.marchYear + 1 = t.year := by
      unfold marchYear
      rw [if_pos (by omega)]
      omega
    have hmonth : beforeMonth t.marchMonth = 337 := by
      unfold beforeMonth marchMonth
      rw [if_pos (by omega), hfeb]
      rfl
    rw [hyear, hmonth, ← hfeb]
    omega
  · have hend := beforeMonth_succ hlo hhi hfeb
    have hlast : beforeMonth (t.marchMonth + 1) ≤ 337 := by
      unfold beforeMonth marchMonth
      split <;> omega
    have hlength : 28 ≤ daysInMonth (t.marchYear + 1) 2 := by
      unfold daysInMonth
      rw [if_pos rfl]
      split <;> omega
    omega

end Months

/-! ## From a day to the next -/

section Next
variable {t : Date}

theorem daysInMonth_pos (year month : Int) : 28 ≤ daysInMonth year month := by
  unfold daysInMonth
  split
  · split <;> omega
  · split <;> omega

theorem next_valid (ht : t.Valid) : t.next.Valid := by
  obtain ⟨hlo, hhi, hday, hle⟩ := ht
  unfold next
  split
  · next hlt => exact ⟨hlo, hhi, Int.le_add_one hday, hlt⟩
  · split
    · next hmonth =>
      have := daysInMonth_pos t.year (t.month + 1)
      exact ⟨by dsimp only; omega, hmonth, Int.le_refl 1, by dsimp only; omega⟩
    · have := daysInMonth_pos (t.year + 1) 1
      exact ⟨Int.le_refl 1, by dsimp only; omega, Int.le_refl 1, by dsimp only; omega⟩

theorem dayCount_next (ht : t.Valid) : t.next.dayCount = t.dayCount + 1 := by
  obtain ⟨hlo, hhi, hday, hle⟩ := ht
  unfold next
  split
  · unfold dayCount dayOfYear marchYear marchMonth
    dsimp only
    omega
  · next hlast =>
    have hend : t.day = daysInMonth t.year t.month := by omega
    by_cases hfeb : t.month = 2
    · -- a new year begins
      have hyear := beforeYear_succ (t.year - 1)
      rw [Int.sub_add_cancel] at hyear
      rw [if_pos (by omega)]
      rw [hfeb] at hend ⊢
      unfold dayCount dayOfYear marchYear marchMonth beforeMonth
      dsimp only
      rw [if_neg (by decide), if_neg (by decide), if_pos (by omega), if_pos (by omega), hfeb, hend]
      omega
    · have hmonth := beforeMonth_succ hlo hhi hfeb
      have hsame : ∀ s : Date, s.marchYear = t.marchYear → s.marchMonth = t.marchMonth + 1 →
          s.day = 1 → s.dayCount = t.dayCount + 1 := by
        intro s hs hm hd
        unfold dayCount dayOfYear
        rw [hs, hm, hd, hmonth, hend]
        omega
      split
      · apply hsame _ _ _ rfl
        · unfold marchYear
          dsimp only
          split <;> split <;> omega
        · unfold marchMonth
          dsimp only
          split <;> split <;> omega
      · apply hsame _ _ _ rfl
        · unfold marchYear
          dsimp only
          rw [if_pos (by decide), if_neg (by omega)]
          omega
        · unfold marchMonth
          dsimp only
          rw [if_pos (by decide), if_neg (by omega)]
          omega

end Next

/-! ## In the order of the dates -/

section Order
variable {s t : Date}

theorem beforeYear_mono {x y : Int} (h : x ≤ y) : beforeYear x ≤ beforeYear y := by
  unfold beforeYear
  omega

theorem beforeMonth_mono {x y : Int} (h : x ≤ y) : beforeMonth x ≤ beforeMonth y := by
  unfold beforeMonth
  omega

theorem dayCount_lt_of_year (hs : s.Valid) (ht : t.Valid) (h : s.marchYear < t.marchYear) :
    s.dayCount < t.dayCount :=
  calc s.dayCount < beforeYear (s.marchYear + 1) := dayCount_lt hs
    _ ≤ beforeYear t.marchYear := beforeYear_mono h
    _ ≤ t.dayCount := Int.le_add_of_nonneg_right (dayOfYear_nonneg ht)

theorem dayCount_lt_of_month (hs : s.Valid) (ht : t.Valid) (hyear : s.marchYear = t.marchYear)
    (h : s.marchMonth < t.marchMonth) : s.dayCount < t.dayCount := by
  have hfeb : s.month ≠ 2 := by
    -- February is the last month
    intro hfeb
    have hlo := ht.month_pos
    have hhi := ht.month_le
    unfold marchMonth at h
    rw [if_pos (by omega)] at h
    split at h <;> omega
  have hend := beforeMonth_succ hs.month_pos hs.month_le hfeb
  have hmono := beforeMonth_mono (Int.add_one_le_of_lt h)
  have hday := hs.day_le
  have hfirst := ht.day_pos
  unfold dayCount dayOfYear
  rw [hyear]
  omega

theorem dayCount_lt_of_before (hs : s.Valid) (ht : t.Valid) (h : s.Before t) :
    s.dayCount < t.dayCount := by
  obtain ⟨hs₁, hs₂⟩ := And.intro hs.month_pos hs.month_le
  obtain ⟨ht₁, ht₂⟩ := And.intro ht.month_pos ht.month_le
  by_cases hyear : s.marchYear < t.marchYear
  · exact dayCount_lt_of_year hs ht hyear
  · have hsame : s.marchYear = t.marchYear := by
      unfold Before at h
      unfold marchYear at hyear ⊢
      split at hyear <;> split at hyear <;> omega
    by_cases hmonth : s.marchMonth < t.marchMonth
    · exact dayCount_lt_of_month hs ht hsame hmonth
    · -- the same month of the same year
      unfold Before at h
      have hboth : s.marchMonth = t.marchMonth ∧ s.day < t.day := by
        unfold marchYear at hsame
        unfold marchMonth at hmonth ⊢
        split at hsame <;> split at hsame <;> simp_all <;> omega
      unfold dayCount dayOfYear
      rw [hsame, hboth.1]
      omega

theorem before_trichotomy (s t : Date) : s.Before t ∨ s = t ∨ t.Before s := by
  unfold Before
  cases s
  cases t
  simp only [mk.injEq]
  omega

theorem dayCount_lt_iff (hs : s.Valid) (ht : t.Valid) :
    s.dayCount < t.dayCount ↔ s.Before t := by
  constructor
  · intro hlt
    rcases before_trichotomy s t with hbefore | rfl | hafter
    · exact hbefore
    · exact absurd hlt (Int.lt_irrefl _)
    · exact absurd (dayCount_lt_of_before ht hs hafter) (Int.lt_asymm hlt)
  · exact dayCount_lt_of_before hs ht

/-- The count tells the dates apart. -/
theorem dayCount_inj (hs : s.Valid) (ht : t.Valid) (h : s.dayCount = t.dayCount) : s = t := by
  rcases before_trichotomy s t with hbefore | heq | hafter
  · have := dayCount_lt_of_before hs ht hbefore
    omega
  · exact heq
  · have := dayCount_lt_of_before ht hs hafter
    omega

/-- No number is left out. -/
theorem exists_dayCount (hs : s.Valid) (n : Nat) :
    ∃ t : Date, t.Valid ∧ t.dayCount = s.dayCount + n := by
  induction n with
  | zero => exact ⟨s, hs, (Int.add_zero _).symm⟩
  | succ n ih =>
      obtain ⟨t, ht, hcount⟩ := ih
      refine ⟨t.next, next_valid ht, ?_⟩
      rw [dayCount_next ht, hcount]
      omega

end Order

end Date

end Unp.Calendar
