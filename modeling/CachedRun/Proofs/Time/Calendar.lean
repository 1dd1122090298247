import CachedRun.Time.Instant
import Mathlib.Tactic.IntervalCases

/-!
# The calendar — days and dates

`dateOf` takes a day to its date and `daysOf` takes it back. Both divide by the lengths of cycles,
and the divisions agree because of `exists_dayOfYear`: in a cycle of 400 years that begin in March, a
day lies in the year that `dateOf` finds, at most 365 days after its beginning, and the last day is
there only in a leap year.

So **every day has a date, and its date has the day** (`isValid_dateOf`, `daysOf_dateOf`).
-/

set_option autoImplicit false

namespace CachedRun.Time

/-- The year of a cycle that a day of the cycle lies in, as `dateOf` computes it. -/
def yearOfCycle (day : Int) : Int := (day - day / 1460 + day / 36524 - day / 146096) / 365

theorem yearOfCycle_bounds {day : Int} (h₀ : 0 ≤ day) (h₁ : day < 146097) :
    0 ≤ yearOfCycle day ∧ yearOfCycle day < 400 := by
  unfold yearOfCycle
  omega

/-- A year of a cycle by its century and its four years. -/
theorem yearOfCycle_eq {day fours rest : Int} (h₀ : 0 ≤ day) (h₁ : day < 146096)
    (hday : day = 36524 * (day / 36524) + 1461 * fours + rest) :
    yearOfCycle day = 100 * (day / 36524) + 4 * fours +
      (rest - (24 * (day / 36524) + fours + rest) / 1460) / 365 := by
  have hcentury : day / 36524 = 0 ∨ day / 36524 = 1 ∨ day / 36524 = 2 ∨ day / 36524 = 3 := by omega
  unfold yearOfCycle
  rw [show day / 146096 = 0 by omega]
  rcases hcentury with hc | hc | hc | hc
  all_goals
    rw [hc] at hday ⊢
    omega

/-- **A day of a cycle lies in its year**, and on the last of 366 days only in a leap year, which is
the one in which February ends it. -/
theorem exists_dayOfYear {day : Int} (h₀ : 0 ≤ day) (h₁ : day < 146097) :
    ∃ dayOfYear,
      day = 365 * yearOfCycle day + yearOfCycle day / 4 - yearOfCycle day / 100 + dayOfYear ∧
      0 ≤ dayOfYear ∧ dayOfYear ≤ 365 ∧
      (dayOfYear = 365 → (yearOfCycle day + 1) % 4 = 0 ∧
        ((yearOfCycle day + 1) % 100 ≠ 0 ∨ yearOfCycle day = 399)) := by
  refine ⟨day - (365 * yearOfCycle day + yearOfCycle day / 4 - yearOfCycle day / 100), by omega, ?_⟩
  by_cases hlast : day = 146096
  · -- The last day of the cycle would begin a fifth century.
    have hyear : yearOfCycle day = 399 := by
      unfold yearOfCycle
      omega
    omega
  obtain ⟨fours, rest, hday, hfours₀, hfours₁, hrest₀, hrest₁⟩ : ∃ fours rest,
      day = 36524 * (day / 36524) + 1461 * fours + rest ∧
      0 ≤ fours ∧ fours ≤ 24 ∧ 0 ≤ rest ∧ rest ≤ 1460 :=
    ⟨(day - 36524 * (day / 36524)) / 1461, (day - 36524 * (day / 36524)) % 1461, by omega⟩
  have hyear := yearOfCycle_eq h₀ (by omega) hday
  have hcentury : 0 ≤ day / 36524 ∧ day / 36524 ≤ 3 ∧ day < 36524 * (day / 36524) + 36524 := by omega
  generalize yearOfCycle day = year at hyear ⊢
  generalize day / 36524 = century at *
  generalize hleap : (24 * century + fours + rest) / 1460 = leap at hyear
  have hleap' : leap = 0 ∨ leap = 1 := by omega
  generalize hsingle : (rest - leap) / 365 = single at hyear
  have hdayOfYear : day - (365 * year + year / 4 - year / 100) = rest - 365 * single := by
    have hhundreds : year / 100 = century := by omega
    have hquarters : year / 4 = 25 * century + fours := by omega
    omega
  rw [hdayOfYear]
  refine ⟨by omega, by omega, fun h365 => ?_⟩
  -- With a day too many it is the fourth year, and not the last one of a century.
  have hlong : rest = 1460 ∧ single = 3 := by omega
  omega

/-- A date by its year from March, the month of that year and the day of the month. Counted from
March the day that a leap year adds is the last one, and the lengths of the months follow one
formula. -/
theorem dateOf_eq (days : Int) : ∃ cycle year month day : Int,
    0 ≤ year ∧ year < 400 ∧ 0 ≤ month ∧ month ≤ 11 ∧ 1 ≤ day ∧
    day + (153 * month + 2) / 5 ≤ 366 ∧ day + (153 * month + 2) / 5 ≤ (153 * (month + 1) + 2) / 5 ∧
    (day + (153 * month + 2) / 5 = 366 →
      (year + 1) % 4 = 0 ∧ ((year + 1) % 100 ≠ 0 ∨ year = 399)) ∧
    days = cycle * 146097 + (365 * year + year / 4 - year / 100 + (153 * month + 2) / 5 + day - 1)
      - 719468 ∧
    dateOf days = ⟨if month < 10 then year + cycle * 400 else year + cycle * 400 + 1,
      (if month < 10 then month + 3 else month - 9).toNat, day.toNat⟩ := by
  obtain ⟨dayOfYear, hday, h₀, h₁, hlong⟩ := exists_dayOfYear
    (Int.emod_nonneg (days + 719468) (by decide)) (Int.emod_lt_of_pos _ (by decide))
  have hbounds := yearOfCycle_bounds
    (Int.emod_nonneg (days + 719468) (by decide)) (Int.emod_lt_of_pos _ (by decide))
  refine ⟨(days + 719468) / 146097, yearOfCycle ((days + 719468) % 146097),
    (5 * dayOfYear + 2) / 153, dayOfYear - (153 * ((5 * dayOfYear + 2) / 153) + 2) / 5 + 1,
    hbounds.1, hbounds.2, by omega, by omega, by omega, by omega, by omega, ?_, by omega, ?_⟩
  · intro h
    exact hlong (by omega)
  -- What the calculation calls the day of the year is the one that was chosen above.
  · have hdayOfYear : (days + 719468) % 146097 -
        (365 * yearOfCycle ((days + 719468) % 146097) +
          yearOfCycle ((days + 719468) % 146097) / 4 -
          yearOfCycle ((days + 719468) % 146097) / 100) = dayOfYear := by omega
    have hyear : ((days + 719468) % 146097 - (days + 719468) % 146097 / 1460 +
        (days + 719468) % 146097 / 36524 - (days + 719468) % 146097 / 146096) / 365 =
          yearOfCycle ((days + 719468) % 146097) := rfl
    unfold dateOf
    simp only [hyear, hdayOfYear, Date.mk.injEq, and_true]
    by_cases hmonth : (5 * dayOfYear + 2) / 153 < 10
    · rw [if_pos hmonth, if_pos hmonth, if_neg (by omega)]
    · rw [if_neg hmonth, if_neg hmonth, if_pos (by omega)]

/-- **A day is that of its date.** -/
theorem daysOf_dateOf (days : Int) : daysOf (dateOf days) = days := by
  obtain ⟨cycle, year, month, day, h₀, h₁, hmonth₀, hmonth₁, hday, -, -, -, hdays, hdate⟩ :=
    dateOf_eq days
  rw [hdate, daysOf]
  by_cases hspring : month < 10
  · simp only [if_pos hspring]
    rw [if_neg (by omega), if_neg (by omega)]
    omega
  · simp only [if_neg hspring]
    rw [if_pos (by omega), if_pos (by omega)]
    omega

/-- **Every day has a date of the calendar.** -/
theorem isValid_dateOf (days : Int) : (dateOf days).isValid = true := by
  obtain ⟨cycle, year, month, day, h₀, h₁, hmonth₀, hmonth₁, hday, hend, hmonth, hlong, -, hdate⟩ :=
    dateOf_eq days
  have hleap : day + (153 * month + 2) / 5 = 366 →
      isLeapYear (year + cycle * 400 + 1) = true := by
    intro h
    obtain ⟨hfour, hhundred⟩ := hlong h
    simp only [isLeapYear, Bool.and_eq_true, Bool.or_eq_true, decide_eq_true_eq]
    omega
  rw [hdate, Date.isValid]
  simp only [Bool.and_eq_true, decide_eq_true_eq]
  refine ⟨⟨⟨by split <;> omega, by split <;> omega⟩, by omega⟩, ?_⟩
  interval_cases month
  all_goals simp only [daysInMonth, Int.reduceLT, Int.reduceAdd, Int.reduceSub, if_true, if_false]
  case «11» =>
    by_cases hlast : day = 29
    · rw [hleap (by omega), hlast]
      decide
    · have hshort : day ≤ 28 := by omega
      cases isLeapYear (year + cycle * 400 + 1) <;> simp <;> omega
  all_goals simp; omega

end CachedRun.Time
