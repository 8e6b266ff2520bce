import Mathlib.Tactic.IntervalCases
import SignalFlow.Time.Calendar

/-!
Days and dates stand for each other: each day has a date of the calendar, which no other day has. A
cycle of 400 years is four centuries, a century is 25 terms and a term is four years, with a leap day
at the end of each of them that is not skipped.
-/

namespace SignalFlow

namespace Date

-- A day of a cycle, as the day of a year of a term of a century. Only a year with a leap day has a day
-- 365: it ends a term, yet not one that ends a century, unless that century ends the cycle.
structure Terms (dayOfCycle : Nat) where
  century : Nat
  term    : Nat
  year    : Nat
  day     : Nat
  century_le : century ≤ 3
  term_le    : term ≤ 24
  year_le    : year ≤ 3
  day_le     : day ≤ 365
  leap       : day = 365 → year = 3 ∧ (term < 24 ∨ century = 3)
  sum        : dayOfCycle = 36524 * century + 1461 * term + 365 * year + day

namespace Terms

variable {n : Nat}

-- The last century and the last year are the longest, so what is beyond the others is theirs.
theorem nonempty (h : n < 146097) : Nonempty (Terms n) := by
  have ⟨c, m, hc, hm, hl, hn⟩ :
      ∃ c m, c ≤ 3 ∧ m ≤ 36524 ∧ (m = 36524 → c = 3) ∧ n = 36524 * c + m :=
    ⟨min (n / 36524) 3, n - 36524 * min (n / 36524) 3, by omega, by omega, by omega, by omega⟩
  have ⟨y, d, hy, hd, hs, hr⟩ :
      ∃ y d, y ≤ 3 ∧ d ≤ 365 ∧ (d = 365 → y = 3) ∧ m % 1461 = 365 * y + d :=
    ⟨min (m % 1461 / 365) 3, m % 1461 - 365 * min (m % 1461 / 365) 3, by omega, by omega, by omega,
      by omega⟩
  exact ⟨c, m / 1461, y, d, hc, by omega, hy, hd, by omega, by omega⟩

-- The years of the cycle that are over.
def yearOfCycle (t : Terms n) : Nat :=
  100 * t.century + 4 * t.term + t.year

theorem yearOfCycle_eq (t : Terms n) :
    (n - n / 1460 + n / 36524 - n / 146096) / 365 = t.yearOfCycle := by
  have ⟨c, q, y, d, hc, hq, hy, hd, hl, hn⟩ := t
  have hcenturies : n / 36524 - n / 146096 = c := by omega
  have hle : n / 146096 ≤ n / 36524 := by omega
  have hterms : n / 1460 = 25 * c + q + (24 * c + q + 365 * y + d) / 1460 := by omega
  have hextra : (24 * c + q + 365 * y + d) / 1460 ≤ 1 := by omega
  have hdays : n - n / 1460 + n / 36524 - n / 146096 =
      365 * (100 * c + 4 * q + y) + (d - (24 * c + q + 365 * y + d) / 1460) := by omega
  simp only [yearOfCycle]
  omega

theorem sum_eq (t : Terms n) :
    n = 365 * t.yearOfCycle + t.yearOfCycle / 4 - t.yearOfCycle / 100 + t.day := by
  have ⟨c, q, y, d, hc, hq, hy, hd, hl, hn⟩ := t
  simp only [yearOfCycle]
  omega

theorem yearOfCycle_lt (t : Terms n) : t.yearOfCycle < 400 := by
  have ⟨c, q, y, d, hc, hq, hy, hd, hl, hn⟩ := t
  simp only [yearOfCycle]
  omega

theorem isLeapYear (t : Terms n) (h : t.day = 365) (cycle : Int) :
    Date.isLeapYear (cycle * 400 + t.yearOfCycle + 1) = true := by
  have ⟨c, q, y, d, hc, hq, hy, hd, hl, hn⟩ := t
  have ⟨_, _⟩ := hl h
  simp only [Date.isLeapYear, yearOfCycle, Bool.and_eq_true, Bool.or_eq_true, beq_iff_eq,
    bne_iff_ne]
  omega

end Terms

theorem daysInMonth_le (year : Int) (month : Nat) : daysInMonth year month ≤ 31 := by
  simp only [daysInMonth]
  split <;> [split; split] <;> omega

-- The day of the month exists, if the year that ends with it has a leap day when it needs one.
theorem day_le_daysInMonth {day month : Nat} {year : Int} (hm : (5 * day + 2) / 153 = month)
    (hd : day ≤ 365) (hl : day = 365 → isLeapYear (year + 1) = true) :
    day - (153 * month + 2) / 5 + 1 ≤
      daysInMonth (if (month + 2) % 12 + 1 ≤ 2 then year + 1 else year) ((month + 2) % 12 + 1) := by
  have hb : month ≤ 11 := by omega
  by_cases hf : month = 11
  case pos =>
    subst hf
    change day - 337 + 1 ≤ if isLeapYear (year + 1) then 29 else 28
    split
    case isTrue    => omega
    case isFalse h =>
      have hn : day ≠ 365 := mt hl h
      omega
  case neg =>
    interval_cases month <;> simp [daysInMonth] <;> omega

-- A cycle has 146097 days, and the years and days in it are told from each other.
theorem toDays_eq {cycle : Int} {year day month : Nat} (hm : (5 * day + 2) / 153 = month)
    (hd : day ≤ 365) (hy : year < 400) :
    toDays {
      year := if (month + 2) % 12 + 1 ≤ 2 then cycle * 400 + year + 1 else cycle * 400 + year
      month := (month + 2) % 12 + 1
      day := day - (153 * month + 2) / 5 + 1 } =
      cycle * daysPerCycle + (365 * year + year / 4 - year / 100 + day : Nat) - epochOffset := by
  have hb : month ≤ 11 := by omega
  have hback : ((month + 2) % 12 + 1 + 9) % 12 = month := by interval_cases month <;> rfl
  have hyear (early : Prop) [Decidable early] (y : Int) :
      (if early then (if early then y + 1 else y) - 1 else if early then y + 1 else y) = y := by
    split <;> omega
  have hcycle : (cycle * 400 + year) / 400 = cycle := by omega
  have hrest : (cycle * 400 + year) % 400 = year := by omega
  simp only [toDays, hback, hyear, hcycle, hrest]
  omega

-- Each day has a date of the calendar, from which it is told again.
theorem toDays_ofDays (days : Int) : (ofDays days).IsValid ∧ (ofDays days).toDays = days := by
  have hn : ((days + epochOffset) % daysPerCycle).toNat < 146097 := by
    simp only [daysPerCycle]
    omega
  have ⟨t⟩ := Terms.nonempty hn
  have hday := Nat.sub_eq_of_eq_add' t.sum_eq
  simp only [ofDays, t.yearOfCycle_eq, hday]
  constructor
  case left  =>
    have hmonth := day_le_daysInMonth rfl t.day_le
      fun h => t.isLeapYear h ((days + epochOffset) / daysPerCycle)
    exact ⟨Nat.le_add_left .., Nat.mod_lt _ (by decide), Nat.le_add_left .., hmonth⟩
  case right =>
    rw [toDays_eq rfl t.day_le t.yearOfCycle_lt, ←t.sum_eq]
    simp only [daysPerCycle]
    omega

end Date

end SignalFlow
