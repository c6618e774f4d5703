import Mathlib.Algebra.GroupWithZero.Nat
import Mathlib.Data.Int.Notation
import Mathlib.Tactic.Common
import Mathlib.Tactic.SplitIfs

/-! The proleptic Gregorian calendar: the date of a day and the time of a second,
both counted from 1970, and that they keep the order. -/

namespace GramsTof.Lib.Calendar

/-- Days from 1970-01-01 to the first of January of `y`. -/
def yearStart (y : ℤ) : ℤ :=
  365 * (y - 1970) + (y - 1) / 4 - (y - 1) / 100 + (y - 1) / 400 - 477

def leapYear (y : ℤ) : Bool := y % 4 = 0 ∧ (y % 100 ≠ 0 ∨ y % 400 = 0)

/-- The year of a day, by periods of 400, 100 and 4 years from the year 1. -/
def yearOf (d : ℤ) : ℤ :=
  let n := d + 719162
  let century := min (n % 146097 / 36524) 3
  let k := n % 146097 - 36524 * century
  400 * (n / 146097) + 100 * century + 4 * (k / 1461) + min (k % 1461 / 365) 3 + 1

def monthLengths (leap : Bool) : List ℕ :=
  [31, if leap then 29 else 28, 31, 30, 31, 30, 31, 31, 30, 31, 30, 31]

/-- The month and the day of the month, both from 1, of the `n`th day from 0. -/
def monthDay : List ℕ → ℕ → ℕ × ℕ
  | [], n => (1, n + 1)
  | days :: lengths, n =>
    if n < days then (1, n + 1)
    else
      let (month, day) := monthDay lengths (n - days)
      (month + 1, day)

/-- The fields of a second. -/
structure Time where
  year : ℤ
  month : ℕ
  day : ℕ
  hour : ℕ
  minute : ℕ
  second : ℕ
  deriving DecidableEq, Repr

/-- `gmtime` of a second. -/
def gmtime (seconds : ℤ) : Time :=
  let d := seconds / 86400
  let s := (seconds % 86400).toNat
  let year := yearOf d
  let date := monthDay (monthLengths (leapYear year)) (d - yearStart year).toNat
  ⟨year, date.1, date.2, s / 3600, s % 3600 / 60, s % 60⟩

theorem yearStart_succ (y : ℤ) :
    yearStart (y + 1) = yearStart y + 365 + if leapYear y then 1 else 0 := by
  unfold yearStart leapYear
  split_ifs with hleap
  · have h : y % 4 = 0 ∧ (y % 100 ≠ 0 ∨ y % 400 = 0) := by simpa using hleap
    omega
  · have h : ¬ (y % 4 = 0 ∧ (y % 100 ≠ 0 ∨ y % 400 = 0)) := by simpa using hleap
    omega

/-- The start of a year given by its place in the periods. -/
theorem yearStart_periods {e c q y : ℤ} (hc : 0 ≤ c ∧ c ≤ 3) (hq : 0 ≤ q ∧ q ≤ 24)
    (hy : 0 ≤ y ∧ y ≤ 3) :
    yearStart (400 * e + 100 * c + 4 * q + y + 1) =
      146097 * e + 36524 * c + 1461 * q + 365 * y - 719162 := by
  have h4 : (400 * e + 100 * c + 4 * q + y + 1 - 1) / 4 = 100 * e + 25 * c + q := by omega
  have h100 : (400 * e + 100 * c + 4 * q + y + 1 - 1) / 100 = 4 * e + c := by omega
  have h400 : (400 * e + 100 * c + 4 * q + y + 1 - 1) / 400 = e := by omega
  rw [yearStart, h4, h100, h400]
  omega

/-- A day by periods of 400, 100, 4 and single years. -/
theorem yearOf_periods (d : ℤ) : ∃ e c q y r : ℤ, (0 ≤ c ∧ c ≤ 3) ∧ (0 ≤ q ∧ q ≤ 24) ∧
    (0 ≤ y ∧ y ≤ 3) ∧ yearOf d = 400 * e + 100 * c + 4 * q + y + 1 ∧
    d = 146097 * e + 36524 * c + 1461 * q + 365 * y + r - 719162 ∧ 0 ≤ r ∧
    (r < 365 ∨ r = 365 ∧ y = 3 ∧ (q < 24 ∨ c = 3)) := by
  let n := d + 719162
  let c := min (n % 146097 / 36524) 3
  let k := n % 146097 - 36524 * c
  have hc : 0 ≤ c ∧ c ≤ 3 := by omega
  have hk : 0 ≤ k ∧ (k < 36524 ∨ k = 36524 ∧ c = 3) := by omega
  refine ⟨n / 146097, c, k / 1461, min (k % 1461 / 365) 3,
    k % 1461 - 365 * min (k % 1461 / 365) 3, hc, by omega, by omega, rfl, by omega, by omega, ?_⟩
  omega

/-- The last year of a period of four is a leap year, but for three in four hundred. -/
theorem leapYear_periods {e c q : ℤ} (h : q < 24 ∨ c = 3) (hq : 0 ≤ q ∧ q ≤ 24) :
    leapYear (400 * e + 100 * c + 4 * q + 3 + 1) = true := by
  have hleap : (400 * e + 100 * c + 4 * q + 3 + 1) % 4 = 0 ∧
      ((400 * e + 100 * c + 4 * q + 3 + 1) % 100 ≠ 0 ∨
        (400 * e + 100 * c + 4 * q + 3 + 1) % 400 = 0) := by omega
  simpa [leapYear] using hleap

theorem yearOf_spec (d : ℤ) : yearStart (yearOf d) ≤ d ∧ d < yearStart (yearOf d + 1) := by
  obtain ⟨e, c, q, y, r, hc, hq, hy, hyear, hd, hr, hlast⟩ := yearOf_periods d
  rw [yearStart_succ, hyear, yearStart_periods hc hq hy]
  refine ⟨by omega, ?_⟩
  rcases hlast with hlast | ⟨hlast, rfl, hleap⟩
  · split_ifs <;> omega
  · rw [leapYear_periods hleap hq]
    simp only [if_true]
    omega

theorem yearStart_mono {y z : ℤ} (h : y ≤ z) : yearStart y ≤ yearStart z := by
  unfold yearStart
  omega

theorem yearOf_mono {d d' : ℤ} (h : d ≤ d') : yearOf d ≤ yearOf d' := by
  by_contra hlt
  have hstart : yearStart (yearOf d' + 1) ≤ yearStart (yearOf d) := yearStart_mono (by omega)
  have hd := (yearOf_spec d).1
  have hd' := (yearOf_spec d').2
  omega

/-- Later in a year is a later month, or a later day of the same one. -/
theorem monthDay_lt {lengths : List ℕ} {n m : ℕ} (h : n < m) :
    (monthDay lengths n).1 < (monthDay lengths m).1 ∨
      (monthDay lengths n).1 = (monthDay lengths m).1 ∧
        (monthDay lengths n).2 < (monthDay lengths m).2 := by
  induction lengths generalizing n m with
  | nil => exact .inr ⟨rfl, Nat.succ_lt_succ h⟩
  | cons days lengths ih =>
    simp only [monthDay]
    have hpos (k : ℕ) : 0 < (monthDay lengths k).1 := by
      cases lengths with
      | nil => exact Nat.one_pos
      | cons days' lengths =>
        simp only [monthDay]
        split_ifs
        · exact Nat.one_pos
        · exact Nat.succ_pos _
    split_ifs with hn hm hm
    · exact .inr ⟨rfl, Nat.succ_lt_succ h⟩
    · have := hpos (m - days)
      exact .inl (Nat.succ_lt_succ this)
    · omega
    · rcases ih (n := n - days) (m := m - days) (by omega) with hlt | ⟨heq, hlt⟩
      · exact .inl (Nat.succ_lt_succ hlt)
      · exact .inr ⟨congrArg Nat.succ heq, hlt⟩

/-- The month and the day stay within their bounds during the year. -/
theorem monthDay_le {lengths : List ℕ} {n bound : ℕ} (hn : n < lengths.sum)
    (hb : ∀ days ∈ lengths, days ≤ bound) :
    (monthDay lengths n).1 ≤ lengths.length ∧ (monthDay lengths n).2 ≤ bound := by
  induction lengths generalizing n with
  | nil => cases hn
  | cons days lengths ih =>
    simp only [monthDay]
    rw [List.sum_cons] at hn
    split_ifs with hlt
    · exact ⟨by simp, Nat.le_trans hlt (hb days List.mem_cons_self)⟩
    · obtain ⟨hmonth, hday⟩ := ih (n := n - days) (by omega) fun x hx =>
        hb x (List.mem_cons_of_mem _ hx)
      exact ⟨Nat.succ_le_succ hmonth, hday⟩

namespace Time

/-- Earlier by the calendar. -/
def Before (t u : Time) : Prop :=
  t.year < u.year ∨ t.year = u.year ∧ (t.month < u.month ∨ t.month = u.month ∧
    (t.day < u.day ∨ t.day = u.day ∧ (t.hour < u.hour ∨ t.hour = u.hour ∧
      (t.minute < u.minute ∨ t.minute = u.minute ∧ t.second < u.second))))

end Time

theorem gmtime_year (s : ℤ) : (gmtime s).year = yearOf (s / 86400) := rfl

/-- A second of an earlier day. -/
theorem gmtime_before_day {s s' : ℤ} (h : s / 86400 < s' / 86400) :
    (gmtime s).year < (gmtime s').year ∨ (gmtime s).year = (gmtime s').year ∧
      ((gmtime s).month < (gmtime s').month ∨ (gmtime s).month = (gmtime s').month ∧
        (gmtime s).day < (gmtime s').day) := by
  rcases Int.lt_or_eq_of_le (yearOf_mono (Int.le_of_lt h)) with hyear | hyear
  · exact .inl hyear
  · refine .inr ⟨hyear, ?_⟩
    have hstart := (yearOf_spec (s / 86400)).1
    simp only [gmtime, ← hyear]
    exact monthDay_lt (by omega)

/-- `gmtime` keeps the order. -/
theorem gmtime_before {s s' : ℤ} (h : s < s') : (gmtime s).Before (gmtime s') := by
  unfold Time.Before
  by_cases hday : s / 86400 = s' / 86400
  · have hdate : (gmtime s).year = (gmtime s').year ∧ (gmtime s).month = (gmtime s').month ∧
        (gmtime s).day = (gmtime s').day := by
      simp only [gmtime, hday, and_self]
    obtain ⟨hy, hm, hd⟩ := hdate
    refine .inr ⟨hy, .inr ⟨hm, .inr ⟨hd, ?_⟩⟩⟩
    simp only [gmtime]
    omega
  · have hlt : s / 86400 < s' / 86400 := by omega
    rcases gmtime_before_day hlt with hy | ⟨hy, hm | ⟨hm, hd⟩⟩
    · exact .inl hy
    · exact .inr ⟨hy, .inl hm⟩
    · exact .inr ⟨hy, .inr ⟨hm, .inl hd⟩⟩

/-- Every field but the year has two digits. -/
theorem gmtime_bounds (s : ℤ) : (gmtime s).month ≤ 12 ∧ (gmtime s).day ≤ 31 ∧
    (gmtime s).hour < 24 ∧ (gmtime s).minute < 60 ∧ (gmtime s).second < 60 := by
  obtain ⟨hstart, hend⟩ := yearOf_spec (s / 86400)
  rw [yearStart_succ] at hend
  have hsum : (monthLengths (leapYear (yearOf (s / 86400)))).sum =
      365 + if leapYear (yearOf (s / 86400)) then 1 else 0 := by
    cases leapYear (yearOf (s / 86400)) <;> rfl
  have hn : (s / 86400 - yearStart (yearOf (s / 86400))).toNat <
      (monthLengths (leapYear (yearOf (s / 86400)))).sum := by
    rw [hsum]
    split_ifs at hend ⊢ <;> omega
  have hb : ∀ days ∈ monthLengths (leapYear (yearOf (s / 86400))), days ≤ 31 := by
    cases leapYear (yearOf (s / 86400)) <;> decide
  obtain ⟨hmonth, hday⟩ := monthDay_le hn hb
  refine ⟨hmonth, hday, ?_, ?_, ?_⟩ <;> (simp only [gmtime]; omega)

example : gmtime 1709210096 = ⟨2024, 2, 29, 12, 34, 56⟩ := by decide

end GramsTof.Lib.Calendar
