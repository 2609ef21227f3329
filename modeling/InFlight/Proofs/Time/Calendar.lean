import InFlight.Time.Calendar
import InFlight.Time.Instant
import Mathlib.Order.Basic
/-!
Every day is the day of its date, and every date of a day is one of the calendar.
-/
namespace InFlight.Date

/-- Where a day stands in its cycle of four hundred years: hundreds of years, fours, years, and days
since March. -/
structure IsPlace (days cycle : Int) (centuries fours ones day : Nat) : Prop where
  sum : days = cycle * 146097 + (centuries * 36524 + fours * 1461 + ones * 365 + day : Nat)
  centuries_le : centuries ≤ 3
  fours_le : fours ≤ 24
  ones_le : ones ≤ 3
  day_le : day ≤ 365
  /-- Only a fourth year has a leap day, and only a fourth century one in its last year. -/
  leap : day = 365 → ones = 3 ∧ (fours < 24 ∨ centuries = 3)

/-- The date of a place: years begin in March, and the lengths of their months go through a pattern
of five. -/
def ofPlace (cycle : Int) (centuries fours ones day : Nat) : Date :=
  let month := (5 * day + 2) / 153
  let year := cycle * 400 + (centuries * 100 + fours * 4 + ones : Nat)
  { year := if month < 10 then year else year + 1
    month := if month < 10 then month + 3 else month - 9
    day := day - (153 * month + 2) / 5 + 1 }

theorem exists_place (n : Int) : ∃ cycle centuries fours ones day,
    IsPlace (n + epochOffset) cycle centuries fours ones day ∧
    ofDay n = ofPlace cycle centuries fours ones day := by
  let days := n + epochOffset
  let rest := (days % 146097).toNat
  let centuries := min (rest / 36524) 3
  let left := rest - centuries * 36524
  let ones := min (left % 1461 / 365) 3
  refine ⟨days / 146097, centuries, left / 1461, ones, left % 1461 - ones * 365, ?_, rfl⟩
  have rest_eq : (rest : Int) = days % 146097 := Int.toNat_of_nonneg (Int.emod_nonneg _ (by decide))
  have rest_lt : rest < 146097 := by omega
  have left_le : left ≤ 36524 ∧ rest = centuries * 36524 + left ∧ (left = 36524 → centuries = 3) ∧
      centuries ≤ 3 := by
    simp only [left, centuries]
    omega
  obtain ⟨left_le, rest_sum, last_century, centuries_le⟩ := left_le
  have ones_facts : ones ≤ 3 ∧ left % 1461 - ones * 365 ≤ 365 ∧ ones * 365 ≤ left % 1461 ∧
      (left % 1461 - ones * 365 = 365 → ones = 3 ∧ left % 1461 = 1460) := by
    simp only [ones]
    omega
  obtain ⟨ones_le, day_le, ones_within, leap⟩ := ones_facts
  refine ⟨?_, centuries_le, by omega, ones_le, day_le, fun last => ?_⟩
  · change days = _
    omega
  · obtain ⟨three, end_of_four⟩ := leap last
    exact ⟨three, by omega⟩

variable {days cycle : Int} {centuries fours ones day : Nat}

theorem toDay_ofPlace (h : IsPlace days cycle centuries fours ones day) :
    (ofPlace cycle centuries fours ones day).toDay = days - epochOffset := by
  obtain ⟨sum, centuries_le, fours_le, ones_le, day_le, -⟩ := h
  have month_le : (5 * day + 2) / 153 ≤ 11 := by omega
  have before : (153 * ((5 * day + 2) / 153) + 2) / 5 ≤ day := by omega
  generalize month_eq : (5 * day + 2) / 153 = month at month_le before
  have march : (ofPlace cycle centuries fours ones day).marchYear =
      cycle * 400 + (centuries * 100 + fours * 4 + ones : Nat) ∧
      (ofPlace cycle centuries fours ones day).marchMonth = month := by
    simp only [ofPlace, marchYear, marchMonth, month_eq]
    split <;> split <;> omega
  have years : daysBefore (cycle * 400 + (centuries * 100 + fours * 4 + ones : Nat)) =
      cycle * 146097 + (centuries * 36524 + fours * 1461 + ones * 365 : Nat) := by
    unfold daysBefore
    omega
  have day_eq : (ofPlace cycle centuries fours ones day).day = day - (153 * month + 2) / 5 + 1 := by
    simp only [ofPlace, month_eq]
  rw [toDay, march.1, march.2, years, day_eq]
  omega

/-- The last day of a leap February closes a year of March. -/
theorem isLeap_of_place (h : IsPlace days cycle centuries fours ones 365) :
    isLeap (cycle * 400 + (centuries * 100 + fours * 4 + ones : Nat) + 1) = true := by
  obtain ⟨rfl, split⟩ := h.leap rfl
  have centuries_le := h.centuries_le
  have fours_le := h.fours_le
  simp only [isLeap, Bool.and_eq_true, Bool.or_eq_true, beq_iff_eq, bne_iff_ne]
  omega

theorem isValid_ofPlace (h : IsPlace days cycle centuries fours ones day) :
    (ofPlace cycle centuries fours ones day).IsValid := by
  have day_le := h.day_le
  have month_le : (5 * day + 2) / 153 ≤ 11 := by omega
  simp only [IsValid, ofPlace]
  generalize month_eq : (5 * day + 2) / 153 = month at month_le
  refine ⟨by split <;> omega, by split <;> omega, by omega, ?_⟩
  by_cases february : month = 11
  · subst february
    by_cases last : day = 365
    · subst last
      have long : 29 ≤ monthLength (cycle * 400 + (centuries * 100 + fours * 4 + ones : Nat) + 1)
          2 := by
        rw [monthLength, if_pos rfl, isLeap_of_place h]
        decide
      exact long
    · have short : 28 ≤ monthLength (cycle * 400 + (centuries * 100 + fours * 4 + ones : Nat) + 1)
          2 := by
        rw [monthLength, if_pos rfl]
        split <;> decide
      refine Nat.le_trans ?_ short
      omega
  · -- the months of the pattern: 31, 30, 31, 30, 31 days from March on
    have cases : month = 0 ∨ month = 1 ∨ month = 2 ∨ month = 3 ∨ month = 4 ∨ month = 5 ∨
        month = 6 ∨ month = 7 ∨
        month = 8 ∨ month = 9 ∨ month = 10 := by omega
    rcases cases with rfl | rfl | rfl | rfl | rfl | rfl | rfl | rfl | rfl | rfl | rfl <;>
      simp [monthLength] <;> omega

theorem toDay_ofDay (n : Int) : (ofDay n).toDay = n := by
  obtain ⟨cycle, centuries, fours, ones, day, place, same⟩ := exists_place n
  rw [same, toDay_ofPlace place]
  omega

theorem natAbs_year_ofDay_lt {n : Int} (low : Instant.firstDay ≤ n) (high : n ≤ Instant.lastDay) :
    (ofDay n).year.natAbs < 1000000 := by
  obtain ⟨cycle, centuries, fours, ones, day, place, same⟩ := exists_place n
  obtain ⟨sum, centuries_le, fours_le, ones_le, day_le, -⟩ := place
  simp only [Instant.firstDay, Instant.lastDay, epochOffset] at low high sum
  rw [same]
  simp only [ofPlace]
  split <;> omega

theorem isValid_ofDay (n : Int) : (ofDay n).IsValid := by
  obtain ⟨cycle, centuries, fours, ones, day, place, same⟩ := exists_place n
  rw [same]
  exact isValid_ofPlace place

theorem IsValid.month_lt {date : Date} (h : date.IsValid) : date.month < 100 := by
  have month_le := h.2.1
  omega

theorem IsValid.day_lt {date : Date} (h : date.IsValid) : date.day < 100 := by
  have length_le : monthLength date.year date.month ≤ 31 := by
    unfold monthLength
    repeat' split
    all_goals decide
  have day_le := h.2.2.2
  omega

end InFlight.Date
