/-!
The Gregorian calendar, extended to all years, as a count of days from 1970-01-01.
-/
namespace InFlight

structure Date where
  year : Int
  month : Nat
  day : Nat
  deriving DecidableEq, Repr

namespace Date

def isLeap (year : Int) : Bool := year % 4 == 0 && (year % 100 != 0 || year % 400 == 0)

def monthLength (year : Int) (month : Nat) : Nat :=
  if month = 2 then if isLeap year then 29 else 28
  else if month = 4 ∨ month = 6 ∨ month = 9 ∨ month = 11 then 30
  else 31

def IsValid (d : Date) : Prop :=
  1 ≤ d.month ∧ d.month ≤ 12 ∧ 1 ≤ d.day ∧ d.day ≤ monthLength d.year d.month

instance (d : Date) : Decidable d.IsValid := inferInstanceAs (Decidable (_ ∧ _ ∧ _ ∧ _))

/-- Years are counted from March, so that a leap day ends its year. -/
def marchYear (d : Date) : Int := if d.month ≤ 2 then d.year - 1 else d.year
def marchMonth (d : Date) : Nat := if d.month ≤ 2 then d.month + 9 else d.month - 3

def epochOffset : Int := 719468

def daysBefore (year : Int) : Int := 365 * year + year / 4 - year / 100 + year / 400

def toDay (d : Date) : Int :=
  daysBefore d.marchYear + ((153 * d.marchMonth + 2) / 5 + d.day - 1 : Nat) - epochOffset

/-- Cycles of four hundred years, a hundred, four and one; the last hundred years and the last year
of their cycle have one day more. -/
def ofDay (n : Int) : Date :=
  let days := n + epochOffset
  let rest := (days % 146097).toNat
  let centuries := min (rest / 36524) 3
  let rest := rest - centuries * 36524
  let fours := rest / 1461
  let rest := rest % 1461
  let ones := min (rest / 365) 3
  let rest := rest - ones * 365
  let month := (5 * rest + 2) / 153
  let year := days / 146097 * 400 + (centuries * 100 + fours * 4 + ones : Nat)
  { year := if month < 10 then year else year + 1
    month := if month < 10 then month + 3 else month - 9
    day := rest - (153 * month + 2) / 5 + 1 }

end Date

end InFlight
