import InFlight.Decimal.Natural
import InFlight.Word
/-!
Lengths of time in whole nanoseconds. A span is an integer and may be negative; a duration is a
natural number.
-/
namespace InFlight

namespace Span

/-- The longest span either way is a signed word of milliseconds. -/
def longest : Int := 9223372036854775807000000

def fitsWord (s : Int) : Bool := decide (Word.IsSigned64 s)

def wholeMillis (s : Int) : Int := Int.tdiv s 1000000

/-- Division of the seconds and of the nanoseconds below a second, each truncated: the remainder of
the seconds is carried over in nanoseconds. -/
def dividedBy (s : Int) (n : Int) : Int :=
  let seconds := s / 1000000000
  Int.tdiv seconds n * 1000000000 +
    (s % 1000000000 / n + Int.tdiv (Int.tmod seconds n * 1000000000) n)

def iso (s : Int) : String :=
  let magnitude := s.natAbs
  let sign := if s < 0 then "-" else ""
  let whole := magnitude / 1000000000
  let rest := magnitude % 1000000000
  if magnitude = 0 then "P0D"
  else if rest = 0 then sign ++ "PT" ++ toString whole ++ "S"
  else sign ++ "PT" ++ toString whole ++ "." ++ Decimal.fractionDigits 9 rest ++ "S"

theorem dividedBy_one (s : Int) : dividedBy s 1 = s := by
  simp only [dividedBy, Int.tdiv_one, Int.ediv_one, Int.tmod_one]
  omega

end Span

namespace Duration

def toSpan? (d : Nat) : Option Int := if (d : Int) ≤ Span.longest then some (d : Int) else none

def pointed (whole rest places : Nat) (name : String) : String :=
  if rest = 0 then toString whole ++ name
  else toString whole ++ "." ++ Decimal.fractionDigits places rest ++ name

/-- The decimal text in the largest of s, ms, µs and ns that is not longer than the duration. -/
def decimalText (d : Nat) : String :=
  if 1000000000 ≤ d then pointed (d / 1000000000) (d % 1000000000) 9 "s"
  else if 1000000 ≤ d then pointed (d / 1000000) (d % 1000000) 6 "ms"
  else if 1000 ≤ d then pointed (d / 1000) (d % 1000) 3 "µs"
  else toString d ++ "ns"

end Duration

end InFlight
