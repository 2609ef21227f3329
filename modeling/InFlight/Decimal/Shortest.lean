import InFlight.Decimal.Binary64
/-!
The shortest decimal of a double: the fewest digits that lie closer to it than to any other double,
and of those the nearest.
-/
namespace InFlight.Decimal

structure Scaled where
  digits : Nat
  exponent : Int
  deriving DecidableEq, Repr

namespace Shortest

/-- The reals that round to a double, over one denominator; the ends belong to it when `closed`. -/
structure Interval where
  value : Nat
  low : Nat
  high : Nat
  den : Nat
  closed : Bool

/-- Half the distance to each neighbour. The neighbour below a power of two is at half the distance,
save at the bottom of the range, where the doubles lie evenly. -/
def interval (mantissa : Nat) (exponent : Int) : Interval :=
  let (num, den) := Binary64.ratio mantissa exponent
  let unit := twoTo exponent.toNat
  let below := if mantissa = twoTo 52 ∧ -1074 < exponent then unit else 2 * unit
  { value := 4 * num, low := 4 * num - below, high := 4 * num + 2 * unit, den := 4 * den,
    closed := mantissa % 2 == 0 }

def leading (num den : Nat) : Int :=
  if den ≤ num then ((toString (num / den)).length : Int) - 1
  else
    let places := (toString (den / num)).length
    if num * tenTo (places - 1) = den then 1 - (places : Int) else -(places : Int)

namespace Interval

def Holds (i : Interval) (low mid high : Nat) : Bool :=
  if i.closed then low ≤ mid && mid ≤ high else low < mid && mid < high

/-- The best multiple of `10 ^ place` inside, if one is: the nearer of the two next to the value,
and of two equally near the even one. -/
def onGrid? (i : Interval) (place : Int) : Option Scaled :=
  let step := i.den * tenTo place.toNat
  let scale := tenTo (-place).toNat
  let value := i.value * scale
  let floor := value / step
  let inside (n : Nat) := i.Holds (i.low * scale) (n * step) (i.high * scale)
  let takesLower := inside floor
  let takesUpper := inside (floor + 1)
  let past := value - floor * step
  let isLowerNearer := 2 * past < step || (2 * past == step && floor % 2 == 0)
  if takesLower && (isLowerNearer || !takesUpper) then some ⟨floor, place⟩
  else if takesUpper then some ⟨floor + 1, place⟩
  else none

def search (i : Interval) (place : Int) : Nat → Scaled
  | 0 => ⟨0, 0⟩
  | tries + 1 => match i.onGrid? place with
    | some d => d
    | none => search i (place - 1) tries

end Interval

/-- Seventeen digits tell any two doubles apart. -/
def ofFinite (mantissa : Nat) (exponent : Int) : Scaled :=
  if mantissa = 0 then ⟨0, 0⟩
  else
    let i := interval mantissa exponent
    i.search (leading i.value i.den) 18

end Shortest

namespace Scaled

def strip (d : Scaled) : Nat → Scaled
  | 0 => d
  | fuel + 1 =>
    if d.digits % 10 = 0 ∧ d.digits ≠ 0 then strip ⟨d.digits / 10, d.exponent + 1⟩ fuel else d

end Scaled

end InFlight.Decimal
