import InFlight.Decimal.Natural
/-!
Doubles as exact numbers: the sign, and the magnitude as a mantissa times a power of two.
-/
namespace InFlight.Decimal

inductive Binary64 where
  | nan
  | infinite (negative : Bool)
  | finite (negative : Bool) (mantissa : Nat) (exponent : Int)
  deriving DecidableEq, Repr

namespace Binary64

/-- One sign bit, eleven of the exponent, fifty-two of the mantissa; the leading one of the mantissa
is left out unless the exponent bits are all zero. -/
def ofBits (bits : Nat) : Binary64 :=
  let negative := bits / twoTo 63 % 2 == 1
  let exponent := bits / twoTo 52 % 2048
  let mantissa := bits % twoTo 52
  if exponent = 2047 then if mantissa = 0 then infinite negative else nan
  else if exponent = 0 then finite negative mantissa (-1074)
  else finite negative (mantissa + twoTo 52) (Int.ofNat exponent - 1075)

def ofFloat (x : Float) : Binary64 := ofBits x.toBits.toNat

def ratio (mantissa : Nat) (exponent : Int) : Nat × Nat :=
  (mantissa * twoTo exponent.toNat, twoTo (-exponent).toNat)

end Binary64

end InFlight.Decimal
