import InFlight.Decimal.Natural
import InFlight.Decimal.Shortest
import InFlight.Word
/-!
JSON values as they are written: members of an object keep their order and may repeat a name, and a
number keeps its digits.
-/
namespace InFlight

namespace Json

structure Number where
  negative : Bool
  whole : List Char
  fraction : Option (List Char)
  exponent : Option (Bool × List Char)
  deriving DecidableEq, Repr

end Json

/-- A string is `none` when its escapes name a surrogate without its partner: well formed, but no
text. -/
inductive Json where
  | null
  | bool (value : Bool)
  | number (value : Json.Number)
  | string (value : Option String)
  | array (items : List Json)
  | object (members : List (Option String × Json))

namespace Json.Number

def ofInt (n : Int) : Number := ⟨n < 0, (toString n.natAbs).toList, none, none⟩

/-- An integer is written without point and exponent, and minus zero is none. -/
def int? (n : Number) : Option Int :=
  match n.fraction, n.exponent with
  | none, none =>
    let magnitude := Decimal.ofDigits 10 n.whole
    if n.negative then if magnitude = 0 then none else some (-(magnitude : Int))
    else some (magnitude : Int)
  | _, _ => none

def significand (start : Nat) : List Char → Nat × List Char
  | [] => (start, [])
  | c :: r =>
    let next := start * 10 + (c.toNat - 48)
    if next < Word.count64 then significand next r else (start, c :: r)

def topPower : Nat := 308

def power (k : Nat) : Float := Float.ofScientific 1 false k

/-- A significand times a power of ten: one rounding for the significand and one for each factor.
None when the result is too large. -/
def scale (value : Float) (exponent : Int) : Nat → Option Float
  | 0 => some value
  | fuel + 1 =>
    if exponent.natAbs ≤ topPower then
      if 0 ≤ exponent then
        let product := value * power exponent.natAbs
        if product.isInf then none else some product
      else some (value / power exponent.natAbs)
    else if value == 0.0 then some value
    else if 0 ≤ exponent then none
    else scale (value / power topPower) (exponent + topPower) fuel

def endless : Nat := Word.most32 + 1

/-- The double nearest to the significand of the first digits that fit 64 bits, scaled by the
exponent. Digits before the point that do not fit raise the exponent, and those behind it are
dropped. -/
def magnitude? (n : Number) : Option Float :=
  let (kept, left) := significand 0 n.whole
  let (kept, taken) := match n.fraction with
    | none => (kept, 0)
    | some digits =>
      let (all, unread) := significand kept digits
      (all, digits.length - unread.length)
  let shift : Int := (left.length : Int) - taken
  let value := (UInt64.ofNat kept).toFloat
  match n.exponent with
  | none => scale value shift (shift.natAbs + 1)
  | some (below, digits) =>
    let e := Decimal.ofDigits 10 digits
    if endless ≤ e then if kept ≠ 0 ∧ !below then none else some 0.0
    else
      let exponent := if below then shift - e else shift + e
      scale value exponent (exponent.natAbs / topPower + 1)

def float? (n : Number) : Option Float :=
  n.magnitude?.map fun x => if n.negative then -x else x

/-- How the latencies of a chart are written: positional from `10 ^ -5` up to below `10 ^ 16`, with
a digit behind the point; otherwise with a signed exponent. -/
def layOut (negative : Bool) (d : Decimal.Scaled) : Number :=
  let digits := (toString d.digits).toList
  let leading : Int := d.exponent + digits.length - 1
  if -5 ≤ leading ∧ leading < 16 then
    if leading < 0 then
      ⟨negative, ['0'], some (List.replicate (leading.natAbs - 1) '0' ++ digits), none⟩
    else if 0 ≤ d.exponent then
      ⟨negative, digits ++ List.replicate d.exponent.toNat '0', some ['0'], none⟩
    else
      ⟨negative, digits.take (leading.toNat + 1), some (digits.drop (leading.toNat + 1)), none⟩
  else
    ⟨negative, digits.take 1, if digits.length = 1 then none else some (digits.drop 1),
      some (leading < 0, (toString leading.natAbs).toList)⟩

def ofFloat? (x : Float) : Option Number :=
  match Decimal.Binary64.ofFloat x with
  | .finite negative mantissa exponent =>
    some (layOut negative ((Decimal.Shortest.ofFinite mantissa exponent).strip 20))
  | _ => none

def text (n : Number) : List Char :=
  (if n.negative then ['-'] else []) ++ n.whole ++
    (match n.fraction with
      | none => []
      | some digits => '.' :: digits) ++
    (match n.exponent with
      | none => []
      | some (below, digits) => 'e' :: (if below then '-' else '+') :: digits)

end Json.Number

namespace Json

def ofInt (n : Int) : Json := .number (Number.ofInt n)
def ofText (s : String) : Json := .string (some s)

def ofFloat (x : Float) : Json :=
  match Number.ofFloat? x with
  | some n => .number n
  | none => .null

end Json

end InFlight
