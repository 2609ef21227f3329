/-!
Natural numbers as digits: reading in any radix up to sixteen, and writing in ten.
-/
namespace InFlight.Decimal

def twoTo (n : Nat) : Nat := Nat.pow 2 n
def tenTo (n : Nat) : Nat := Nat.pow 10 n

def digitValue? (c : Char) : Option Nat :=
  if '0' ≤ c ∧ c ≤ '9' then some (c.toNat - 48)
  else if 'a' ≤ c ∧ c ≤ 'f' then some (c.toNat - 87)
  else if 'A' ≤ c ∧ c ≤ 'F' then some (c.toNat - 55)
  else none

def isDigitOf (radix : Nat) (c : Char) : Bool := (digitValue? c).any (· < radix)

def ofDigits (radix : Nat) (digits : List Char) : Nat :=
  digits.foldl (fun n c => radix * n + (digitValue? c).getD 0) 0

def read? (radix : Nat) (s : List Char) : Option Nat :=
  if s ≠ [] ∧ s.all (isDigitOf radix) then some (ofDigits radix s) else none

/-- A decimal number not above `top`, with a plus sign or without. -/
def readUpTo? (top : Nat) (s : List Char) : Option Nat :=
  let digits := match s with
    | '+' :: r => r
    | _ => s
  (read? 10 digits).filter (· ≤ top)

def padded (width n : Nat) : String :=
  let digits := toString n
  String.ofList (List.replicate (width - digits.length) '0') ++ digits

def takeDigits (most : Nat) (s : List Char) : List Char × List Char :=
  let digits := (s.take most).takeWhile Char.isDigit
  (digits, s.drop digits.length)

def takeNumber? (most : Nat) (s : List Char) : Option (Nat × List Char) :=
  match takeDigits most s with
  | ([], _) => none
  | (digits, rest) => some (ofDigits 10 digits, rest)

def fractionDigits (places n : Nat) : String :=
  String.ofList ((padded places n).toList.reverse.dropWhile (· == '0')).reverse

end InFlight.Decimal
