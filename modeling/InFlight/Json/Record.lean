import InFlight.Json.Value
import InFlight.Word
/-!
Records in JSON: an object whose members are found by name, or an array of the fields in their
order. A field may have several spellings and stands under one of them at most once.
-/
namespace InFlight.Json

abbrev Members := List (Option String × Json)

def text? : Json → Option String
  | .string s => s
  | _ => none

def integer? (low high : Int) : Json → Option Int
  | .number n => n.int?.filter fun i => low ≤ i ∧ i ≤ high
  | _ => none

def signed? : Json → Option Int := integer? Word.least64 Word.most64

def unsigned? (j : Json) : Option Nat := (integer? 0 (Word.count64 - 1 : Nat) j).map Int.toNat

def float? : Json → Option Float
  | .number n => n.float?
  | _ => none

def list? {α : Type} (item? : Json → Option α) : Json → Option (List α)
  | .array items => items.mapM item?
  | _ => none

def namesAreText (members : Members) : Bool := members.all fun m => m.1.isSome

def valuesUnder (spellings : List String) (members : Members) : List Json :=
  (members.filter fun m => m.1.any (· ∈ spellings)).map (·.2)

def required? {α : Type} (spellings : List String) (decode : Json → Option α) (members : Members) :
    Option α :=
  match valuesUnder spellings members with
  | [j] => decode j
  | _ => none

def optional? {α : Type} (spellings : List String) (default : α) (decode : Json → Option α)
    (members : Members) : Option α :=
  match valuesUnder spellings members with
  | [] => some default
  | [j] => decode j
  | _ => none

/-- A field at a place of an array that may end before it. -/
def optionalItem? {α : Type} (place : Nat) (default : α) (decode : Json → Option α)
    (items : List Json) : Option α :=
  match items[place]? with
  | none => some default
  | some j => decode j

def requiredItem? {α : Type} (place : Nat) (decode : Json → Option α) (items : List Json) :
    Option α :=
  items[place]?.bind decode

def objectOf (members : List (String × Json)) : Json :=
  .object (members.map fun m => (some m.1, m.2))

end InFlight.Json
