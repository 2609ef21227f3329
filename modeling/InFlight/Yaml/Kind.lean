import InFlight.Word
import InFlight.Yaml.Node
/-!
What a scalar without quotes stands for: null, a truth value, a number or its text. A tag of a core
type demands the type.
-/
namespace InFlight.Yaml

/-- A number with a fraction or exponent is told apart from a text, and its value does not
matter. -/
inductive Kind where
  | null
  | bool (value : Bool)
  | unsigned (value : Nat)
  | signed (value : Int)
  | float
  | text
  deriving DecidableEq, Repr

namespace Kind

def isNull (s : String) : Bool := ["null", "Null", "NULL", "~"].contains s

def bool? (s : String) : Option Bool :=
  if ["true", "True", "TRUE"].contains s then some true
  else if ["false", "False", "FALSE"].contains s then some false
  else none

def dropSign : List Char → List Char
  | '+' :: r | '-' :: r => r
  | s => s

def dropPlus : List Char → List Char
  | '+' :: r => r
  | s => s

/-- A zero before other digits makes a text of a number. -/
def hasLeadingZero (s : List Char) : Bool :=
  let digits := dropSign s
  digits.head? == some '0' && digits.length != 1 && digits.all Char.isDigit

def magnitude? (s : List Char) : Option Nat :=
  match s with
  | '0' :: 'x' :: r => Decimal.read? 16 r
  | '0' :: 'o' :: r => Decimal.read? 8 r
  | '0' :: 'b' :: r => Decimal.read? 2 r
  | r => if hasLeadingZero r then none else Decimal.read? 10 r

def natural? (s : List Char) : Option Nat := magnitude? (dropPlus s)

def negative? : List Char → Option Nat
  | '-' :: r => magnitude? r
  | _ => none

def unsigned? (s : String) : Option Nat := (natural? s.toList).filter (· < Word.count64)

def signed? (s : String) : Option Int :=
  ((negative? s.toList).filter (· ≤ Word.most64 + 1)).map fun n => -(n : Int)

def isLong (s : String) : Bool :=
  (natural? s.toList).any (· < Word.count128) || (negative? s.toList).any (· ≤ Word.count128 / 2)

/-- The greatest distance from zero that rounds to a double is below this. -/
def overflow : Nat := Decimal.twoTo 1024 - Decimal.twoTo 970

def isFinite (digits : List Char) (exponent : Int) : Bool :=
  let digits := digits.dropWhile (· == '0')
  let leading : Int := digits.length + exponent
  if digits = [] ∨ leading < 300 then true
  else if 400 < leading then false
  else decide (Decimal.ofDigits 10 digits * Decimal.tenTo exponent.toNat <
    overflow * Decimal.tenTo (-exponent).toNat)

def exponent? : List Char → Option Int
  | [] => some 0
  | c :: r =>
    if c = 'e' ∨ c = 'E' then
      match r with
      | '-' :: r => (Decimal.read? 10 r).map fun n => -(n : Int)
      | r => (Decimal.read? 10 (dropPlus r)).map fun n => (n : Int)
    else none

def isDecimal (s : List Char) : Bool :=
  let whole := s.takeWhile Char.isDigit
  let s := s.dropWhile Char.isDigit
  let (fraction, s) := match s with
    | '.' :: r => (r.takeWhile Char.isDigit, r.dropWhile Char.isDigit)
    | r => ([], r)
  let digits := whole ++ fraction
  digits ≠ [] && (exponent? s).any fun e => isFinite digits (e - fraction.length)

def isFloat (s : String) : Bool :=
  ["-.inf", "-.Inf", "-.INF", ".nan", ".NaN", ".NAN", ".inf", ".Inf", ".INF", "+.inf", "+.Inf",
    "+.INF"].contains s || isDecimal (dropSign s.toList)

def ofInteger? (s : String) : Option Kind :=
  match unsigned? s, signed? s with
  | some n, _ => some (.unsigned n)
  | none, some n => some (.signed n)
  | none, none => none

def ofPlain? (s : String) : Option Kind :=
  if s.isEmpty || isNull s then some .null
  else match bool? s with
    | some b => some (.bool b)
    | none =>
      if (ofInteger? s).isSome then ofInteger? s
      else if isLong s then none
      else if !hasLeadingZero s.toList && isFloat s then some .float
      else some .text

end Kind

namespace Scalar

/-- None where the text is not of the type that the tag names, or the tag is local. -/
def kind? (s : Scalar) : Option Kind :=
  match s.tag with
  | none => if s.style = .plain then Kind.ofPlain? s.text else some .text
  | some tag =>
    if tag = Tag.bool then (Kind.bool? s.text).map .bool
    else if tag = Tag.int then Kind.ofInteger? s.text
    else if tag = Tag.float then if Kind.isFloat s.text then some .float else none
    else if tag = Tag.null then if Kind.isNull s.text then some .null else none
    else if tag.toList.head? = some '!' then none
    else some .text

/-- The scalar may stand for a value of a core type: it has no quotes, or it is a literal block with
the tag of the type. -/
def mayStandFor (s : Scalar) (tag : String) : Bool :=
  s.style == .plain || (s.style == .literal && s.tag == some tag)

end Scalar

namespace Node

def text? : Node → Option String
  | .scalar s => some s.text
  | _ => none

def bool? : Node → Option Bool
  | .scalar s => if s.mayStandFor Tag.bool then Kind.bool? s.text else none
  | _ => none

def unsigned? : Node → Option Nat
  | .scalar s => if s.mayStandFor Tag.int then Kind.unsigned? s.text else none
  | _ => none

def optional? {α : Type} (decode : Node → Option α) (n : Node) : Option (Option α) :=
  let given := (decode n).map some
  match n with
  | .scalar s =>
    if s.style ≠ .plain then given
    else match s.tag with
      | none => if s.text.isEmpty || Kind.isNull s.text then some none else given
      | some tag =>
        if tag = Tag.null then if Kind.isNull s.text then some none else none else given
  | _ => given

/-- A tag with an exclamation mark in front is local and names no value. -/
def isLocal (tag : Option String) : Bool := tag.any (·.toList.head? == some '!')

def isData : Node → Bool
  | .scalar s => s.kind?.isSome
  | .sequence tag items => !isLocal tag && items.attach.all fun i => i.1.isData
  | .mapping tag entries =>
    !isLocal tag && entries.attach.all fun e => e.1.1.isData && e.1.2.isData
termination_by n => sizeOf n
decreasing_by
  · have := List.sizeOf_lt_of_mem i.2; simp; omega
  · have := List.sizeOf_lt_of_mem e.2; cases h : e.1; simp_all; omega
  · have := List.sizeOf_lt_of_mem e.2; cases h : e.1; simp_all; omega

abbrev Fields := List (String × Node)

/-- The entries of a mapping under the texts of its keys. Nothing written is a mapping without
entries. -/
def fields? : Node → Option Fields
  | .scalar s => if s.style = .plain ∧ s.text.isEmpty then some [] else none
  | .sequence _ _ => none
  | .mapping _ entries => entries.mapM fun (key, value) => key.text?.map fun name => (name, value)

def record? (names : List String) (n : Node) : Option Fields := do
  let fields ← n.fields?
  if fields.all (names.contains ·.1) ∧ (fields.map (·.1)).Nodup then some fields else none

end Node

namespace Node.Fields

def get? {α : Type} (fields : Fields) (name : String) (default : α) (decode : Node → Option α) :
    Option α :=
  match fields.lookup name with
  | none => some default
  | some n => decode n

end Node.Fields

end InFlight.Yaml
