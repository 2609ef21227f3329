import InFlight.Decimal.Natural
import InFlight.Yaml.Cursor
/-!
Tags. A tag is written with a handle, which a directive may stand for, and a suffix; or whole,
between angle brackets.
-/
namespace InFlight.Yaml

/-- A tag as it is written. A whole one has no handle. -/
structure TagToken where
  handle : String
  suffix : String
  deriving DecidableEq, Repr

namespace Tag

def core : String := "tag:yaml.org,2002:"

def null : String := core ++ "null"
def bool : String := core ++ "bool"
def int : String := core ++ "int"
def float : String := core ++ "float"

def handles : List (String × String) := [("!", "!"), ("!!", core)]

def resolve? (defined : List (String × String)) (t : TagToken) : Option String :=
  if t.handle.isEmpty then some t.suffix
  else ((defined ++ handles).lookup t.handle).map (· ++ t.suffix)

/-- The characters of a tag; commas and brackets only where it is whole. -/
def isUriChar (whole : Bool) (c : Char) : Bool :=
  isNameChar c || ";/?:@&=+$.!~*'()".toList.contains c || (whole && ",[]".toList.contains c)

def octet? (c : Cursor) : Option (UInt8 × Cursor) :=
  match c.rest with
  | '%' :: a :: b :: _ => (Decimal.read? 16 [a, b]).map fun n => (UInt8.ofNat n, c.advance 3)
  | _ => none

def octetCount? (first : UInt8) : Option Nat :=
  if first < 0x80 then some 1
  else if first &&& 0xE0 = 0xC0 then some 2
  else if first &&& 0xF0 = 0xE0 then some 3
  else if first &&& 0xF8 = 0xF0 then some 4
  else none

def octets? : Nat → Cursor → Option (List UInt8 × Cursor)
  | 0, c => some ([], c)
  | count + 1, c => do
    let (b, c) ← octet? c
    let (bytes, c) ← if b &&& 0xC0 = 0x80 then octets? count c else none
    some (b :: bytes, c)

def escaped? (c : Cursor) : Option (List Char × Cursor) := do
  let (first, c) ← octet? c
  let count ← octetCount? first
  let (more, c) ← octets? (count - 1) c
  let text := (String.fromUTF8? (ByteArray.mk (first :: more).toArray)).getD "\ufffd"
  some (text.toList, c)

def uri? (whole : Bool) : Nat → Cursor → Option (List Char × Cursor)
  | 0, c => some ([], c)
  | fuel + 1, c =>
    match c.head? with
    | some '%' => do
      let (text, c) ← escaped? c
      let (more, c) ← uri? whole fuel c
      some (text ++ more, c)
    | some d =>
      if isUriChar whole d then (uri? whole fuel (c.advance 1)).map fun (more, c) => (d :: more, c)
      else some ([], c)
    | none => some ([], c)

def handle? (c : Cursor) : Option (List Char × Cursor) :=
  if c.isAt '!' then
    let (name, c) := (c.advance 1).takeWhile isNameChar
    if c.isAt '!' then some ('!' :: (name ++ ['!']), c.advance 1) else some ('!' :: name, c)
  else none

def suffix? (whole : Bool) (c : Cursor) : Option (List Char × Cursor) := do
  let (text, c) ← uri? whole c.rest.length c
  if text = [] then none else some (text, c)

def whole? (c : Cursor) : Option (TagToken × Cursor) := do
  let (suffix, c) ← suffix? true (c.advance 2)
  if c.isAt '>' then some (⟨"", String.ofList suffix⟩, c.advance 1) else none

/-- A tag with a handle. A single mark is a tag of its own. -/
def short? (c : Cursor) : Option (TagToken × Cursor) := do
  let (handle, c) ← handle? c
  if 2 ≤ handle.length ∧ handle.getLast? = some '!' then
    let (suffix, c) ← suffix? false c
    some (⟨String.ofList handle, String.ofList suffix⟩, c)
  else
    let (more, c) ← uri? false c.rest.length c
    match handle.drop 1 ++ more with
    | [] => some (⟨"", "!"⟩, c)
    | suffix => some (⟨"!", String.ofList suffix⟩, c)

def take? (inFlow : Bool) (c : Cursor) : Option (TagToken × Cursor) := do
  let (tag, c) ← if c.peek? 1 = some '<' then whole? c else short? c
  if c.isGapAt 0 || (inFlow && c.isAt ',') then some (tag, c) else none

end Tag

inductive Directive where
  | version (major minor : Nat)
  | handle (name meaning : String)
  deriving DecidableEq, Repr

namespace Directive

def number? (c : Cursor) : Option (Nat × Cursor) :=
  let (digits, c) := c.takeWhile Char.isDigit
  if digits.length ≤ 9 then (Decimal.read? 10 digits).map fun n => (n, c) else none

def version? (c : Cursor) : Option (Directive × Cursor) := do
  let (major, c) ← number? (c.skipWhile isBlank)
  let (minor, c) ← if c.isAt '.' then number? (c.advance 1) else none
  some (.version major minor, c)

/-- Any handle with an exclamation mark at either end, and its meaning. -/
def define? (c : Cursor) : Option (Directive × Cursor) := do
  let (name, c) ← Tag.handle? (c.skipWhile isBlank)
  let c ← if name.getLast? = some '!' ∧ c.head?.any isBlank then some (c.skipWhile isBlank)
    else none
  let (meaning, c) ← Tag.suffix? true c
  if c.isGapAt 0 then some (.handle (String.ofList name) (String.ofList meaning), c) else none

def take? (c : Cursor) : Option (Directive × Cursor) := do
  let (name, c) := (c.advance 1).takeWhile isNameChar
  let (directive, c) ←
    if !c.isGapAt 0 then none
    else if name = ['Y', 'A', 'M', 'L'] then version? c
    else if name = ['T', 'A', 'G'] then define? c
    else none
  let c ← c.skipRestOfLine?
  some (directive, c)

end Directive

end InFlight.Yaml
