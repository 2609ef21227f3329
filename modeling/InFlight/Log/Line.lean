import InFlight.Event.Json
import InFlight.Text.Digit
/-!
A line of a raw log: a JSON object, behind a stamp of the logger or not, before a comma or not. The
object runs from its opening brace to the last closing brace of the line.
-/
namespace InFlight.Log

def decimal? : List Char → Option (List Char)
  | c :: r => if Text.isDecimal c then some r else none
  | [] => none

def literal? (c : Char) : List Char → Option (List Char)
  | d :: r => if d = c then some r else none
  | [] => none

/-- Drops a stamp of the shape `dddd/dd/dd dd:dd:dd`, where a digit stands for each `d`. -/
def stampBody? (s : List Char) : Option (List Char) := do
  let s ← decimal? s
  let s ← decimal? s
  let s ← decimal? s
  let s ← decimal? s
  let s ← literal? '/' s
  let s ← decimal? s
  let s ← decimal? s
  let s ← literal? '/' s
  let s ← decimal? s
  let s ← decimal? s
  let s ← literal? ' ' s
  let s ← decimal? s
  let s ← decimal? s
  let s ← literal? ':' s
  let s ← decimal? s
  let s ← decimal? s
  let s ← literal? ':' s
  let s ← decimal? s
  decimal? s

def stampFraction? : List Char → Option (List Char)
  | '.' :: r => (decimal? r).map fun r => r.dropWhile Text.isDecimal
  | r => some r

def stamp? (s : List Char) : Option (List Char) := do
  let s ← stampBody? s
  let s ← stampFraction? s
  match s with
  | c :: r => if Text.isBlank c then some (Text.trimStart r) else none
  | [] => none

/-- What stands before the object is dropped: blanks, and a stamp when no brace follows them. -/
def fromBrace? (s : List Char) : Option (List Char) :=
  match Text.trimStart s with
  | '\x7b' :: r => some ('\x7b' :: r)
  | r => (stamp? r).bind fun r => if r.head? = some '\x7b' then some r else none

def dropComma (s : List Char) : List Char := if s.getLast? = some ',' then s.dropLast else s

/-- What stands behind the object is dropped: blanks, and a comma among them. -/
def throughBrace? (s : List Char) : Option (List Char) :=
  let s := Text.trimEnd (dropComma (Text.trimEnd s))
  if 2 ≤ s.length ∧ s.getLast? = some '\x7d' then some s else none

def objectText? (line : List Char) : Option (List Char) := do
  let s ← fromBrace? line
  let s ← throughBrace? s
  if '\n' ∈ s then none else some s

inductive Entry where
  | event (e : Event)
  | malformed
  deriving DecidableEq, Repr

def readLine? (line : List Char) : Option Entry :=
  (objectText? line).map fun s =>
    match Event.read? s with
    | some e => .event e
    | none => .malformed

end InFlight.Log
