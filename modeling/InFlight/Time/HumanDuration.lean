import InFlight.Text.Blank
import InFlight.Time.Span
import InFlight.Word
/-!
Durations as people write them: numbers with units, such as `1h 30m`. A bare number stands for
milliseconds on a command line.
-/
namespace InFlight.HumanDuration

inductive Unit where
  | nano | micro | milli | second | minute | hour | day | week | month | year
  deriving DecidableEq, Repr

namespace Unit

def names : Unit → List String
  | nano => ["nanos", "nsec", "ns"]
  | micro => ["usec", "us", "µs"]
  | milli => ["millis", "msec", "ms"]
  | second => ["seconds", "second", "secs", "sec", "s"]
  | minute => ["minutes", "minute", "min", "mins", "m"]
  | hour => ["hours", "hour", "hr", "hrs", "h"]
  | day => ["days", "day", "d"]
  | week => ["weeks", "week", "wk", "wks", "w"]
  | month => ["months", "month", "M"]
  | year => ["years", "year", "yr", "yrs", "y"]

def all : List Unit := [nano, micro, milli, second, minute, hour, day, week, month, year]

def named? (name : List Char) : Option Unit :=
  all.find? fun u => u.names.any fun n => n.toList == name

/-- Length in nanoseconds. A year has 365.25 days and a month 30.44. -/
def length : Unit → Nat
  | nano => 1
  | micro => 1000
  | milli => 1000000
  | second => 1000000000
  | minute => 60 * 1000000000
  | hour => 3600 * 1000000000
  | day => 86400 * 1000000000
  | week => 7 * 86400 * 1000000000
  | month => 2630016 * 1000000000
  | year => 31557600 * 1000000000

/-- The step in which a value of the unit is counted: whole numbers in nanoseconds below the second
and in seconds from there on, fractions in seconds from the hour on. -/
def wholeStep : Unit → Nat
  | nano | micro | milli => 1
  | _ => 1000000000

def fractionStep : Unit → Nat
  | nano | micro | milli | second | minute => 1
  | _ => 1000000000

end Unit

/-- Why a text is not a duration. Places are counted in bytes from the start of the text. -/
inductive Error where
  | empty
  | numberExpected (place : Nat)
  | invalidCharacter (place : Nat)
  | unitMissing (value : Nat)
  | unknownUnit (name : String)
  | overflow
  deriving DecidableEq, Repr

def Error.message : Error → String
  | empty => "value was empty"
  | numberExpected place => s!"expected number at {place}"
  | invalidCharacter place => s!"invalid character at {place}"
  | unitMissing value => s!"time unit needed, for example {value}sec or {value}ms"
  | unknownUnit name =>
    "unknown time unit \"" ++ name ++
      "\", supported units: ns, us/µs, ms, sec, min, hours, days, " ++
      "weeks, months, years (and few variations)"
  | overflow =>
    "number is too large or cannot be represented without a lack of precision " ++
      "(values below 1ns are not supported)"

structure Fraction where
  part : Nat
  whole : Nat

def word : Nat := Word.count64

def fits (n : Nat) : Except Error Nat := if n < word then .ok n else .error .overflow

/-- Adds a number of steps to a running total whose seconds stay below `2 ^ 64`. -/
def addSteps (total count step : Nat) : Except Error Nat :=
  if (total + count * step) / 1000000000 < word then .ok (total + count * step)
    else .error .overflow

def addGroup (total : Nat) (value : Nat) (fraction : Option Fraction) (unit : Unit) :
    Except Error Nat := do
  let count ← fits (value * (unit.length / unit.wholeStep))
  let total ← addSteps total count unit.wholeStep
  match fraction with
  | none => .ok total
  | some f =>
    if unit = .nano then .error .overflow
    else
      let scaled ← fits (f.part * (unit.length / unit.fractionStep))
      if scaled % f.whole = 0 then addSteps total (scaled / f.whole) unit.fractionStep
      else .error .overflow

def isUnitLetter (c : Char) : Bool := c.isAlpha || c == 'µ'

abbrev Placed := List (Nat × Char)

def place (finish : Nat) : Placed → Nat
  | [] => finish
  | (p, _) :: _ => p

def locate (start : Nat) : List Char → Placed
  | [] => []
  | c :: r => (start, c) :: locate (start + c.utf8Size) r

/-- The digits of a fraction, blanks among them ignored, up to a unit letter or the end. `mark` is
the place behind the last character taken. -/
def takeFraction (finish mark : Nat) (f : Fraction) : Placed → Except Error (Fraction × Placed)
  | [] => if f.whole = 1 then .error (.invalidCharacter mark) else .ok (f, [])
  | (p, c) :: r =>
    if c.isDigit then do
      let whole ← fits (f.whole * 10)
      let part ← fits (f.part * 10 + (c.toNat - 48))
      takeFraction finish (place finish r) ⟨part, whole⟩ r
    else if Text.isBlank c then takeFraction finish (place finish r) f r
    else if isUnitLetter c then
      if f.whole = 1 then .error (.invalidCharacter mark) else .ok (f, (p, c) :: r)
    else .error (.invalidCharacter mark)

def takeValue (finish : Nat) (value : Nat) :
    Placed → Except Error (Nat × Option Fraction × Placed)
  | [] => .ok (value, none, [])
  | (p, c) :: r =>
    if c.isDigit then do
      let value ← fits (value * 10)
      let value ← fits (value + (c.toNat - 48))
      takeValue finish value r
    else if Text.isBlank c then takeValue finish value r
    else if isUnitLetter c then .ok (value, none, (p, c) :: r)
    else if c = '.' then do
      let (f, r) ← takeFraction finish p ⟨0, 1⟩ r
      .ok (value, some f, r)
    else .error (.invalidCharacter p)

def takeUnit : Placed → Except Error (List Char × Placed)
  | [] => .ok ([], [])
  | (p, c) :: r =>
    if c.isDigit then .ok ([], (p, c) :: r)
    else if Text.isBlank c then .ok ([], r)
    else if isUnitLetter c then do
      let (name, r) ← takeUnit r
      .ok (c :: name, r)
    else .error (.invalidCharacter p)

def findUnit (value : Nat) (name : List Char) : Except Error Unit :=
  match Unit.named? name with
  | some u => .ok u
  | none =>
    if name = [] then .error (.unitMissing value) else .error (.unknownUnit (String.ofList name))

/-- The groups of a number and a unit, added up from the left. Where a group does not begin with a
digit, its place is that of the blanks before it. Each group takes a character or more, so `fuel`
need not exceed the length of the text. -/
def addGroups (finish : Nat) (total : Nat) : Nat → Placed → Except Error Nat
  | 0, _ => .ok total
  | fuel + 1, s =>
    match s.dropWhile (Text.isBlank ·.2) with
    | [] => .ok total
    | (_, c) :: r =>
      if c.isDigit then do
        let (value, fraction, r) ← takeValue finish (c.toNat - 48) r
        let (name, r) ← takeUnit r
        let unit ← findUnit value name
        let total ← addGroup total value fraction unit
        addGroups finish total fuel r
      else .error (.numberExpected (place finish s))

def parse (s : List Char) : Except Error Nat :=
  let placed := locate 0 s
  let finish := (String.ofList s).utf8ByteSize
  if s = ['0'] then .ok 0
  else if s.all Text.isBlank then .error .empty
  else addGroups finish 0 s.length placed

def millisecond : Nat := 1000000

def parseWithMillis (s : String) : Except String Nat :=
  let text := Text.trim s.toList
  match Decimal.readUpTo? (word - 1) text with
  | some n => .ok (n * millisecond)
  | none => match parse text with
    | .ok d => .ok d
    | .error e => .error ("Invalid duration '" ++ String.ofList text ++ "': " ++ e.message)

def plural (name : String) (n : Nat) : Option String :=
  if n = 0 then none else if n = 1 then some (toString n ++ name)
    else some (toString n ++ name ++ "s")

def singular (name : String) (n : Nat) : Option String :=
  if n = 0 then none else some (toString n ++ name)

def parts (d : Nat) : List (Option String) :=
  let seconds := d / 1000000000
  let rest := d % 1000000000
  let afterYears := seconds % 31557600
  let afterMonths := afterYears % 2630016
  let afterDays := afterMonths % 86400
  [plural "year" (seconds / 31557600), plural "month" (afterYears / 2630016),
    plural "day" (afterMonths / 86400), singular "h" (afterDays / 3600),
    singular "m" (afterDays % 3600 / 60), singular "s" (afterDays % 60),
    singular "ms" (rest / 1000000), singular "us" (rest / 1000 % 1000), singular "ns" (rest % 1000)]

def render (d : Nat) : String :=
  if d = 0 then "0s" else " ".intercalate ((parts d).filterMap id)

end InFlight.HumanDuration
