import InFlight.Log.Line
import InFlight.Text.Lines
/-!
Network logs: a JSON array of events, or lines that carry an event each. An array that cannot be
read is tried again line by line.
-/
namespace InFlight.Log

inductive Format where
  | jsonArray
  | eventLines
  deriving DecidableEq, Repr

/-- A text whose first character behind the blanks is a bracket is taken for an array. -/
def format (s : List Char) : Format :=
  if (Text.trimStart s).head? = some '[' then .jsonArray else .eventLines

structure Lines where
  events : List Event
  skipped : Nat
  deriving DecidableEq, Repr

def entries (s : List Char) : List Entry := (Text.lines s).filterMap readLine?

def Entry.event? : Entry → Option Event
  | .event e => some e
  | .malformed => none

def readLines (s : List Char) : Lines :=
  { events := (entries s).filterMap Entry.event?
    skipped := ((entries s).filter (· = .malformed)).length }

inductive Reading where
  | array (events : List Event)
  | lines (found : Lines)
  | recovered (found : Lines)
  | unreadable (found : Lines)
  deriving DecidableEq, Repr

def read (s : List Char) : Reading :=
  match format s with
  | .eventLines => .lines (readLines s)
  | .jsonArray =>
    match Event.readList? s with
    | some events => .array events
    | none =>
      let found := readLines s
      if found.events = [] then .unreadable found else .recovered found

/-- None when an array could not be read and no line of it holds an event. -/
def Reading.events? : Reading → Option (List Event)
  | array events => some events
  | lines found | recovered found => some found.events
  | unreadable _ => none

end InFlight.Log
