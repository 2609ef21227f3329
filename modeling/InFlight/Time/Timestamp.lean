import InFlight.Text.Blank
import InFlight.Time.Calendar
import InFlight.Time.Instant
/-!
Instants as text by RFC 3339. Reading is lenient about blanks and about the number of digits, and
takes any offset; writing gives universal time with the fewest of 0, 3, 6 or 9 fraction digits.
-/
namespace InFlight.Timestamp

open Decimal (takeDigits takeNumber? padded)

def expect (c : Char) : List Char → Option (List Char)
  | [] => none
  | d :: r => if d = c then some r else none

def number? (most : Nat) (s : List Char) : Option (Nat × List Char) :=
  takeNumber? most (Text.trimStart s)

def separator? (c : Char) (s : List Char) : Option (List Char) := expect c (Text.trimStart s)

def year? (s : List Char) : Option (Int × List Char) :=
  match Text.trimStart s with
  | '-' :: r => (takeNumber? r.length r).map fun (n, r) => (-(n : Int), r)
  | '+' :: r => (takeNumber? r.length r).map fun (n, r) => ((n : Int), r)
  | r => (takeNumber? 4 r).map fun (n, r) => ((n : Int), r)

def date? (s : List Char) : Option (Date × List Char) := do
  let (year, s) ← year? s
  let s ← separator? '-' s
  let (month, s) ← number? 2 s
  let s ← separator? '-' s
  let (day, s) ← number? 2 s
  let date : Date := ⟨year, month, day⟩
  if date.IsValid then some (date, s) else none

/-- Nanoseconds of a fraction, of which nine digits count; none when there is no point. -/
def fraction? (s : List Char) : Option (Nat × List Char) :=
  match s with
  | '.' :: r =>
    match takeDigits r.length r with
    | ([], _) => none
    | (digits, r) =>
      let counted := digits.take 9
      some (Decimal.ofDigits 10 counted * Decimal.tenTo (9 - counted.length), r)
  | r => some (0, r)

/-- A time of day: seconds of the day, and nanoseconds, which pass a thousand million in second
60. -/
def time? (s : List Char) : Option (Nat × Nat × List Char) := do
  let (hour, s) ← number? 2 s
  let s ← separator? ':' s
  let (minute, s) ← number? 2 s
  let s ← separator? ':' s
  let (second, s) ← number? 2 s
  let (nanos, s) ← fraction? s
  if hour < 24 ∧ minute < 60 ∧ second ≤ 60 then
    if second = 60 then some (hour * 3600 + minute * 60 + 59, nanos + 1000000000, s)
    else some (hour * 3600 + minute * 60 + second, nanos, s)
  else none

def twoDigits? : List Char → Option (Nat × List Char)
  | a :: b :: r => if a.isDigit ∧ b.isDigit then some (Decimal.ofDigits 10 [a, b], r) else none
  | _ => none

def hoursMinutes? (s : List Char) : Option (Nat × List Char) := do
  let (hours, s) ← twoDigits? s
  let (minutes, s) ← twoDigits? (s.dropWhile fun c => c == ':' || Text.isBlank c)
  if hours < 24 ∧ minutes < 60 then some (hours * 3600 + minutes * 60, s) else none

/-- The offset of a local time in seconds: `Z`, `UTC`, or a sign with hours and minutes. -/
def offset? (s : List Char) : Option (Int × List Char) :=
  match s with
  | [] => none
  | c :: r =>
    if (s.take 3).map Char.toUpper = ['U', 'T', 'C'] then some (0, s.drop 3)
    else if c = 'Z' ∨ c = 'z' then some (0, r)
    else if c = '+' then (hoursMinutes? r).map fun (n, r) => ((n : Int), r)
    else if c = '-' ∨ c = '−' then (hoursMinutes? r).map fun (n, r) => (-(n : Int), r)
    else none

def dateTimeMark? : List Char → Option (List Char)
  | c :: r => if c = 'T' ∨ c = 't' ∨ c = ' ' then some r else none
  | [] => none

/-- The instant a text names; only blanks may follow it. Both the local date and the date in
universal time are in the calendar. -/
def read? (s : List Char) : Option Instant := do
  let (date, s) ← date? s
  let s ← dateTimeMark? s
  let (second, nanos, s) ← time? s
  let (offset, s) ← offset? (Text.trimStart s)
  let instant := Instant.ofReading (date.toDay * 86400 + second - offset) nanos
  if Text.trimStart s = [] ∧ Instant.firstDay ≤ date.toDay ∧ date.toDay ≤ Instant.lastDay ∧
    instant.InCalendar then
    some instant
  else none

def yearText (year : Int) : String :=
  if 0 ≤ year ∧ year ≤ 9999 then padded 4 year.toNat
  else (if year < 0 then "-" else "+") ++ padded 4 year.natAbs

/-- The fewest of 0, 3, 6 and 9 digits that are exact. -/
def fractionText (nanos : Nat) : String :=
  if nanos = 0 then ""
  else if nanos % 1000000 = 0 then "." ++ padded 3 (nanos / 1000000)
  else if nanos % 1000 = 0 then "." ++ padded 6 (nanos / 1000)
  else "." ++ padded 9 nanos

def localText (t : Instant) : String :=
  let date := Date.ofDay t.day
  let time := t.secondOfDay.toNat
  let nanos := t.nanos.toNat
  let second := if t.isLeap then time % 60 + 1 else time % 60
  yearText date.year ++ "-" ++ padded 2 date.month ++ "-" ++ padded 2 date.day ++ "T" ++
    padded 2 (time / 3600) ++ ":" ++ padded 2 (time / 60 % 60) ++ ":" ++ padded 2 second ++
    fractionText (nanos % 1000000000)

def render (t : Instant) : String := localText t ++ "Z"

end InFlight.Timestamp
