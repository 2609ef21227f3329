import InFlight.Event
import InFlight.Width
/-!
Windows over the endpoints of a log. A window holds the endpoints from its start to its finish, both
included, so an endpoint on the boundary of two windows is in both.
-/
namespace InFlight

/-- The place of the first element on which `p` fails, found by halving the range from `low` to
`high`: `p` holds up to some place and fails from there on. -/
def bisect {α : Type} (p : α → Bool) (a : Array α) : Nat → Nat → Nat → Nat
  | 0, low, _ => low
  | fuel + 1, low, high =>
    if low < high then
      let middle := (low + high) / 2
      if a[middle]?.any p then bisect p a fuel (middle + 1) high else bisect p a fuel low middle
    else low

def partitionPoint {α : Type} (p : α → Bool) (a : Array α) : Nat := bisect p a a.size 0 a.size

structure Window where
  start : Instant
  finish : Instant
  points : List Endpoint

namespace Window

def low (sorted : Array Endpoint) (start : Instant) : Nat :=
  partitionPoint (fun p => p.time < start) sorted

def high (sorted : Array Endpoint) (start finish : Instant) : Nat :=
  max (low sorted start) (partitionPoint (fun p => p.time ≤ finish) sorted)

def select (sorted : Array Endpoint) (start finish : Instant) : List Endpoint :=
  (sorted.extract (low sorted start) (high sorted start finish)).toList

end Window

inductive Stepping where
  /-- Windows of one width, as long as they start before the last endpoint. -/
  | fixed (width : Int)
  /-- So many windows, each boundary on the nanosecond at or before its share of the span. -/
  | divided (count : Nat) (span : Int)
  deriving DecidableEq, Repr

/-- How a sweep breaks down over windows of an accepted width: it is held at the last instant of the
calendar with an endpoint still ahead, or it stops dead at a boundary that the calendar does not
have. -/
inductive Breakdown where
  | endless
  | pastCalendar
  deriving DecidableEq, Repr

structure Windows where
  sorted : Array Endpoint
  first : Instant
  last : Instant
  stepping : Stepping

namespace Windows

def firstTime (sorted : List Endpoint) : Instant :=
  (sorted.head?.map Endpoint.time).getD Instant.first
def lastTime (sorted : List Endpoint) : Instant :=
  (sorted.getLast?.map Endpoint.time).getD Instant.first
def spanOf (sorted : List Endpoint) : Int := (lastTime sorted).since (firstTime sorted)

/-- A span of as many nanoseconds as windows is divided exactly; a shorter one, or one too long for
64 bits, gets windows of the derived width. -/
def steppingFor (width : Width) (span resolved : Int) : Stepping :=
  match width with
  | .fixed _ => .fixed resolved
  | .divisions n =>
    if Span.fitsWord span ∧ (n : Int) ≤ span then .divided n span else .fixed resolved

def forWidth (sorted : List Endpoint) (width : Width) : Except WidthError Windows := do
  let span := spanOf sorted
  let resolved ← width.resolve span
  return { sorted := sorted.toArray, first := firstTime sorted, last := lastTime sorted,
           stepping := steppingFor width span resolved }

def expectedLength (w : Windows) : Nat :=
  match w.stepping with
  | .fixed width => windowCount (w.last.since w.first) width
  | .divided count _ => count

def boundary (first : Instant) (span : Int) (count k : Nat) : Instant :=
  first.plus ((k : Int) * span / count)

/-- Start and finish of up to `most` windows of one width, from a cursor that has not reached the
last instant. No window ends behind the calendar. -/
def fixedBounds (width : Int) (last : Instant) : Nat → Instant → List (Instant × Instant)
  | 0, _ => []
  | most + 1, cursor =>
    if cursor < last then
      let finish := cursor.plusWithin width
      (cursor, finish) :: fixedBounds width last most finish
    else []

/-- Start and finish of up to `most` windows of a divided span, the boundaries `edge` being in the
calendar. -/
def dividedBounds (edge : Nat → Instant) (most : Nat) : List (Instant × Instant) :=
  ((List.range most).map fun k => (edge k, edge (k + 1))).takeWhile fun b =>
    b.1.InCalendar ∧ b.2.InCalendar

def bounds (w : Windows) (most : Nat) : List (Instant × Instant) :=
  match w.stepping with
  | .fixed width => fixedBounds width w.last most w.first
  | .divided count span => dividedBounds (boundary w.first span count) (min most count)

def upTo (w : Windows) (most : Nat) : List Window :=
  (w.bounds most).map fun (start, finish) => ⟨start, finish, Window.select w.sorted start finish⟩

/-- A window takes one reading of the clock or more, so no sweep that ends has more windows. -/
def readings (w : Windows) : Nat := (w.last.ticks - w.first.ticks).toNat

def all (w : Windows) : List Window := w.upTo (max w.readings w.expectedLength)

/-- The windows of a sweep that comes to its end: windows of one width have reached the last
endpoint, and a divided span has as many as it is divided into. -/
def sweep (w : Windows) : Except Breakdown (List Window) :=
  let windows := w.all
  match w.stepping with
  | .fixed _ =>
    if ∀ v ∈ windows.getLast?, w.last ≤ v.finish then .ok windows else .error .endless
  | .divided count _ => if windows.length = count then .ok windows else .error .pastCalendar

end Windows

end InFlight
