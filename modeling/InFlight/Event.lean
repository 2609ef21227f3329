import InFlight.Time.Instant
/-!
Transfers between the participants of a network, and the two endpoints of each: its start and its
finish. The endpoints of a log stand in order of time, and those of one instant in the order of the
log.
-/
namespace InFlight

/-- One transfer. Its category is the kind of thing transferred; rates are in bytes per second, and
zero where the log names none. -/
structure Event where
  sender : String
  receiver : String
  category : String
  size : Int
  start : Instant
  finish : Instant
  localRate : Int
  globalRate : Int
  id : Nat
  deriving DecidableEq, Repr

structure Endpoint where
  category : String
  time : Instant
  isStart : Bool
  elapsed : Int
  size : Int
  localRate : Int
  id : Nat
  deriving DecidableEq, Repr

def Endpoint.delta (p : Endpoint) : Int := if p.isStart then 1 else -1

namespace Event

def elapsed (e : Event) : Int := e.finish.since e.start

def endpoint (e : Event) (time : Instant) (isStart : Bool) : Endpoint :=
  { category := e.category, time := time, isStart := isStart, elapsed := e.elapsed, size := e.size,
    localRate := e.localRate, id := e.id }

def startpoint (e : Event) : Endpoint := e.endpoint e.start true
def finishpoint (e : Event) : Endpoint := e.endpoint e.finish false

def endpoints (e : Event) : List Endpoint := [e.startpoint, e.finishpoint]

end Event

namespace Endpoint

def Earlier (p q : Endpoint) : Bool := p.time ≤ q.time

/-- Endpoints in order of time; equal times keep their order. -/
def sort (points : List Endpoint) : List Endpoint := points.mergeSort Earlier

def ofEvents (events : List Event) : List Endpoint := sort (events.flatMap Event.endpoints)

end Endpoint

end InFlight
