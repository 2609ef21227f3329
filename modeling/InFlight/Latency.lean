import InFlight.Event
/-!
Latencies of transfers in milliseconds. The ideal latency is the time that a transfer takes at its
nominal rate, the real one the time that it took. Both are means over the endpoints of a window, and
the formulas hold in any arithmetic: doubles when the program runs, rationals when it is reasoned
about.
-/
namespace InFlight

class Arithmetic (α : Type) extends Add α, Mul α, Div α where
  ofInt : Int → α

instance : Arithmetic Float := ⟨Float.ofInt⟩
instance : Arithmetic Rat := ⟨fun n => (n : Rat)⟩

inductive NominalRate where
  | runWide (rate : Int)
  | perEvent
  deriving DecidableEq, Repr

namespace NominalRate

def text : NominalRate → String
  | runWide rate => toString rate ++ " B/s"
  | perEvent => "per event"

def rateOf (nominal : NominalRate) (p : Endpoint) : Int :=
  match nominal with
  | runWide rate => rate
  | perEvent => p.localRate

end NominalRate

structure RateError where
  rate : Int
  event : Option Nat
  deriving DecidableEq, Repr

def RateError.message (e : RateError) : String :=
  "Invalid nominal bandwidth: " ++ toString e.rate ++ " bytes/s" ++
    (match e.event with
      | none => ""
      | some id => " (event " ++ toString id ++ ")")

/-- Every rate that will be used is positive; the first that is not is the error. -/
def NominalRate.check (nominal : NominalRate) (events : List Event) :
    Except RateError NominalRate :=
  match nominal with
  | runWide rate => if rate ≤ 0 then .error ⟨rate, none⟩ else .ok nominal
  | perEvent => match events.find? (·.localRate ≤ 0) with
    | some e => .error ⟨e.localRate, some e.id⟩
    | none => .ok nominal

namespace Latency

variable (α : Type) [Arithmetic α]

open Arithmetic (ofInt)

/-- Milliseconds of a span; whole ones when its nanoseconds do not fit 64 bits. -/
def millis (span : Int) : α :=
  if Span.fitsWord span then ofInt span / ofInt 1000000 else ofInt (Span.wholeMillis span)

def ideal (nominal : NominalRate) (p : Endpoint) : α :=
  ofInt 1000 * ofInt p.size / ofInt (nominal.rateOf p)

def real (p : Endpoint) : α := millis α p.elapsed

variable {α}

/-- The sum from left to right divided by the number of terms, and zero when there are none. -/
def mean : List α → α
  | [] => ofInt 0
  | x :: xs => xs.foldl (· + ·) x / ofInt ((xs.length : Int) + 1)

variable (α)

def meanIdeal (nominal : NominalRate) (points : List Endpoint) :
    α := mean (points.map (ideal α nominal))
def meanReal (points : List Endpoint) : α := mean (points.map (real α))

end Latency

end InFlight
