import InFlight.Counts
import InFlight.Latency
import InFlight.Window
/-!
The sweep over the windows of a log: the counts run on from window to window, and the latencies of a
window are those of its own endpoints.
-/
namespace InFlight

structure Bucket (α : Type) where
  start : Instant
  points : Nat
  counts : Counts
  ideal : α
  real : α

/-- Why there is no chart. A sweep that breaks down is none of the answers a caller may get: the run
that asked stops there, or goes on for ever. -/
inductive ChartError where
  | emptyLog
  | rate (e : RateError)
  | width (e : WidthError)
  | sweep (b : Breakdown)
  deriving DecidableEq, Repr

def ChartError.message : ChartError → String
  | emptyLog => "Network log is empty: no time span to bucket"
  | rate e => e.message
  | width e => "Invalid bucket width: " ++ e.message
  | sweep _ => ""

namespace Sweep

variable (α : Type) [Arithmetic α]

def bucket (nominal : NominalRate) (counts : Counts) (w : Window) : Bucket α :=
  { start := w.start, points := w.points.length, counts := counts
    ideal := Latency.meanIdeal α nominal w.points, real := Latency.meanReal α w.points }

def buckets (nominal : NominalRate) (counts : Counts) : List Window → List (Bucket α)
  | [] => []
  | w :: ws =>
    let next := counts.advance w.points
    bucket α nominal next w :: buckets nominal next ws

def windows (sorted : List Endpoint) (width : Width) : Except ChartError Windows :=
  if sorted = [] then .error .emptyLog
  else match Windows.forWidth sorted width with
    | .ok w => .ok w
    | .error e => .error (.width e)

def run (sorted : List Endpoint) (width : Width) (nominal : NominalRate) :
    Except ChartError (List (Bucket α)) := do
  let w ← windows sorted width
  let swept ← w.sweep.mapError .sweep
  return buckets α nominal (Counts.zeroed (sorted.map Endpoint.category)) swept

end Sweep

end InFlight
