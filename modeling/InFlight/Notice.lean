import InFlight.Chart
import InFlight.Log
/-!
Notices: what the program tells about its work while it works.
-/
namespace InFlight

inductive Level where
  | info
  | warn
  deriving DecidableEq, Repr

def Level.name : Level → String
  | info => "INFO"
  | warn => "WARN"

inductive Notice where
  | distinctRates (count : Nat) (rate : Int) (event : Nat)
  | windows (count : Nat) (width : Width) (resolved : Int) (rate : NominalRate)
  | skippedLines (count : Nat)
  | recoveredEvents (count : Nat)
  | cacheUsed (events : Nat) (path : String)
  | cacheIgnored
  | cacheNotWritten
  | configLoading (path : String)
  | widthOverride (duration : Nat)
  | divisionsOverride (count : Nat)
  | rateOverride (rate : Nat)
  | perEventRate
  | logLoading (path : String)
  | logLoaded (events : Nat)
  | chartWritten (path : String)
  | reportWritten (path : String)
  | complete (directory : String)
  deriving DecidableEq, Repr

namespace Notice

def level : Notice → Level
  | distinctRates .. | skippedLines _ | recoveredEvents _ | cacheIgnored | cacheNotWritten => .warn
  | _ => .info

def quoted (path : String) : String :=
  "\"" ++ String.ofList (path.toList.flatMap fun c =>
    if c = '"' ∨ c = '\\' then ['\\', c] else [c]) ++ "\""

def message : Notice → String
  | distinctRates count rate event =>
    "Events carry " ++ toString count ++ " distinct local bandwidths; using " ++ toString rate ++
      " B/s from event " ++ toString event ++ " for every transfer"
  | windows count width resolved rate =>
    "Intervals number: " ++ toString count ++ " (" ++ width.text ++ ", " ++
      Width.spanText resolved ++
      " per window, bandwidth " ++ rate.text ++ ")"
  | skippedLines count => "Skipped " ++ toString count ++ " malformed event lines"
  | recoveredEvents count =>
    "Network log is not a valid JSON array (); recovered " ++ toString count ++
      " events line by line"
  | cacheUsed events path => "Loaded " ++ toString events ++ " events from cache " ++ path
  | cacheIgnored => "Ignoring unreadable event cache:"
  | cacheNotWritten => "Could not write event cache:"
  | configLoading path => "Loading configuration from: " ++ quoted path
  | widthOverride duration => "Window width override: " ++ Duration.decimalText duration
  | divisionsOverride count => "Window divisions override: " ++ toString count
  | rateOverride rate => "Nominal bandwidth override: " ++ toString rate ++ " B/s"
  | perEventRate => "Using per-event bandwidth for ideal latency"
  | logLoading path => "Loading network log from " ++ path ++ "..."
  | logLoaded events => "Log size: " ++ toString events
  | chartWritten path => "Usage chart written to " ++ path
  | reportWritten path => "Text report written to " ++ path
  | complete directory => "Analysis complete. Reports written to " ++ directory

def line (n : Notice) : String := n.level.name ++ " " ++ n.message

end Notice

/-- Events of several local rates are remarked on when the first event stands for all. -/
def RatePolicy.notices (policy : RatePolicy) (events : List Event) : List Notice :=
  match policy, events with
  | .firstEvent, e :: _ =>
    let distinct := (events.map Event.localRate).eraseDups.length
    if 1 < distinct then [.distinctRates distinct e.localRate e.id] else []
  | _, _ => []

def Sweep.notices (sorted : List Endpoint) (width : Width) (nominal : NominalRate) : List Notice :=
  match Sweep.windows sorted width, width.resolve (Windows.spanOf sorted) with
  | .ok w, .ok resolved => [.windows w.expectedLength width resolved nominal]
  | _, _ => []

def Chart.notices (events : List Event) (options : ChartOptions) : List Notice :=
  if events = [] then []
  else options.rate.notices events ++
    match Chart.nominalRate events options.rate with
    | .ok nominal => Sweep.notices (Endpoint.ofEvents events) options.width nominal
    | .error _ => []

def Log.Lines.notices (found : Log.Lines) : List Notice :=
  if 0 < found.skipped then [.skippedLines found.skipped] else []

def Log.Reading.notices : Log.Reading → List Notice
  | array _ => []
  | lines found | unreadable found => found.notices
  | recovered found => found.notices ++ [.recoveredEvents found.events.length]

end InFlight
