import InFlight.Chart
import InFlight.Word
/-!
The summary of a chart: totals of each category, and the mean latencies over the windows that hold
an endpoint.
-/
namespace InFlight

structure CategoryTotal where
  category : String
  transfers : Nat
  bytes : Int
  /-- The highest running count of any window. -/
  peak : Int
  deriving DecidableEq, Repr

structure Summary where
  timestamp : String
  events : Nat
  windows : Nat
  width : String
  spanMillis : Float
  categories : List CategoryTotal
  activeWindows : Nat
  idealMillis : Float
  realMillis : Float
  /-- Real over ideal latency, where the ideal one is positive. -/
  slowdown : Option Float

namespace Summary

def addEvent (totals : NameMap (Nat × Int)) (e : Event) : NameMap (Nat × Int) :=
  totals.upsert e.category fun old =>
    let (transfers, bytes) := old.getD (0, 0)
    (transfers + 1, Word.wrap64 (bytes + e.size))

def totals (events : List Event) : NameMap (Nat × Int) := events.foldl addEvent NameMap.empty

def peakOf (series : List Int) : Int := series.max?.getD 0

def categoryTotals (events : List Event) (chart : Chart Float) : List CategoryTotal :=
  (totals events).entries.map fun (category, transfers, bytes) =>
    { category := category, transfers := transfers, bytes := bytes
      peak := peakOf ((chart.series category).getD []) }

def span? (events : List Event) : Option Int :=
  let times := events.flatMap fun e => [e.start, e.finish]
  match times with
  | [] => none
  | t :: ts =>
    let first := ts.foldl (fun a b => if b < a then b else a) t
    let last := ts.foldl (fun a b => if b < a then a else b) t
    some (last.since first)

/-- The mean of a series over some places of it, none if one lies behind its end; zero over no
places. -/
def meanOver? (places : List Nat) (series : List Float) : Option Float :=
  (places.mapM fun i => series[i]?).map Latency.mean

/-- None when a latency series ends before an active window, as that of an aligned chart never
does. -/
def of? (timestamp : String) (events : List Event) (chart : Chart Float) (width : Width) :
    Option Summary := do
  let active := chart.activeWindows
  let idealMillis ← meanOver? active chart.ideal
  let realMillis ← meanOver? active chart.real
  return {
    timestamp := timestamp
    events := events.length
    windows := chart.length
    width := width.text
    spanMillis := match span? events with
      | some s => Latency.millis Float s
      | none => 0
    categories := categoryTotals events chart
    activeWindows := active.length
    idealMillis := idealMillis
    realMillis := realMillis
    slowdown := if idealMillis > 0 then some (realMillis / idealMillis) else none }

theorem isSome_meanOver? {places : List Nat} {series : List Float}
    (h : ∀ i ∈ places, i < series.length) : (meanOver? places series).isSome := by
  have all : (places.mapM fun i => series[i]?).isSome := by
    induction places with
    | nil => rfl
    | cons i r ih =>
      have here := List.getElem?_eq_getElem (h i List.mem_cons_self)
      have rest := ih fun j hj => h j (List.mem_cons_of_mem i hj)
      obtain ⟨found, eq⟩ := Option.isSome_iff_exists.1 rest
      simp [List.mapM_cons, here, eq]
  simpa [meanOver?] using all

theorem isSome_of? {chart : Chart Float} (h : chart.CoversActive) (timestamp : String)
    (events : List Event) (width : Width) : (of? timestamp events chart width).isSome := by
  obtain ⟨x, hx⟩ := Option.isSome_iff_exists.1 (isSome_meanOver? fun i hi => (h i hi).1)
  obtain ⟨y, hy⟩ := Option.isSome_iff_exists.1 (isSome_meanOver? fun i hi => (h i hi).2)
  simp [of?, hx, hy]

end Summary

end InFlight
