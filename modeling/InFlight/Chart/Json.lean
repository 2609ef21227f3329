import InFlight.Chart
import InFlight.Event.Json
/-!
Charts as JSON, as the plotting of charts reads them. The number of endpoints of each window is not
written.
-/
namespace InFlight.Chart

def toJson (c : Chart Float) : Json :=
  Json.objectOf [
    ("Intervals", .array (c.intervals.map Instant.toJson)),
    ("BarCategories", .array (c.categories.keys.map Json.ofText)),
    ("BarData", Json.objectOf (c.counts.entries.map fun (name, series) =>
      (name, .array (series.map Json.ofInt)))),
    ("LatencyIdeal", .array (c.ideal.map Json.ofFloat)),
    ("LatencyReal", .array (c.real.map Json.ofFloat))]

def render (c : Chart Float) (pretty : Bool) : String :=
  if pretty then c.toJson.pretty else c.toJson.compact

def categories? (j : Json) : Option NameSet := (Json.list? Json.text? j).map NameSet.ofList

def series? (member : Option String × Json) : Option (String × List Int) := do
  let name ← member.1
  let series ← Json.list? Json.signed? member.2
  some (name, series)

/-- A series under each name; of two under one name the last counts. -/
def counts? : Json → Option (NameMap (List Int))
  | .object members => (members.mapM series?).map NameMap.ofList
  | _ => none

open Json in
def ofMembers? (members : Members) : Option (Chart Float) := do
  if namesAreText members then
    some {
      intervals := ← required? ["Intervals"] (list? Instant.ofJson?) members
      categories := ← required? ["BarCategories"] categories? members
      counts := ← required? ["BarData"] counts? members
      ideal := ← required? ["LatencyIdeal"] (list? float?) members
      real := ← required? ["LatencyReal"] (list? float?) members
      pointCounts := [] }
  else none

open Json in
def ofItems? (items : List Json) : Option (Chart Float) := do
  if items.length ≤ 5 then
    some {
      intervals := ← requiredItem? 0 (list? Instant.ofJson?) items
      categories := ← requiredItem? 1 categories? items
      counts := ← requiredItem? 2 counts? items
      ideal := ← requiredItem? 3 (list? float?) items
      real := ← requiredItem? 4 (list? float?) items
      pointCounts := [] }
  else none

def ofJson? : Json → Option (Chart Float)
  | .object members => ofMembers? members
  | .array items => ofItems? items
  | _ => none

def read? (s : List Char) : Option (Chart Float) := (Json.read? s).bind ofJson?

end InFlight.Chart
