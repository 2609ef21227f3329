import InFlight.Event
import InFlight.Json.Reader
import InFlight.Json.Record
import InFlight.Json.Writer
import InFlight.Time.Timestamp
/-!
Events as JSON. Nine fields, the last three of which may be left out; each has a spelling with a
capital and one in camel case.
-/
namespace InFlight

def Instant.ofJson? (j : Json) : Option Instant :=
  (Json.text? j).bind fun s => Timestamp.read? s.toList
def Instant.toJson (t : Instant) : Json := Json.ofText (Timestamp.render t)

namespace Event

def senderNames : List String := ["From", "from"]
def receiverNames : List String := ["To", "to"]
def categoryNames : List String := ["Object", "object"]
def sizeNames : List String := ["Size", "size"]
def startNames : List String := ["Start", "start"]
def finishNames : List String := ["End", "end"]
def localRateNames : List String := ["LocalBandwidth", "localBandwidth"]
def globalRateNames : List String := ["GlobalBandwidth", "globalBandwidth"]
def idNames : List String := ["ID", "Id", "id"]

open Json in
def ofMembers? (members : Members) : Option Event := do
  if namesAreText members then
    some {
      sender := ← required? senderNames text? members
      receiver := ← required? receiverNames text? members
      category := ← required? categoryNames text? members
      size := ← required? sizeNames signed? members
      start := ← required? startNames Instant.ofJson? members
      finish := ← required? finishNames Instant.ofJson? members
      localRate := ← optional? localRateNames 0 signed? members
      globalRate := ← optional? globalRateNames 0 signed? members
      id := ← optional? idNames 0 unsigned? members }
  else none

open Json in
/-- Six to nine items, one for each field. -/
def ofItems? (items : List Json) : Option Event := do
  if items.length ≤ 9 then
    some {
      sender := ← requiredItem? 0 text? items
      receiver := ← requiredItem? 1 text? items
      category := ← requiredItem? 2 text? items
      size := ← requiredItem? 3 signed? items
      start := ← requiredItem? 4 Instant.ofJson? items
      finish := ← requiredItem? 5 Instant.ofJson? items
      localRate := ← optionalItem? 6 0 signed? items
      globalRate := ← optionalItem? 7 0 signed? items
      id := ← optionalItem? 8 0 unsigned? items }
  else none

def ofJson? : Json → Option Event
  | .object members => ofMembers? members
  | .array items => ofItems? items
  | _ => none

def toJson (e : Event) : Json :=
  Json.objectOf [
    ("From", Json.ofText e.sender), ("To", Json.ofText e.receiver),
    ("Object", Json.ofText e.category), ("Size", Json.ofInt e.size), ("Start", e.start.toJson),
    ("End", e.finish.toJson), ("LocalBandwidth", Json.ofInt e.localRate),
    ("GlobalBandwidth", Json.ofInt e.globalRate), ("ID", Json.ofInt e.id)]

def read? (s : List Char) : Option Event := (Json.read? s).bind ofJson?

def readList? (s : List Char) : Option (List Event) := (Json.read? s).bind (Json.list? ofJson?)

def listToJson (events : List Event) : Json := .array (events.map toJson)

end Event

end InFlight
