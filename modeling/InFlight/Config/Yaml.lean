import InFlight.Config
import InFlight.Word
import InFlight.Yaml.Kind
/-!
Settings as YAML. Every setting may be left out. A name that is no setting is an error, save beside
the policy of the rate.
-/
namespace InFlight

open Yaml (Node Kind)

def HumanDuration.ofNode? (n : Node) : Option Nat :=
  n.text?.bind fun s => (HumanDuration.parse s.toList).toOption

def Sizing.ofNode? (n : Node) : Option Sizing := do
  let fields ← n.record? ["width", "divisions"]
  let width ← fields.get? "width" none (Node.optional? HumanDuration.ofNode?)
  let divisions ← fields.get? "divisions" none
    (Node.optional? fun n => n.unsigned?.filter (· < Word.count32))
  some ⟨width, divisions⟩

namespace RateSource

def rate? : Node → Option Nat
  | .scalar s => match s.kind? with
    | some (.unsigned n) => some n
    | some (.signed n) => if 0 ≤ n then some n.toNat else none
    | _ => none
  | _ => none

def isPolicyKey : Node → Bool
  | .scalar s => s.kind? == some .text && s.text == "policy"
  | _ => false

/-- The rate may stand under its name or its place, and any other name or place is passed over.
Nothing but these can name a setting here. -/
def isRateKey? : Node → Option Bool
  | .scalar s => match s.kind? with
    | some .text => some (s.text == "bytes_per_sec")
    | some (.unsigned n) => some (n == 0)
    | _ => none
  | _ => none

def rateAmong? (entries : List (Node × Node)) : Option Nat := do
  let marked ← entries.mapM fun (key, value) => (isRateKey? key).map fun here => (here, value)
  match marked.filter (·.1) with
  | [(_, value)] => rate? value
  | _ => none

/-- A policy and the entries beside it, which count only where the rate is fixed. -/
def ofEntries? (policy : String) (entries : List (Node × Node)) : Option RateSource :=
  if policy = "first_event" then some .firstEvent
  else if policy = "per_event" then some .perEvent
  else if policy = "fixed" then (rateAmong? entries).map .fixed
  else none

def ofItems? (policy : String) (items : List Node) : Option RateSource :=
  match items with
  | [] =>
    if policy = "first_event" then some .firstEvent
    else if policy = "per_event" then some .perEvent
    else none
  | [n] => if policy = "fixed" then (rate? n).map .fixed else none
  | _ => none

/-- A mapping with a policy, or a sequence that starts with one. -/
def ofNode? : Node → Option RateSource
  | .mapping tag entries =>
    let (policies, others) := entries.partition fun e => isPolicyKey e.1
    if Node.isLocal tag || !others.all (fun e => e.1.isData && e.2.isData) then none
    else match policies with
      | [(_, policy)] => policy.text?.bind fun name => ofEntries? name others
      | _ => none
  | .sequence tag (policy :: items) =>
    if Node.isLocal tag || !items.all Node.isData then none
    else policy.text?.bind fun name => ofItems? name items
  | _ => none

end RateSource

def OutputSettings.ofNode? (n : Node) : Option OutputSettings := do
  let fields ← n.record? ["file_name", "pretty", "text_report"]
  let fileName ← fields.get? "file_name" OutputSettings.standard.fileName Node.text?
  let pretty ← fields.get? "pretty" OutputSettings.standard.pretty Node.bool?
  let textReport ← fields.get? "text_report" OutputSettings.standard.textReport Node.bool?
  some ⟨fileName, pretty, textReport⟩

namespace Config

def cacheOfNode? (n : Node) : Option Bool := do
  let fields ← n.record? ["cache"]
  fields.get? "cache" Config.standard.cache Node.bool?

def ofNode? (n : Node) : Option Config := do
  let fields ← n.record? ["window", "bandwidth", "output", "input"]
  let window ← fields.get? "window" Config.standard.window Sizing.ofNode?
  let rate ← fields.get? "bandwidth" Config.standard.rate RateSource.ofNode?
  let output ← fields.get? "output" Config.standard.output OutputSettings.ofNode?
  let cache ← fields.get? "input" Config.standard.cache cacheOfNode?
  some { window, rate, output, cache }

def ofYaml? (s : List Char) : Option Config := (Node.read? s).bind ofNode?

end Config

end InFlight
