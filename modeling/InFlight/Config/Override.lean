import InFlight.Config
import InFlight.Notice
/-!
Settings from the command line, which take the place of those before them.
-/
namespace InFlight

structure Override where
  width : Option Nat
  divisions : Option Nat
  bytesPerSecond : Option Nat
  perEventRate : Bool
  pretty : Bool
  cache : Bool
  noTextReport : Bool
  deriving DecidableEq, Repr

namespace Override

def none : Override := ⟨.none, .none, .none, false, false, false, false⟩

/-- A sizing takes the place of the one before, whichever of the two it is; of both together the
divisions stay. -/
def sizing (o : Override) (old : Sizing) : Sizing :=
  match o.width, o.divisions with
  | _, some n => ⟨.none, some n⟩
  | some d, .none => ⟨some d, .none⟩
  | .none, .none => old

def rateSource (o : Override) (old : RateSource) : RateSource :=
  match o.bytesPerSecond with
  | some n => .fixed n
  | .none => if o.perEventRate then .perEvent else old

def outputSettings (o : Override) (old : OutputSettings) : OutputSettings :=
  { old with pretty := old.pretty || o.pretty, textReport := old.textReport && !o.noTextReport }

def apply (o : Override) (c : Config) : Config :=
  { window := o.sizing c.window, rate := o.rateSource c.rate, output := o.outputSettings c.output
    cache := c.cache || o.cache }

/-- Whether the settings under an override are valid, and these settings. They stay under it even if
they are not. -/
def enforce (o : Override) (c : Config) : Except ConfigError Unit × Config :=
  let overridden := o.apply c
  (overridden.validate, overridden)

def notices (o : Override) : List Notice :=
  (o.width.map Notice.widthOverride).toList ++ (o.divisions.map Notice.divisionsOverride).toList ++
    match o.bytesPerSecond with
    | some n => [.rateOverride n]
    | .none => if o.perEventRate then [.perEventRate] else []

end Override

end InFlight
