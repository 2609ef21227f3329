import InFlight.Chart
import InFlight.Files.Path
import InFlight.Text.Blank
import InFlight.Word
/-!
Settings of a run. Windows may be sized by a width or by a number of divisions, not by both; the
name of the chart file must be a plain one that the report beside it does not take.
-/
namespace InFlight

structure Sizing where
  width : Option Nat
  divisions : Option Nat
  deriving DecidableEq, Repr

inductive RateSource where
  | firstEvent
  | perEvent
  | fixed (bytesPerSecond : Nat)
  deriving DecidableEq, Repr

structure OutputSettings where
  fileName : String
  pretty : Bool
  textReport : Bool
  deriving DecidableEq, Repr

structure Config where
  window : Sizing
  rate : RateSource
  output : OutputSettings
  cache : Bool
  deriving DecidableEq, Repr

inductive SizingError where
  | bothSet
  | zeroWidth
  | widthOutOfRange (duration : Nat)
  | zeroDivisions
  deriving DecidableEq, Repr

inductive RateSourceError where
  | zero
  | tooLarge (bytesPerSecond : Nat)
  deriving DecidableEq, Repr

inductive OutputError where
  | emptyName
  | notPlain (name : String)
  | reportName (name : String)
  deriving DecidableEq, Repr

inductive ConfigError where
  | window (e : SizingError)
  | rate (e : RateSourceError)
  | output (e : OutputError)
  deriving DecidableEq, Repr

def outOfRangeMessage (duration : Nat) : String :=
  "Duration out of range: " ++ Duration.decimalText duration

def SizingError.message : SizingError → String
  | bothSet => "set either width or divisions, not both"
  | zeroWidth => "width must be positive"
  | widthOutOfRange duration => outOfRangeMessage duration
  | zeroDivisions => "divisions must be positive"

def RateSourceError.message : RateSourceError → String
  | zero => "bytes_per_sec must be positive"
  | tooLarge bytesPerSecond => "bytes_per_sec too large: " ++ toString bytesPerSecond

def OutputError.message : OutputError → String
  | emptyName => "file_name must not be empty"
  | notPlain name => "file_name must be a plain file name, got '" ++ name ++ "'"
  | reportName name => "file_name '" ++ name ++ "' would be overwritten by the text report"

def ConfigError.message : ConfigError → String
  | window e => "Invalid window configuration: " ++ e.message
  | rate e => "Invalid bandwidth configuration: " ++ e.message
  | output e => "Invalid output configuration: " ++ e.message

def Sizing.toWidth (s : Sizing) : Except SizingError Width :=
  match s.width, s.divisions with
  | some _, some _ => .error .bothSet
  | some d, none =>
    if d = 0 then .error .zeroWidth
    else match Duration.toSpan? d with
      | some span => .ok (.fixed span)
      | none => .error (.widthOutOfRange d)
  | none, some n => if n = 0 then .error .zeroDivisions else .ok (.divisions n)
  | none, none => .ok Width.standard

namespace RateSource

def most : Nat := Word.most64

def check : RateSource → Except RateSourceError Unit
  | fixed n => if n = 0 then .error .zero else if most < n then .error (.tooLarge n) else .ok ()
  | _ => .ok ()

/-- A rate above the largest is taken for the largest. -/
def toPolicy : RateSource → RatePolicy
  | firstEvent => .firstEvent
  | perEvent => .perEvent
  | fixed n => .fixed (min n most : Nat)

end RateSource

namespace OutputSettings

def standard : OutputSettings := ⟨"usage.json", false, true⟩

def reportExtension : List Char := ['t', 'x', 't']

def check (o : OutputSettings) : Except OutputError Unit :=
  let name := o.fileName.toList
  if Text.trim name = [] then .error .emptyName
  else if '/' ∈ name ∨ '\\' ∈ name then .error (.notPlain o.fileName)
  else if (Path.extension? name).any (·.map Char.toLower == reportExtension) then
    .error (.reportName o.fileName)
  else .ok ()

def reportName (o : OutputSettings) : String :=
  String.ofList (Path.withExtension o.fileName.toList reportExtension)

end OutputSettings

namespace Config

def standard : Config := ⟨⟨none, none⟩, .firstEvent, OutputSettings.standard, false⟩

def width (c : Config) : Except ConfigError Width :=
  match c.window.toWidth with
  | .ok w => .ok w
  | .error e => .error (.window e)

/-- The first fault of the window, the rate and the output, in this order. -/
def validate (c : Config) : Except ConfigError Unit := do
  let _ ← c.width
  match c.rate.check with
  | .error e => .error (.rate e)
  | .ok () => match c.output.check with
    | .error e => .error (.output e)
    | .ok () => .ok ()

def options (c : Config) : Except ConfigError ChartOptions := do
  let width ← c.width
  return { width := width, rate := c.rate.toPolicy }

end Config

end InFlight
