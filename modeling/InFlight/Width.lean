import InFlight.Time.HumanDuration
import InFlight.Word
/-!
How wide the windows of a chart are: a fixed width, or a number of windows across the whole span of
the log.
-/
namespace InFlight

inductive Width where
  | fixed (span : Int)
  | divisions (count : Nat)
  deriving DecidableEq, Repr

inductive WidthError where
  | notPositive (span : Int)
  | noDivisions
  | tooManyDivisions (count : Nat)
  deriving DecidableEq, Repr

namespace Width

def standard : Width := .fixed 50000000

def spanText (span : Int) : String :=
  if span < 0 then Span.iso span else HumanDuration.render span.toNat

def text : Width → String
  | fixed span => spanText span
  | divisions count => toString count ++ " divisions"

def mostDivisions : Nat := Word.most32

/-- The nominal width for a log of some span. A derived width is one nanosecond at least. -/
def resolve (width : Width) (span : Int) : Except WidthError Int :=
  match width with
  | fixed w => if w ≤ 0 then .error (.notPositive w) else .ok w
  | divisions n =>
    if n = 0 then .error .noDivisions
    else if mostDivisions < n then .error (.tooManyDivisions n)
    else .ok (max (Span.dividedBy span n) 1)

end Width

def WidthError.message : WidthError → String
  | notPositive span => "width must be positive, got " ++ Span.iso span
  | noDivisions => "division count must be positive"
  | tooManyDivisions count => "too many divisions: " ++ toString count

/-- The number of windows of a width that cover a span, in 64 bits. -/
def windowCount (span width : Int) : Nat :=
  if span ≤ 0 ∨ width ≤ 0 then 0 else ((span + width - 1) / width).toNat % Word.count64

end InFlight
