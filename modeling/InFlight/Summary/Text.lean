import InFlight.Decimal.Fixed
import InFlight.Summary
import InFlight.Text.Column
/-!
The summary as text: the report that is written beside the chart, and the lines that are printed.
-/
namespace InFlight

/-- Bytes with two places from a thousand on, in thousands, millions or thousand millions. -/
def bytesText (bytes : Int) : String :=
  let scaled (unit : Float) (name : String) :=
    Decimal.Fixed.render 2 (Float.ofInt bytes / unit) ++ " " ++ name
  if 1000000000 ≤ bytes.natAbs then scaled 1e9 "GB"
  else if 1000000 ≤ bytes.natAbs then scaled 1e6 "MB"
  else if 1000 ≤ bytes.natAbs then scaled 1e3 "KB"
  else toString bytes ++ " B"

def millisText (millis : Float) : String :=
  if 1000.0 ≤ millis.abs then Decimal.Fixed.render 2 (millis / 1000.0) ++ " s"
  else Decimal.Fixed.render 1 millis ++ " ms"

namespace Summary

def tableRow (category transfers bytes peak : String) : String :=
  "  " ++ Text.flushLeft 28 category ++ " " ++ Text.flushRight 10 transfers ++ " " ++
    Text.flushRight 14 bytes ++ " " ++ Text.flushRight 8 peak

def rule : String := String.ofList (List.replicate 80 '=')

def slowdownLines (s : Summary) : List String :=
  match s.slowdown with
  | some x => ["  Real / ideal: " ++ Decimal.Fixed.render 2 x ++ "x"]
  | none => []

def reportLines (s : Summary) : List String :=
  [rule, "                        NETWORK USAGE ANALYSIS", rule, "",
    "Analysis Date: " ++ s.timestamp,
    "Events: " ++ toString s.events,
    "Time span: " ++ millisText s.spanMillis,
    "Windows: " ++ toString s.windows ++ " (" ++ s.width ++ ")", "",
    "Transfers by category:", tableRow "category" "transfers" "bytes" "peak"] ++
  s.categories.map (fun c =>
    tableRow c.category (toString c.transfers) (bytesText c.bytes) (toString c.peak)) ++
  ["", "Latency (mean over " ++ toString s.activeWindows ++ " active windows):",
    "  Ideal: " ++ millisText s.idealMillis,
    "  Real:  " ++ millisText s.realMillis] ++
  s.slowdownLines ++ [""]

def report (s : Summary) : String := "\n".intercalate s.reportLines

def printedLines (s : Summary) : List String :=
  ["", "=== NETWORK USAGE SUMMARY ===", "",
    "Events: " ++ toString s.events ++ "  Windows: " ++ toString s.windows ++ " (" ++
      s.width ++ ")"] ++
  s.categories.map (fun c =>
    "  " ++ c.category ++ ": " ++ toString c.transfers ++ " transfers, " ++ bytesText c.bytes ++
      ", peak " ++ toString c.peak ++ " in flight") ++
  ["Latency: ideal " ++ millisText s.idealMillis ++ ", real " ++ millisText s.realMillis, ""]

def printed (s : Summary) : String := String.join (s.printedLines.map (· ++ "\n"))

end Summary

end InFlight
