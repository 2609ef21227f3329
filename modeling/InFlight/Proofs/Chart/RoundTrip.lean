import InFlight.Chart.Json
import InFlight.Proofs.Chart.Shape
import InFlight.Proofs.Event.RoundTrip
import InFlight.Proofs.Json.Float
/-!
A chart is read back from the file it is written to, on one line or over many, save for the number
of endpoints of each window, which the file does not have.
-/
namespace InFlight.Chart

open Json

variable {c : Chart Float}

structure IsWritable (c : Chart Float) : Prop where
  intervals : ∀ t ∈ c.intervals, Timestamp.IsNameable t
  counts : ∀ series ∈ c.counts.values, ∀ n ∈ series, Word.IsSigned64 n
  ideal : ∀ x ∈ c.ideal, IsExact x
  real : ∀ x ∈ c.real, IsExact x

theorem categories?_toJson (names : NameSet) :
    categories? (.array (names.keys.map ofText)) = some names := by
  have read : list? text? (.array (names.keys.map ofText)) = some names.keys :=
    list?_array_map fun name _ => text?_ofText name
  rw [categories?, read, Option.map_some]
  exact congrArg some (NameSet.ofList_toList names)

theorem series?_toJson {name : String} {series : List Int} (h : ∀ n ∈ series, Word.IsSigned64 n) :
    series? (some name, .array (series.map ofInt)) = some (name, series) := by
  have read : list? signed? (.array (series.map ofInt)) = some series :=
    list?_array_map fun n hn => signed?_ofInt (h n hn)
  simp [series?, read]

theorem counts?_toJson {counts : NameMap (List Int)}
    (h : ∀ series ∈ counts.values, ∀ n ∈ series, Word.IsSigned64 n) :
    counts? (objectOf (counts.entries.map fun (name, series) =>
      (name, .array (series.map ofInt)))) = some counts := by
  have each : ∀ e ∈ counts.entries, series? (some e.1, .array (e.2.map ofInt)) = some e :=
    fun e he => series?_toJson (h e.2 (List.mem_map_of_mem he))
  have read : (counts.entries.map fun e =>
      ((some e.1, .array (e.2.map ofInt)) : Option String × Json)).mapM series? =
      some counts.entries := mapM_map_eq_some each
  rw [objectOf, List.map_map]
  change ((counts.entries.map fun e =>
    ((some e.1, .array (e.2.map ofInt)) : Option String × Json)).mapM
    series?).map NameMap.ofList = some counts
  rw [read, Option.map_some, NameMap.ofList_entries]

theorem list?_float_toJson {latencies : List Float} (h : ∀ x ∈ latencies, IsExact x) :
    list? float? (.array (latencies.map ofFloat)) = some latencies :=
  list?_array_map fun x hx => (h x hx).float?_ofFloat

/-- Each of the five members is decoded by itself. -/
theorem ofJson?_objectOf (intervals categories counts ideal real : Json) :
    ofJson? (objectOf [("Intervals", intervals), ("BarCategories", categories), ("BarData", counts),
      ("LatencyIdeal", ideal), ("LatencyReal", real)]) = (do
        some {
          intervals := ← list? Instant.ofJson? intervals
          categories := ← categories? categories
          counts := ← counts? counts
          ideal := ← list? float? ideal
          real := ← list? float? real
          pointCounts := [] }) := by
  simp [ofJson?, objectOf, ofMembers?, namesAreText, required?, valuesUnder]

theorem ofJson?_toJson (h : c.IsWritable) :
    ofJson? c.toJson = some { c with pointCounts := [] } := by
  have intervals : list? Instant.ofJson? (.array (c.intervals.map Instant.toJson)) =
      some c.intervals :=
    list?_array_map fun t ht => Instant.ofJson?_toJson (h.intervals t ht)
  rw [toJson, ofJson?_objectOf, intervals, categories?_toJson, counts?_toJson h.counts,
    list?_float_toJson h.ideal, list?_float_toJson h.real]
  rfl

theorem writable_toJson (c : Chart Float) : Writable c.toJson := by
  have counts : Writable (objectOf (c.counts.entries.map fun (name, series) =>
      (name, .array (series.map ofInt)))) := by
    apply writable_objectOf
    intro m hm
    obtain ⟨e, -, rfl⟩ := List.mem_map.mp hm
    exact writable_array_map writable_ofInt e.2
  apply writable_objectOf
  simp only [List.forall_mem_cons, List.not_mem_nil, false_imp_iff, implies_true, and_true]
  exact ⟨writable_array_map (fun t => .string _) _,
    writable_array_map (fun name => .string _) _, counts,
    writable_array_map writable_ofFloat _, writable_array_map writable_ofFloat _⟩

theorem toList_render (c : Chart Float) (pretty : Bool) :
    (c.render pretty).toList = write (if pretty then some 0 else none) c.toJson := by
  cases pretty <;> exact String.toList_ofList

theorem isAligned_of_isAligned (h : c.isAligned) :
    ({ c with pointCounts := [] } : Chart Float).isAligned := by
  obtain ⟨ideal, real, -, names, series⟩ := isAligned_iff.mp h
  exact isAligned_iff.mpr ⟨ideal, real, Or.inl rfl, names, series⟩

/-- Either text of a chart is read as the chart without its endpoint counts, which is aligned if the
chart is. -/
theorem read?_rendered (h : c.IsWritable) : ∃ d : Chart Float, d = { c with pointCounts := [] } ∧
    read? (c.render false).toList = some d ∧ read? (c.render true).toList = some d ∧
    (c.isAligned → d.isAligned) := by
  have read (pretty : Bool) : read? (c.render pretty).toList =
      some { c with pointCounts := [] } := by
    rw [read?, toList_render, Json.read?_write (writable_toJson c), Option.bind_some,
      ofJson?_toJson h]
  exact ⟨_, rfl, read false, read true, isAligned_of_isAligned⟩

def quotedChart : Chart Float :=
  { intervals := [Instant.first, .ofReading 59 1500000000]
    categories := NameSet.ofList ["say \"\\\n\x01", "😀"]
    counts := NameMap.ofList [("say \"\\\n\x01", [1, Word.least64]), ("😀", [Word.most64, 0])]
    ideal := [75.5, -0.0]
    real := [1.5e-7, 1e16]
    pointCounts := [2, 1] }

theorem read?_rendered_quotedChart : quotedChart.isAligned ∧ ∃ d : Chart Float,
    d = { quotedChart with pointCounts := [] } ∧ read? (quotedChart.render false).toList = some d ∧
      read? (quotedChart.render true).toList = some d ∧ (quotedChart.isAligned → d.isAligned) := by
  have writable : quotedChart.IsWritable := by
    constructor
    · have named : ∀ t ∈ quotedChart.intervals, t.InCalendar ∧
          (t.isLeap → t.secondOfDay % 60 = 59) := by decide
      exact fun t ht => ⟨(named t ht).1, (named t ht).2⟩
    · decide +kernel
    · decide +kernel
    · decide +kernel
  exact ⟨by decide +kernel, read?_rendered writable⟩

end InFlight.Chart
