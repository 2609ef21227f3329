import InFlight.Chart
import InFlight.Proofs.Counts.Balance
import InFlight.Proofs.Window.Ending
import Mathlib
/-!
A chart as its windows show it: when a log has a chart, and what its series are in terms of the
windows laid over the endpoints of the log.
-/
namespace InFlight

attribute [ext] Chart

variable {α : Type}

theorem Endpoint.balance_flatMap (category : String) (windows : List Window) :
    balance category (windows.flatMap Window.points) =
      (windows.map fun v => balance category v.points).sum := by
  induction windows with
  | nil => rfl
  | cons v windows ih => rw [List.flatMap_cons, balance_append, ih, List.map_cons, List.sum_cons]

namespace Chart

variable {chart : Chart α} {events : List Event} {w : Windows}

def countAt? (chart : Chart α) (category : String) (i : Nat) :
    Option Int := (chart.series category).bind (·[i]?)

structure IsOf (chart : Chart α) (events : List Event) (w : Windows) : Prop where
  intervals_eq : chart.intervals = w.all.map Window.start
  pointCounts_eq : chart.pointCounts = w.all.map fun v => v.points.length
  series_eq : ∀ c ∈ events.map Event.category, chart.series c =
    some ((List.range w.all.length).map fun i =>
      ((w.all.take (i + 1)).map fun v => Endpoint.balance c v.points).sum)

theorem IsOf.length_eq (h : chart.IsOf events w) : chart.length = w.all.length := by
  rw [length, h.intervals_eq, List.length_map]

/-- A count is the balance of all endpoints up to its window, window by window. -/
theorem IsOf.countAt?_eq (h : chart.IsOf events w) {c : String}
    (hc : c ∈ events.map Event.category) {i : Nat} (hi : i < w.all.length) :
    chart.countAt? c i =
      some (Endpoint.balance c ((w.all.take (i + 1)).flatMap Window.points)) := by
  rw [countAt?, h.series_eq c hc, Option.bind_some, List.getElem?_map, List.getElem?_range hi,
    Option.map_some, Endpoint.balance_flatMap]

structure IsTimedBy [Arithmetic α] (chart : Chart α) (nominal : NominalRate) (w : Windows) :
    Prop where
  ideal_eq : chart.ideal = w.all.map fun v => Latency.meanIdeal α nominal v.points
  real_eq : chart.real = w.all.map fun v => Latency.meanReal α v.points

end Chart

variable [Arithmetic α]

namespace Sweep

theorem buckets_map {β : Type} (nominal : NominalRate) (f : Bucket α → β) (g : Window → β)
    (h : ∀ counts v, f (bucket α nominal counts v) = g v) (counts : Counts)
    (windows : List Window) :
    (buckets α nominal counts windows).map f = windows.map g := by
  induction windows generalizing counts with
  | nil => rfl
  | cons v windows ih =>
    rw [buckets, List.map_cons, List.map_cons, h, ih]

/-- A running count is the balance of all windows so far. -/
theorem map_count_buckets (nominal : NominalRate) (counts : Counts) (windows : List Window)
    (category : String) :
    (buckets α nominal counts windows).map (fun b => b.counts.count category) =
      (List.range windows.length).map fun i => counts.count category +
        ((windows.take (i + 1)).map fun v => Endpoint.balance category v.points).sum := by
  induction windows generalizing counts with
  | nil => rfl
  | cons v windows ih =>
    rw [buckets, List.map_cons, ih, List.length_cons, List.range_succ_eq_map,
      List.map_cons, List.map_map]
    congr 1
    · simp [bucket, Counts.count_advance]
    · apply List.map_congr_left
      intro i _
      simp only [Function.comp_apply, Counts.count_advance, Nat.succ_eq_add_one,
        List.take_succ_cons, List.map_cons, List.sum_cons]
      exact Int.add_assoc _ _ _

theorem windows_eq (sorted : List Endpoint) (width : Width) (h : sorted ≠ []) :
    windows sorted width = (Windows.forWidth sorted width).mapError .width := by
  unfold windows
  rw [if_neg h]
  cases Windows.forWidth sorted width <;> rfl

end Sweep

namespace Chart

variable {events : List Event} {options : ChartOptions} {chart : Chart α}

variable (α) in
def ofWindows (events : List Event) (nominal : NominalRate) (w : Windows) : Chart α :=
  assemble (NameSet.ofList (events.map Event.category)) (Sweep.buckets α nominal
    (Counts.zeroed ((Endpoint.ofEvents events).map Endpoint.category)) w.all)

variable (α) in
/-- The same, if the sweep over the windows has an end. -/
def overWindows (events : List Event) (nominal : NominalRate) (w : Windows) :
    Except ChartError (Chart α) :=
  (w.sweep.mapError ChartError.sweep).map fun swept =>
    assemble (NameSet.ofList (events.map Event.category))
      (Sweep.buckets α nominal (Counts.zeroed ((Endpoint.ofEvents events).map Endpoint.category))
        swept)

theorem overWindows_of_ends {w : Windows} (events : List Event) (nominal : NominalRate)
    (ends : w.Ends) :
    overWindows α events nominal w = .ok (ofWindows α events nominal w) := by
  rw [overWindows, Windows.sweep_of_ends ends]
  rfl

theorem overWindows_of_error {w : Windows} {b : Breakdown} (events : List Event)
    (nominal : NominalRate) (broken : w.sweep = .error b) :
    overWindows α events nominal w = .error (.sweep b) := by
  rw [overWindows, broken]
  rfl

theorem overWindows_eq_ok_iff {w : Windows} {nominal : NominalRate} :
    overWindows α events nominal w = .ok chart ↔ w.Ends ∧ chart = ofWindows α events nominal w := by
  rcases w.ends_or_error with ends | ⟨b, broken⟩
  · rw [overWindows_of_ends events nominal ends, Except.ok.injEq, eq_comm]
    exact (and_iff_right ends).symm
  · rw [overWindows_of_error events nominal broken]
    refine iff_of_false nofun fun h => ?_
    rw [Windows.sweep_of_ends h.1] at broken
    cases broken

theorem build_eq (some_event : events ≠ []) (options : ChartOptions) :
    build α events options = nominalRate events options.rate >>= fun nominal =>
      (Windows.forWidth (Endpoint.ofEvents events) options.width).mapError ChartError.width >>=
        overWindows α events nominal := by
  unfold build Sweep.run
  rw [if_neg some_event, Sweep.windows_eq _ _ (Endpoint.ofEvents_ne_nil some_event)]
  simp only [bind_assoc, pure_bind]
  rfl

theorem build_of_forWidth {w : Windows} (some_event : events ≠ [])
    (made : Windows.forWidth (Endpoint.ofEvents events) options.width = .ok w) :
    build α events options =
      nominalRate events options.rate >>= fun nominal => overWindows α events nominal w := by
  rw [build_eq some_event, made]
  rfl

theorem build_of_ends {w : Windows} (some_event : events ≠ [])
    (made : Windows.forWidth (Endpoint.ofEvents events) options.width = .ok w) (ends : w.Ends) :
    build α events options =
      (nominalRate events options.rate).map fun nominal => ofWindows α events nominal w := by
  rw [build_of_forWidth some_event made]
  simp only [overWindows_of_ends _ _ ends]
  cases nominalRate events options.rate <;> rfl

theorem build_of_forWidth_error {why : WidthError} (some_event : events ≠ [])
    (refused : Windows.forWidth (Endpoint.ofEvents events) options.width = .error why) :
    build α events options = nominalRate events options.rate >>= fun _ => .error (.width why) := by
  rw [build_eq some_event, refused]
  rfl

theorem build_eq_ok_iff : build α events options = .ok chart ↔
    events ≠ [] ∧ ∃ nominal w, nominalRate events options.rate = .ok nominal ∧
      Windows.forWidth (Endpoint.ofEvents events) options.width = .ok w ∧ w.Ends ∧
      chart = ofWindows α events nominal w := by
  by_cases empty : events = []
  · simp [build, empty]
  · rw [build_eq empty]
    cases nominalRate events options.rate with
    | error e => simp [bind, Except.bind]
    | ok nominal =>
      cases Windows.forWidth (Endpoint.ofEvents events) options.width with
      | error e => simp [bind, Except.bind, Except.mapError]
      | ok w => simp [bind, Except.bind, Except.mapError, overWindows_eq_ok_iff, empty]

theorem exists_build_of_shown {β : Type} {f : Chart α → β} {y : β}
    (shown : (build α events options).toOption.map f = some y) :
    ∃ chart, build α events options = .ok chart ∧ f chart = y := by
  cases built : build α events options with
  | error e => simp [built, Except.toOption] at shown
  | ok chart =>
    rw [built] at shown
    exact ⟨chart, rfl, Option.some.inj shown⟩

theorem isOf_ofWindows (events : List Event) (nominal : NominalRate) (w : Windows) :
    (ofWindows α events nominal w).IsOf events w := by
  refine ⟨?_, ?_, ?_⟩
  · exact Sweep.buckets_map nominal _ _ (fun _ _ => rfl) _ _
  · exact Sweep.buckets_map nominal _ _ (fun _ _ => rfl) _ _
  · intro c hc
    rw [series, ofWindows, assemble, NameMap.get?_mapWithName, NameSet.get?_ofList, if_pos hc,
      Option.map_some, Sweep.map_count_buckets]
    simp [Counts.count_zeroed]

theorem isTimedBy_ofWindows (events : List Event) (nominal : NominalRate) (w : Windows) :
    (ofWindows α events nominal w).IsTimedBy nominal w :=
  ⟨Sweep.buckets_map nominal _ _ (fun _ _ => rfl) _ _,
    Sweep.buckets_map nominal _ _ (fun _ _ => rfl) _ _⟩

theorem exists_isOf_of_build (h : build α events options = .ok chart) :
    ∃ w, Windows.forWidth (Endpoint.ofEvents events) options.width = .ok w ∧
      chart.IsOf events w := by
  obtain ⟨-, nominal, w, -, laid, -, rfl⟩ := build_eq_ok_iff.mp h
  exact ⟨w, laid, isOf_ofWindows events nominal w⟩

end Chart

end InFlight
