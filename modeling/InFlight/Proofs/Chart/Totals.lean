import InFlight.Proofs.Chart.Build
import InFlight.Proofs.Summary
import InFlight.Proofs.Window.Walk
/-!
The summary of a chart that was built. It is joined from two readings: the events of the log under
their names, and the series of the chart under the same names. Each event is counted once, and each
category stands with the peak of its own series.
-/
namespace InFlight

open Endpoint (ofEvents)

variable {events : List Event} {chart : Chart Float} {w : Windows}

structure CategoryTotal.IsOf (total : CategoryTotal) (events : List Event) (chart : Chart Float) :
    Prop where
  transfers_eq : total.transfers = events.countP fun e => e.category = total.category
  bytes_eq : Summary.SumsFit ((Summary.ofCategory events total.category).map Event.size) →
    total.bytes = ((Summary.ofCategory events total.category).map Event.size).sum
  peak_eq_zero : chart.length = 0 → total.peak = 0
  peak_greatest : 0 < chart.length →
    ∃ series, chart.series total.category = some series ∧ IsGreatest {n | n ∈ series} total.peak

structure Summary.Describes (summary : Summary) (events : List Event) (chart : Chart Float)
    (w : Windows) : Prop where
  categories_eq : summary.categories.map CategoryTotal.category = chart.categories.toList
  ascending : (summary.categories.map CategoryTotal.category).Pairwise (· < ·)
  total : ∀ total ∈ summary.categories, total.IsOf events chart
  transfers_sum : (summary.categories.map CategoryTotal.transfers).sum = summary.events
  events_eq : summary.events = events.length
  windows_eq : summary.windows = w.all.length
  activeWindows_eq : summary.activeWindows =
    w.all.countP fun v => (ofEvents events).any fun p => v.start ≤ p.time ∧ p.time ≤ v.finish
  some_active : 0 < summary.windows → 0 < summary.activeWindows

namespace Chart

theorem isOf_of_mem_categoryTotals (shows : chart.IsOf events w) {total : CategoryTotal}
    (ht : total ∈ Summary.categoryTotals events chart) : total.IsOf events chart := by
  obtain ⟨named, peak⟩ := Summary.category_and_peak_of_mem ht
  obtain ⟨transfers, bytes⟩ := Summary.transfers_and_bytes_of_mem ht
  have series := shows.series_eq total.category named
  have length := shows.length_eq
  refine ⟨?_, bytes, fun none => ?_, fun some_window => ⟨_, series, ?_⟩⟩
  · rw [transfers, Summary.ofCategory, ← List.countP_eq_length_filter]
  · rw [peak, series, ← length, none]
    rfl
  · rw [peak, series]
    apply Summary.isGreatest_peakOf
    rw [ne_eq, List.map_eq_nil_iff, List.range_eq_nil]
    omega

/-- The windows that are counted as active are those in whose slice an endpoint lies. -/
theorem length_activeWindows_eq {width : Width} (shows : chart.IsOf events w)
    (laid : Windows.forWidth (ofEvents events) width = .ok w) : chart.activeWindows.length =
      w.all.countP fun v => (ofEvents events).any fun p => v.start ≤ p.time ∧
      p.time ≤ v.finish := by
  rw [Summary.length_activeWindows, shows.pointCounts_eq, List.countP_map]
  apply List.countP_congr
  intro v hv
  rw [Function.comp_apply, Windows.points_eq_filter (Endpoint.inOrder_ofEvents events) laid hv,
    List.any_eq_true]
  simp [List.length_pos_iff_exists_mem]

theorem activeWindows_pos {width : Width} (some_event : events ≠ []) (shows : chart.IsOf events w)
    (laid : Windows.forWidth (ofEvents events) width = .ok w) (ends : w.Ends)
    (some_window : 0 < w.all.length) :
    0 < chart.activeWindows.length := by
  obtain ⟨v, windows, split⟩ := List.exists_cons_of_length_pos some_window
  have hv : v ∈ w.all.head? := by
    rw [split]
    rfl
  have full := Windows.points_ne_nil_of_head? (Endpoint.inOrder_ofEvents events)
    (Endpoint.ofEvents_ne_nil some_event)
    laid ends hv
  rw [Summary.length_activeWindows, shows.pointCounts_eq, split, List.map_cons,
    List.countP_cons_of_pos (by simpa using List.length_pos_iff.mpr full)]
  exact Nat.succ_pos _

/-- Every chart that is built has a summary, and it describes the log and the chart. -/
theorem describes_of_build {options : ChartOptions} (built : build Float events options = .ok chart)
    (timestamp : String) : ∃ w summary, Windows.forWidth (ofEvents events) options.width = .ok w ∧
      Summary.of? timestamp events chart options.width = some summary ∧
      summary.Describes events chart w := by
  obtain ⟨some_event, nominal, w, -, laid, ends, made⟩ := build_eq_ok_iff.mp built
  have shows : chart.IsOf events w := made ▸ isOf_ofWindows events nominal w
  have categories : chart.categories = NameSet.ofList (events.map Event.category) := made ▸ rfl
  obtain ⟨summary, summed⟩ := Option.isSome_iff_exists.mp
    (Summary.isSome_of? (coversActive_of_build built) timestamp events options.width)
  have totals := Summary.categories_of_of? summed
  obtain ⟨length, windows, active⟩ := Summary.counts_of_of? summed
  have names : summary.categories.map CategoryTotal.category = chart.categories.toList := by
    rw [totals, Summary.map_category_categoryTotals, categories]
  have counted : summary.windows = w.all.length := windows.trans shows.length_eq
  refine ⟨w, summary, laid, summed, ?_⟩
  exact {
    categories_eq := names
    ascending := names ▸ NameMap.pairwise_keys chart.categories
    total := fun total ht => isOf_of_mem_categoryTotals shows (totals ▸ ht)
    transfers_sum := by
      rw [totals, length]
      exact Summary.sum_transfers events chart
    events_eq := length
    windows_eq := counted
    activeWindows_eq := active.trans (length_activeWindows_eq shows laid)
    some_active := fun some_window => by
      rw [active]
      exact activeWindows_pos some_event shows laid ends (counted ▸ some_window) }

def gapLog : List Event :=
  [⟨"org", "peer", "nonce", 30, .ofNanos 0, .ofNanos 40, 5, 0, 1⟩,
   ⟨"org", "peer", "block", 10, .ofNanos 0, .ofNanos 130, 5, 0, 2⟩,
   ⟨"peer", "org", "block", -4, .ofNanos 20, .ofNanos 30, 5, 0, 3⟩]

theorem describes_of_build_gapLog :
    ∃ chart summary, build Float gapLog ⟨.fixed 50, .firstEvent⟩ = .ok chart ∧
      Summary.of? "" gapLog chart (.fixed 50) = some summary ∧
      summary.categories.map CategoryTotal.category = ["block", "nonce"] ∧
      (∀ total ∈ summary.categories, total.category = "block" → total.transfers = 2 ∧
        total.bytes = 6) ∧
      summary.events = 3 ∧ summary.windows = 3 ∧ summary.activeWindows = 2 ∧
      0 < summary.activeWindows := by
  obtain ⟨w, laid, -⟩ := Windows.exists_forWidth_fixed (ofEvents gapLog)
    (by decide : (0 : Int) < 50)
  have ends : w.Ends := Windows.ends_ofEvents (by decide) laid
  have ordered : (NameSet.ofList (gapLog.map Event.category)).toList = ["block", "nonce"] := by
    decide
  obtain ⟨chart, built, names⟩ : ∃ chart, build Float gapLog ⟨.fixed 50, .firstEvent⟩ = .ok chart ∧
      chart.categories.toList = ["block", "nonce"] :=
    ⟨_, build_eq_ok_iff.mpr ⟨List.cons_ne_nil _ _, .runWide 5, w, rfl, laid, ends, rfl⟩, ordered⟩
  obtain ⟨w', summary, laid', summed, described⟩ := describes_of_build built ""
  obtain rfl := Except.ok.inj (laid.symm.trans laid')
  have shown : ((Windows.forWidth (ofEvents gapLog) (.fixed 50)).toOption.map fun w =>
      (w.all.length,
      w.all.countP fun v => (ofEvents gapLog).any fun p => v.start ≤ p.time ∧ p.time ≤ v.finish)) =
        some (3, 2) := by cbv
  rw [laid] at shown
  obtain ⟨windows, active⟩ := Prod.mk.inj (Option.some.inj shown)
  have counted : summary.windows = 3 := described.windows_eq.trans windows
  refine ⟨chart, summary, built, summed, described.categories_eq.trans names,
    fun total ht block => ?_,
    described.events_eq, counted, described.activeWindows_eq.trans active,
    described.some_active (by rw [counted]; decide)⟩
  have whole := described.total total ht
  have sizes : (Summary.ofCategory gapLog total.category).map Event.size = [10, -4] := by
    rw [block]
    decide
  refine ⟨by rw [whole.transfers_eq, block]; decide, ?_⟩
  have fit : Summary.SumsFit [10, -4] := by
    intro k
    rcases k with _ | _ | k
    · decide
    · decide
    · rw [List.take_of_length_le (by simp)]
      decide
  rw [whole.bytes_eq (sizes ▸ fit), sizes]
  decide

end Chart

end InFlight
