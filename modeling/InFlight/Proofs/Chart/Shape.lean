import InFlight.Proofs.Chart.PrefixCount
import InFlight.Proofs.Summary
import InFlight.Proofs.Window.Sharing
/-!
The shape of a chart: series of one length under the categories of the log, windows that rise from
the earliest start or finish to the latest, and nothing new in a window without endpoints. A summary
relies on the lengths alone.
-/
namespace InFlight

open Arithmetic (ofInt)

def Event.times (events : List Event) : Set Instant :=
  {t | ∃ e ∈ events, t = e.start ∨ t = e.finish}

theorem Event.mem_times {events : List Event} {t : Instant} :
    t ∈ Event.times events ↔ ∃ p ∈ Endpoint.ofEvents events, p.time = t := by
  constructor
  · rintro ⟨e, he, rfl | rfl⟩
    · exact ⟨e.startpoint, Endpoint.mem_ofEvents.mpr ⟨e, he, Or.inl rfl⟩, rfl⟩
    · exact ⟨e.finishpoint, Endpoint.mem_ofEvents.mpr ⟨e, he, Or.inr rfl⟩, rfl⟩
  · rintro ⟨p, hp, rfl⟩
    obtain ⟨e, he, rfl | rfl⟩ := Endpoint.mem_ofEvents.mp hp
    · exact ⟨e, he, Or.inl rfl⟩
    · exact ⟨e, he, Or.inr rfl⟩

theorem Event.isGreatest_lastTime {events : List Event} (h : events ≠ []) :
    IsGreatest (Event.times events) (Windows.lastTime (Endpoint.ofEvents events)) := by
  constructor
  · exact Event.mem_times.mpr (Windows.exists_mem_of_lastTime (Endpoint.ofEvents_ne_nil h))
  · intro t ht
    obtain ⟨p, hp, rfl⟩ := Event.mem_times.mp ht
    exact Windows.le_lastTime (Endpoint.inOrder_ofEvents events) hp

theorem Event.firstTime_eq_lastTime_iff {events : List Event} (h : events ≠ []) :
    Windows.firstTime (Endpoint.ofEvents events) = Windows.lastTime (Endpoint.ofEvents events) ↔
      ∃ t, ∀ e ∈ events, e.start = t ∧ e.finish = t := by
  have least := Chart.isLeast_firstTime h
  have greatest := Event.isGreatest_lastTime h
  constructor
  · intro same
    have only : ∀ t ∈ Event.times events, t = Windows.firstTime (Endpoint.ofEvents events) := by
      intro t ht
      exact le_antisymm (same ▸ greatest.2 ht) (least.2 ht)
    exact ⟨_, fun e he => ⟨only _ ⟨e, he, Or.inl rfl⟩, only _ ⟨e, he, Or.inr rfl⟩⟩⟩
  · rintro ⟨t, all⟩
    have only : ∀ s ∈ Event.times events, s = t := by
      rintro s ⟨e, he, rfl | rfl⟩
      · exact (all e he).1
      · exact (all e he).2
    rw [only _ least.1, only _ greatest.1]

namespace IsGrid

variable {first last t : Instant} {edge : Nat → Instant} {count : Nat}

theorem pairwise_starts (g : IsGrid first last edge count) :
    ((List.range count).map edge).Pairwise (· < ·) := by
  rw [List.pairwise_map]
  apply List.pairwise_lt_range.imp_of_mem
  intro j k _ hk lt
  exact g.edge_lt lt (le_of_lt (List.mem_range.mp hk))

theorem eq_first_of_head? (g : IsGrid first last edge count)
    (h : t ∈ ((List.range count).map edge).head?) :
    t = first := by
  cases count with
  | zero => cases h
  | succ m =>
    rw [List.range_succ_eq_map] at h
    rw [← g.edge_zero]
    exact (Option.some.inj h).symm

theorem lt_last_of_mem (g : IsGrid first last edge count) (h : t ∈ (List.range count).map edge) :
    t < last := by
  obtain ⟨k, hk, rfl⟩ := List.mem_map.mp h
  exact g.edge_lt_last k (List.mem_range.mp hk)

end IsGrid

namespace Windows

variable {sorted : List Endpoint} {w : Windows}

theorem count_eq_zero_iff (laid : w.IsLaidOver sorted) (order : Endpoint.InOrder sorted) :
    w.count = 0 ↔ firstTime sorted = lastTime sorted := by
  constructor
  · intro none_
    apply le_antisymm (firstTime_le_lastTime order)
    rw [← laid.grid.edge_zero, ← none_]
    exact laid.grid.last_le_edge
  · intro same
    by_contra some_window
    have before := laid.grid.edge_lt_last 0 (Nat.pos_of_ne_zero some_window)
    rw [laid.grid.edge_zero, same] at before
    exact lt_irrefl _ before

/-- The first endpoint lies in the first window, so one without endpoints has a window before it. -/
theorem pos_of_points_eq_nil (laid : w.IsLaidOver sorted) (some_point : sorted ≠ []) {i : Nat}
    (hi : i < w.count) (quiet : (w.window i).points = []) : 0 < i := by
  apply Nat.pos_of_ne_zero
  rintro rfl
  obtain ⟨p, hp, first⟩ := exists_mem_of_firstTime some_point
  have within : p ∈ (w.window 0).points := by
    rw [laid.points_eq, List.mem_filter, first, laid.grid.edge_zero.symm]
    exact ⟨hp, decide_eq_true ⟨le_rfl, laid.grid.edge_le (Nat.zero_le 1) hi⟩⟩
  rw [quiet] at within
  cases within

end Windows

namespace Chart

variable {α : Type} {chart : Chart α} {events : List Event} {options : ChartOptions}

theorem isAligned_iff : chart.isAligned ↔
    chart.ideal.length = chart.length ∧ chart.real.length = chart.length ∧
      (chart.pointCounts = [] ∨ chart.pointCounts.length = chart.length) ∧
      chart.categories.size = chart.counts.size ∧ ∀ series ∈ chart.counts.values,
        series.length = chart.length := by
  simp only [isAligned, Bool.and_eq_true, Bool.or_eq_true, beq_iff_eq, List.isEmpty_iff,
    List.all_eq_true, and_assoc]

theorem isAligned_assemble (categories : NameSet) (buckets : List (Bucket α)) :
    (assemble categories buckets).isAligned := by
  rw [isAligned_iff]
  simp only [assemble, length, List.length_map, or_true, true_and]
  constructor
  · simp [NameMap.size, NameMap.mapWithName]
  · intro series hs
    simp only [NameMap.values, NameMap.mapWithName, List.map_map, List.mem_map] at hs
    obtain ⟨e, -, rfl⟩ := hs
    exact List.length_map _

theorem coversActive_of_isAligned (h : chart.isAligned) : chart.CoversActive := by
  obtain ⟨ideal, real, points, -, -⟩ := isAligned_iff.mp h
  intro i hi
  have within := lt_of_mem_activeWindows hi
  rcases points with none_ | length
  · rw [none_] at within
    cases within
  · exact ⟨by omega, by omega⟩

theorem points_eq_nil_of_pointCounts {w : Windows} (shows : chart.IsOf events w) {i : Nat}
    (none_ : chart.pointCounts[i]? = some 0) : ∃ v, w.all[i]? = some v ∧ v.points = [] := by
  rw [shows.pointCounts_eq, List.getElem?_map, Option.map_eq_some_iff] at none_
  obtain ⟨v, hv, empty⟩ := none_
  exact ⟨v, hv, List.eq_nil_of_length_eq_zero empty⟩

/-- A window without endpoints adds nothing to the sum over the windows before it. -/
theorem series_of_points_eq_nil {w : Windows} (shows : chart.IsOf events w) {j : Nat} {v : Window}
    (hv : w.all[j + 1]? = some v) (empty : v.points = []) {c : String}
    (hc : c ∈ events.map Event.category) :
    ∃ series n, chart.series c = some series ∧ series[j]? = some n ∧ series[j + 1]? = some n := by
  obtain ⟨within, -⟩ := List.getElem?_eq_some_iff.mp hv
  refine ⟨_, ((w.all.take (j + 1)).map fun v => Endpoint.balance c v.points).sum,
    shows.series_eq c hc, ?_, ?_⟩
  · rw [List.getElem?_map, List.getElem?_range (by omega), Option.map_some]
  · rw [List.getElem?_map, List.getElem?_range within, Option.map_some, List.take_add_one, hv]
    simp [empty]

variable [Arithmetic α]

structure IsWellShaped (chart : Chart α) (events : List Event) : Prop where
  aligned : chart.isAligned
  one_pointCount_each : chart.pointCounts.length = chart.length
  mem_categories : ∀ c, c ∈ chart.categories.toList ↔ c ∈ events.map Event.category
  mem_keys : ∀ c, c ∈ chart.counts.keys ↔ c ∈ events.map Event.category
  rising : chart.intervals.Pairwise (· < ·)
  starts : ∀ t ∈ chart.intervals.head?, IsLeast (Event.times events) t
  before_last : ∃ last, IsGreatest (Event.times events) last ∧ ∀ t ∈ chart.intervals, t < last
  isEmpty_iff : chart.isEmpty ↔ ∃ t, ∀ e ∈ events, e.start = t ∧ e.finish = t
  /-- Without endpoints a window has no latency and keeps the counts of the window before it. -/
  quiet : ∀ i, chart.pointCounts[i]? = some 0 →
    chart.ideal[i]? = some (ofInt 0) ∧ chart.real[i]? = some (ofInt 0) ∧
      ∃ j, i = j + 1 ∧ ∀ c ∈ events.map Event.category, ∃ series n,
        chart.series c = some series ∧ series[j]? = some n ∧ series[i]? = some n

theorem categories_ofWindows (events : List Event) (nominal : NominalRate) (w : Windows)
    (c : String) :
    c ∈ (ofWindows α events nominal w).categories.toList ↔ c ∈ events.map Event.category :=
  NameSet.mem_ofList _ c

theorem keys_ofWindows (events : List Event) (nominal : NominalRate) (w : Windows) (c : String) :
    c ∈ (ofWindows α events nominal w).counts.keys ↔ c ∈ events.map Event.category := by
  rw [ofWindows, assemble, NameMap.keys_mapWithName]
  exact NameSet.mem_ofList _ c

theorem latencies_of_points_eq_nil {w : Windows} {nominal : NominalRate}
    (timed : chart.IsTimedBy nominal w) {i : Nat} {v : Window} (hv : w.all[i]? = some v)
    (empty : v.points = []) :
    chart.ideal[i]? = some (ofInt 0) ∧ chart.real[i]? = some (ofInt 0) := by
  rw [timed.ideal_eq, timed.real_eq, List.getElem?_map, List.getElem?_map, hv, Option.map_some,
    Option.map_some, empty]
  exact ⟨rfl, rfl⟩

theorem quiet_ofWindows {w : Windows} (nominal : NominalRate) (some_event : events ≠ [])
    (laid : w.IsLaidOver (Endpoint.ofEvents events)) {i : Nat}
    (none_ : (ofWindows α events nominal w).pointCounts[i]? = some 0) :
    (ofWindows α events nominal w).ideal[i]? = some (ofInt 0) ∧
      (ofWindows α events nominal w).real[i]? = some (ofInt 0) ∧
      ∃ j, i = j + 1 ∧ ∀ c ∈ events.map Event.category, ∃ series n,
        (ofWindows α events nominal w).series c = some series ∧ series[j]? = some n ∧
        series[i]? = some n := by
  have shows : (ofWindows α events nominal w).IsOf events w := isOf_ofWindows events nominal w
  have timed : (ofWindows α events nominal w).IsTimedBy nominal w :=
    isTimedBy_ofWindows events nominal w
  obtain ⟨v, hv, empty⟩ := points_eq_nil_of_pointCounts shows none_
  obtain ⟨within, here⟩ := List.getElem?_eq_some_iff.mp hv
  have window : v = w.window i := by simp [← here, laid.all_eq]
  have positive := Windows.pos_of_points_eq_nil laid (Endpoint.ofEvents_ne_nil some_event)
    (laid.length_eq ▸ within)
    (window ▸ empty)
  obtain ⟨j, rfl⟩ := Nat.exists_eq_succ_of_ne_zero (Nat.ne_of_gt positive)
  obtain ⟨ideal, real⟩ := latencies_of_points_eq_nil timed hv empty
  exact ⟨ideal, real, j, rfl, fun c hc => series_of_points_eq_nil shows hv empty hc⟩

theorem isWellShaped_ofWindows {w : Windows} (nominal : NominalRate) (some_event : events ≠ [])
    (laid : w.IsLaidOver (Endpoint.ofEvents events)) :
    (ofWindows α events nominal w).IsWellShaped events := by
  have shows : (ofWindows α events nominal w).IsOf events w := isOf_ofWindows events nominal w
  have intervals : (ofWindows α events nominal w).intervals = (List.range w.count).map w.edge := by
    rw [shows.intervals_eq, laid.all_eq, List.map_map]
    rfl
  constructor
  · exact isAligned_assemble _ _
  · rw [shows.pointCounts_eq, List.length_map, shows.length_eq]
  · exact categories_ofWindows events nominal w
  · exact keys_ofWindows events nominal w
  · rw [intervals]
    exact laid.grid.pairwise_starts
  · intro t ht
    rw [intervals] at ht
    rw [laid.grid.eq_first_of_head? ht]
    exact isLeast_firstTime some_event
  · refine ⟨_, Event.isGreatest_lastTime some_event, ?_⟩
    intro t ht
    rw [intervals] at ht
    exact laid.grid.lt_last_of_mem ht
  · rw [isEmpty, intervals, List.isEmpty_iff, List.map_eq_nil_iff, List.range_eq_nil,
      Windows.count_eq_zero_iff laid (Endpoint.inOrder_ofEvents events)]
    exact Event.firstTime_eq_lastTime_iff some_event
  · exact fun i none_ => quiet_ofWindows nominal some_event laid none_

/-- Every chart that is built is well shaped, and a summary never reads behind the end of a series
of an aligned chart, whether built or not. -/
theorem isWellShaped_of_build_and_summary_of_isAligned :
    (∀ {α : Type} [Arithmetic α] {events : List Event} {options : ChartOptions} {chart : Chart α},
      (∀ e ∈ events, e.IsPlain) → build α events options = .ok chart → chart.IsWellShaped events) ∧
    ∀ {chart : Chart Float}, chart.isAligned → chart.CoversActive ∧
      ∀ timestamp events width, ∃ summary, Summary.of? timestamp events chart width =
        some summary := by
  constructor
  · intro α _ events options chart plain built
    obtain ⟨some_event, nominal, w, -, made, -, rfl⟩ := build_eq_ok_iff.mp built
    exact isWellShaped_ofWindows nominal some_event (Windows.isLaidOver_ofEvents plain made)
  · intro chart aligned
    have covers := coversActive_of_isAligned aligned
    exact ⟨covers, fun timestamp events width =>
      Option.isSome_iff_exists.mp (Summary.isSome_of? covers timestamp events width)⟩

def pausedLog : List Event :=
  [⟨"org", "peer", "block", 10, .ofNanos 0, .ofNanos 130, 5, 0, 1⟩,
   ⟨"org", "peer", "nonce", 10, .ofNanos 20, .ofNanos 30, 5, 0, 2⟩]

/-- A chart of two windows without endpoint counts, as one read back from a file. -/
def readBack : Chart Float :=
  ⟨[.ofNanos 0, .ofNanos 50], NameSet.ofList ["block"], NameMap.ofList [("block", [1, 0])],
    [1, 2], [3, 4], []⟩

theorem isWellShaped_of_build_and_summary_of_isAligned_paused :
    (∃ chart, build Rat pausedLog ⟨.fixed 50, .firstEvent⟩ = .ok chart ∧
      chart.pointCounts = [3, 0, 1] ∧
      chart.isAligned ∧ chart.ideal[1]? = some 0 ∧
      ∃ series n, chart.series "block" = some series ∧ series[0]? = some n ∧ series[1]? = some n) ∧
    ∃ summary, Summary.of? "" pausedLog readBack (.fixed 50) = some summary := by
  constructor
  · have shown : ((build Rat pausedLog ⟨.fixed 50, .firstEvent⟩).toOption.map Chart.pointCounts) =
        some [3, 0, 1] := by cbv
    obtain ⟨chart, built, counts⟩ := exists_build_of_shown shown
    have shape := isWellShaped_of_build_and_summary_of_isAligned.1 (by decide) built
    obtain ⟨ideal, -, j, next, series⟩ := shape.quiet 1 (by rw [counts]; rfl)
    obtain rfl : j = 0 := by omega
    exact ⟨chart, built, counts, shape.aligned, ideal, series "block" (by decide)⟩
  · exact (isWellShaped_of_build_and_summary_of_isAligned.2 (show readBack.isAligned by decide)).2
      "" pausedLog _

end Chart

end InFlight
