import InFlight.Proofs.Chart.PrefixCount
import InFlight.Proofs.Summary
import InFlight.Proofs.Window.Sharing
/-!
Running counts as transfers in flight. When no transfer finishes before it starts and nothing lies
on an inner boundary, what has started less what has finished is what is in flight at the end of the
window.
-/
namespace InFlight

open Endpoint (balance)
open Windows (IsLaidOver)

namespace Event

variable {events : List Event} {category : String} {t : Instant}

/-- How many events of a category have started and not yet finished. -/
def inFlight (events : List Event) (category : String) (t : Instant) : Nat :=
  events.countP fun e => e.category = category && (e.start ≤ t && t < e.finish)

theorem inFlight_add_finishes (wellFormed : ∀ e ∈ events, e.start ≤ e.finish) :
    inFlight events category t + finishes events category (· ≤ t) =
      starts events category (· ≤ t) := by
  simp only [inFlight, finishes, starts]
  induction events with
  | nil => rfl
  | cons e events ih =>
    have rest := ih fun e he => wellFormed e (List.mem_cons_of_mem _ he)
    have rises := wellFormed e List.mem_cons_self
    simp only [List.countP_cons, Bool.and_eq_true, decide_eq_true_eq]
    by_cases same : e.category = category
    · by_cases finished : e.finish ≤ t
      · have started : e.start ≤ t := le_trans rises finished
        simp only [same, finished, started, not_lt.mpr finished, and_false, and_self,
          if_true, if_false]
        omega
      · by_cases started : e.start ≤ t
        · simp only [same, finished, started, lt_of_not_ge finished, and_false, and_self,
            if_true, if_false]
          omega
        · simp only [finished, started, false_and, and_false, if_false]
          omega
    · simp only [same, false_and, if_false]
      omega

theorem inFlight_le (events : List Event) (category : String) (t : Instant) :
    inFlight events category t ≤ events.countP fun e => e.category = category := by
  apply List.countP_mono_left
  intro e _ within
  exact (Bool.and_eq_true_iff.mp within).1

theorem inFlight_eq_zero (finished : ∀ e ∈ events, e.finish ≤ t) :
    inFlight events category t = 0 := by
  apply List.countP_eq_zero.mpr
  intro e he within
  simp only [Bool.and_eq_true, decide_eq_true_eq] at within
  exact absurd within.2.2 (not_lt.mpr (finished e he))

end Event

namespace Chart

variable {events : List Event} {w : Windows}

def OffBoundaries (events : List Event) (w : Windows) : Prop :=
  ∀ v ∈ w.all.tail, ∀ e ∈ events, e.start ≠ v.start ∧ e.finish ≠ v.start

theorem filter_boundary_eq_nil (laid : w.IsLaidOver (Endpoint.ofEvents events))
    (off : OffBoundaries events w) {k : Nat} (positive : 0 < k) (within : k < w.count) :
    (Endpoint.ofEvents events).filter (fun p => p.time = w.edge k) = [] := by
  obtain ⟨v, hv, start⟩ := (Windows.inner_iff_tail laid (w.edge k)).mpr ⟨k, positive, within, rfl⟩
  rw [List.filter_eq_nil_iff]
  intro p hp on
  have time := (decide_eq_true_iff.mp on).trans start.symm
  obtain ⟨e, he, rfl | rfl⟩ := Endpoint.mem_ofEvents.mp hp
  · exact (off v hv e he).1 time
  · exact (off v hv e he).2 time

/-- The extra contributions vanish, and starts less finishes are in flight. -/
theorem series_eq_map_inFlight {α : Type} {chart : Chart α} {c : String}
    (laid : w.IsLaidOver (Endpoint.ofEvents events)) (shows : chart.IsOf events w)
    (wellFormed : ∀ e ∈ events, e.start ≤ e.finish) (off : OffBoundaries events w)
    (hc : c ∈ events.map Event.category) :
    chart.series c = some (w.all.map fun v => (Event.inFlight events c v.finish : Int)) := by
  rw [series_eq_balance laid shows hc, laid.all_eq, List.map_map]
  congr 1
  apply List.map_congr_left
  intro i hi
  have within := List.mem_range.mp hi
  have inner : ∑ k ∈ Finset.Icc 1 i,
      balance c ((Endpoint.ofEvents events).filter fun p => p.time = w.edge k) = 0 := by
    apply Finset.sum_eq_zero
    intro k hk
    obtain ⟨positive, le⟩ := Finset.mem_Icc.mp hk
    rw [filter_boundary_eq_nil laid off positive (by omega), Endpoint.balance_nil]
  have counted : Event.inFlight events c (w.edge (i + 1)) +
      Event.finishes events c (· ≤ w.edge (i + 1)) =
      Event.starts events c (· ≤ w.edge (i + 1)) := Event.inFlight_add_finishes wellFormed
  rw [inner, Endpoint.balance_ofEvents (fun t => decide (t ≤ w.edge (i + 1)))]
  -- the window ends on this boundary by definition
  change _ = (Event.inFlight events c (w.edge (i + 1)) : Int)
  omega

/-- The last window reaches the last finish. -/
theorem getLast?_map_inFlight (laid : w.IsLaidOver (Endpoint.ofEvents events))
    (span : Windows.firstTime (Endpoint.ofEvents events) <
      Windows.lastTime (Endpoint.ofEvents events)) (c : String) :
      (w.all.map fun v => (Event.inFlight events c v.finish : Int)).getLast? = some 0 := by
  have finish := laid.getLast?_finish (Windows.count_pos laid.grid span)
  obtain ⟨v, last, reach⟩ := Option.map_eq_some_iff.mp finish
  have none_left : Event.inFlight events c v.finish = 0 := by
    apply Event.inFlight_eq_zero
    intro e he
    rw [reach]
    exact le_trans (Windows.le_lastTime (Endpoint.inOrder_ofEvents events)
      (Endpoint.mem_ofEvents.mpr ⟨e, he, Or.inr rfl⟩)) laid.grid.last_le_edge
  rw [List.getLast?_map, last, Option.map_some, none_left]
  rfl

theorem isGreatest_peak {chart : Chart Float} {total : CategoryTotal} (some_window : w.all ≠ [])
    (series : ∀ c ∈ events.map Event.category,
      chart.series c = some (w.all.map fun v => (Event.inFlight events c v.finish : Int)))
    (ht : total ∈ Summary.categoryTotals events chart) :
    IsGreatest {n : Int | ∃ v ∈ w.all, n = Event.inFlight events total.category v.finish}
    total.peak := by
  obtain ⟨hc, peak⟩ := Summary.category_and_peak_of_mem ht
  have nonempty : w.all.map (fun v => (Event.inFlight events total.category v.finish : Int)) ≠ [] :=
    fun none_ => some_window (List.map_eq_nil_iff.mp none_)
  have greatest := Summary.isGreatest_peakOf nonempty
  rw [peak, series _ hc, Option.getD_some]
  simpa only [List.mem_map, eq_comm] using greatest

/-- The windows of the chart end at `v.finish`. A log with an accepted rate and an accepted width,
whose transfers finish no earlier than they start and off the boundaries between windows, has a
chart of its transfers in flight at those ends, and a summary of their peaks. -/
theorem series_and_peak_eq_inFlight (options : ChartOptions) {nominal : NominalRate}
    (plain : ∀ e ∈ events, e.IsPlain) (wellFormed : ∀ e ∈ events, e.start ≤ e.finish)
    (span : Windows.firstTime (Endpoint.ofEvents events) <
      Windows.lastTime (Endpoint.ofEvents events)) (rate :
      nominalRate events options.rate = .ok nominal) (accepted :
      Windows.forWidth (Endpoint.ofEvents events) options.width = .ok w) (off :
      OffBoundaries events w) (timestamp : String) :
    ∃ (chart : Chart Float) (summary : Summary), build Float events options = .ok chart ∧
      Summary.of? timestamp events chart options.width = some summary ∧
      chart.intervals = w.all.map Window.start ∧ chart.intervals ≠ [] ∧
      (∀ c ∈ events.map Event.category, ∃ series, chart.series c = some series ∧
        series = w.all.map (fun v => (Event.inFlight events c v.finish : Int)) ∧
        (∀ n ∈ series, 0 ≤ n ∧ n ≤ events.countP fun e => e.category = c) ∧
        series.getLast? = some 0) ∧
      (∀ c ∈ events.map Event.category, ∃ total ∈ summary.categories, total.category = c) ∧
      ∀ total ∈ summary.categories, total.category ∈ events.map Event.category ∧
        IsGreatest {n : Int | ∃ v ∈ w.all, n = Event.inFlight events total.category v.finish}
        total.peak := by
  have some_event : events ≠ [] := by
    rintro rfl
    have none_ : Endpoint.ofEvents [] = [] := List.mergeSort_nil
    rw [none_] at span
    exact absurd span (lt_irrefl _)
  obtain ⟨chart, built⟩ : ∃ chart, build Float events options = .ok chart :=
    ⟨_, build_eq_ok_iff.mpr ⟨some_event, nominal, w, rate, accepted,
      Windows.ends_ofEvents plain accepted, rfl⟩⟩
  obtain ⟨summary, summed⟩ := Option.isSome_iff_exists.mp
    (Summary.isSome_of? (coversActive_of_build built) timestamp events options.width)
  obtain ⟨w', same, laid, shows, -⟩ := exists_laid_of_build plain built
  obtain rfl := Except.ok.inj (accepted.symm.trans same)
  have some_window := Windows.all_ne_nil laid span
  have series := fun c hc => series_eq_map_inFlight (c := c) laid shows wellFormed off hc
  have totals := Summary.categories_of_of? summed
  refine ⟨chart, summary, built, summed, shows.intervals_eq, ?_, ?_, ?_, ?_⟩
  · rw [shows.intervals_eq]
    exact fun none_ => some_window (List.map_eq_nil_iff.mp none_)
  · intro c hc
    refine ⟨_, series c hc, rfl, ?_, getLast?_map_inFlight laid span c⟩
    intro n hn
    obtain ⟨v, -, rfl⟩ := List.mem_map.mp hn
    exact ⟨Int.natCast_nonneg _, Int.ofNat_le.mpr (Event.inFlight_le events c v.finish)⟩
  · rw [totals]
    exact fun c hc => Summary.exists_total hc
  · rw [totals]
    exact fun total ht => ⟨(Summary.category_and_peak_of_mem ht).1,
      isGreatest_peak some_window series ht⟩

def staggeredLog : List Event :=
  [⟨"org", "peer", "block", 10, .ofNanos 0, .ofNanos 70, 5, 0, 1⟩,
   ⟨"org", "peer", "block", 10, .ofNanos 30, .ofNanos 110, 5, 0, 2⟩,
   ⟨"org", "peer", "nonce", 10, .ofNanos 20, .ofNanos 45, 5, 0, 3⟩,
   ⟨"org", "peer", "block", 10, .ofNanos 120, .ofNanos 130, 5, 0, 4⟩]

theorem series_and_peak_eq_inFlight_staggered :
    ∃ (chart : Chart Float) (summary : Summary),
      build Float staggeredLog ⟨.fixed 50, .perEvent⟩ = .ok chart ∧
      Summary.of? "" staggeredLog chart (.fixed 50) = some summary ∧
      chart.series "block" = some [2, 1, 0] ∧
      ∃ total ∈ summary.categories, total.category = "block" ∧ total.peak = 2 := by
  have shown :
      ((Windows.forWidth (Endpoint.ofEvents staggeredLog) (.fixed 50)).toOption.map fun w =>
          (w.all.map Window.finish, w.all.tail.map Window.start)) =
        some ([.ofNanos 50, .ofNanos 100, .ofNanos 150], [.ofNanos 50, .ofNanos 100]) := by cbv
  cases accepted : Windows.forWidth (Endpoint.ofEvents staggeredLog) (.fixed 50) with
  | error e => simp [accepted, Except.toOption] at shown
  | ok w =>
    simp only [accepted, Except.toOption, Option.map_some, Option.some.injEq,
      Prod.mk.injEq] at shown
    obtain ⟨finishes, starts⟩ := shown
    have off : OffBoundaries staggeredLog w := by
      have apart : ∀ t ∈ w.all.tail.map Window.start, ∀ e ∈ staggeredLog,
          e.start ≠ t ∧ e.finish ≠ t := by
        rw [starts]
        decide
      exact fun v hv => apart v.start (List.mem_map_of_mem hv)
    have rate : nominalRate staggeredLog .perEvent = .ok .perEvent := rfl
    obtain ⟨chart, summary, built, summed, -, -, counts, totals, peaks⟩ :=
      series_and_peak_eq_inFlight ⟨.fixed 50, .perEvent⟩ (by decide) (by decide)
        (by cbv) rate accepted off ""
    have counted : w.all.map (fun v => (Event.inFlight staggeredLog "block" v.finish : Int)) =
        [2, 1, 0] := by
      have mapped :=
        congrArg (List.map fun t => (Event.inFlight staggeredLog "block" t : Int)) finishes
      rw [List.map_map] at mapped
      exact mapped
    refine ⟨chart, summary, built, summed, ?_, ?_⟩
    · obtain ⟨series, held, eq, -, -⟩ := counts "block" (by decide)
      rw [held, eq, counted]
    · obtain ⟨total, ht, name⟩ := totals "block" (by decide)
      obtain ⟨-, greatest⟩ := peaks total ht
      rw [name] at greatest
      refine ⟨total, ht, name, greatest.unique ?_⟩
      have same : {n : Int | ∃ v ∈ w.all, n = Event.inFlight staggeredLog "block" v.finish} =
          {n | n ∈ [2, 1, 0]} := by
        rw [← counted]
        simp only [List.mem_map, eq_comm]
      rw [same]
      exact Summary.isGreatest_peakOf (show [2, 1, 0] ≠ [] by decide)

end Chart

end InFlight
