import InFlight.Proofs.Chart.Build
/-!
The running counts of a chart in closed form. What has started less what has finished by the end of
a window is counted once, and an endpoint on a boundary that has been passed is counted once more,
since it lies in the windows on both sides.
-/
namespace InFlight

open Endpoint (balance)
open Windows (IsLaidOver)

section Telescope

variable {sorted : List Endpoint} {w : Windows} {category : String}

/-- Nothing lies before the first window. -/
theorem balance_first_window (laid : w.IsLaidOver sorted) (order : Endpoint.InOrder sorted) :
    balance category (w.window 0).points =
      balance category (sorted.filter fun p => p.time ≤ w.edge 1) := by
  rw [laid.points_eq]
  congr 1
  apply List.filter_congr
  intro p hp
  have start : w.edge 0 ≤ p.time := laid.grid.edge_zero ▸ Windows.firstTime_le order hp
  simp [start]

/-- Window after window the balance moves on to the next boundary, and what lies on the boundary
between is added twice. -/
theorem sum_balance_windows (laid : w.IsLaidOver sorted) (order : Endpoint.InOrder sorted) {i : Nat}
    (hi : i < w.count) :
    ((List.range (i + 1)).map fun k => balance category (w.window k).points).sum =
      balance category (sorted.filter fun p => p.time ≤ w.edge (i + 1)) +
        ∑ k ∈ Finset.Icc 1 i, balance category (sorted.filter fun p => p.time = w.edge k) := by
  induction i with
  | zero => simp [balance_first_window laid order]
  | succ i ih =>
    have rises := le_of_lt (laid.grid.edge_lt_succ (i + 1) hi)
    -- window `i + 1` begins on the boundary that window `i` has counted to its end
    rw [List.range_succ, List.map_append, List.sum_append, ih (by omega),
      Finset.sum_Icc_succ_top (by omega), List.map_singleton, List.sum_singleton, laid.points_eq,
      Endpoint.balance_between rises]
    omega

end Telescope

namespace Chart

variable {α : Type} {events : List Event} {options : ChartOptions} {chart : Chart α}

theorem series_eq_balance {w : Windows} (laid : w.IsLaidOver (Endpoint.ofEvents events))
    (shows : chart.IsOf events w) {c : String} (hc : c ∈ events.map Event.category) :
    chart.series c = some ((List.range w.count).map fun i =>
      balance c ((Endpoint.ofEvents events).filter fun p => p.time ≤ w.edge (i + 1)) +
        ∑ k ∈ Finset.Icc 1 i, balance c ((Endpoint.ofEvents events).filter fun p =>
          p.time = w.edge k)) := by
  rw [shows.series_eq c hc, laid.length_eq, laid.all_eq]
  congr 1
  apply List.map_congr_left
  intro i hi
  have within := List.mem_range.mp hi
  rw [← sum_balance_windows laid (Endpoint.inOrder_ofEvents events) within,
    ← List.map_take, List.map_map, List.take_range, Nat.min_eq_left within]
  rfl

theorem isLeast_firstTime (h : events ≠ []) :
    IsLeast {t | ∃ e ∈ events, t = e.start ∨ t = e.finish}
      (Windows.firstTime (Endpoint.ofEvents events)) := by
  constructor
  · obtain ⟨p, hp, first⟩ := Windows.exists_mem_of_firstTime (Endpoint.ofEvents_ne_nil h)
    obtain ⟨e, he, rfl | rfl⟩ := Endpoint.mem_ofEvents.mp hp
    · exact ⟨e, he, Or.inl first.symm⟩
    · exact ⟨e, he, Or.inr first.symm⟩
  · rintro t ⟨e, he, rfl | rfl⟩
    · exact Windows.firstTime_le (Endpoint.inOrder_ofEvents events)
        (Endpoint.mem_ofEvents.mpr ⟨e, he, Or.inl rfl⟩)
    · exact Windows.firstTime_le (Endpoint.inOrder_ofEvents events)
        (Endpoint.mem_ofEvents.mpr ⟨e, he, Or.inr rfl⟩)

variable [Arithmetic α]

theorem exists_laid_of_build (plain : ∀ e ∈ events, e.IsPlain)
    (h : Chart.build α events options = .ok chart) :
    ∃ w, Windows.forWidth (Endpoint.ofEvents events) options.width = .ok w ∧
      w.IsLaidOver (Endpoint.ofEvents events) ∧ chart.IsOf events w ∧ chart.length = w.count := by
  obtain ⟨w, made, shows⟩ := exists_isOf_of_build h
  have laid := Windows.isLaidOver_ofEvents plain made
  exact ⟨w, made, laid, shows, shows.length_eq.trans laid.length_eq⟩

/-- With boundaries `b 0 < b 1 < …` from the earliest start or finish to the end of the last window,
the count of a category in window `i` is what has started less what has finished by its end `b (i +
1)`, and once more for every start and every finish on the boundaries `b 1, …, b i`. -/
theorem series_eq_prefix_count (plain : ∀ e ∈ events, e.IsPlain)
    (h : Chart.build α events options = .ok chart) :
    ∃ (w : Windows) (b : Nat → Instant),
      Windows.forWidth (Endpoint.ofEvents events) options.width = .ok w ∧
      (w.all.map fun v => (v.start, v.finish)) =
        (List.range chart.length).map (fun k => (b k, b (k + 1))) ∧
      chart.intervals = (List.range chart.length).map b ∧
      IsLeast {t | ∃ e ∈ events, t = e.start ∨ t = e.finish} (b 0) ∧
      (∀ k < chart.length, b k < b (k + 1)) ∧
      ∀ c ∈ events.map Event.category,
        chart.series c = some ((List.range chart.length).map fun i =>
          (Event.starts events c (· ≤ b (i + 1)) : Int) - Event.finishes events c (· ≤ b (i + 1)) +
            ∑ k ∈ Finset.Icc 1 i,
              ((Event.starts events c (· = b k) : Int) - Event.finishes events c (· = b k))) := by
  obtain ⟨w, made, laid, shows, length⟩ := exists_laid_of_build plain h
  have some_event := (build_eq_ok_iff.mp h).1
  refine ⟨w, w.edge, made, ?_, ?_, ?_, ?_, ?_⟩
  · rw [laid.all_eq, List.map_map, length]
    rfl
  · rw [shows.intervals_eq, laid.all_eq, List.map_map, length]
    rfl
  · rw [laid.grid.edge_zero]
    exact isLeast_firstTime some_event
  · rw [length]
    exact laid.grid.edge_lt_succ
  · intro c hc
    rw [series_eq_balance laid shows hc, length]
    simp only [← Endpoint.balance_ofEvents]

def touchingLog : List Event :=
  [⟨"org", "peer", "block", 10, .ofNanos 0, .ofNanos 100, 5, 0, 1⟩,
   ⟨"org", "peer", "nonce", 10, .ofNanos 20, .ofNanos 50, 5, 0, 2⟩,
   ⟨"org", "peer", "block", 10, .ofNanos 50, .ofNanos 70, 5, 0, 3⟩]

theorem series_eq_prefix_count_touching :
    (∀ e ∈ touchingLog, e.IsPlain) ∧
    ∃ (chart : Chart Rat) (b : Nat → Instant),
      Chart.build Rat touchingLog ⟨.fixed 50, .firstEvent⟩ = .ok chart ∧
      chart.intervals = [b 0, b 1] ∧ b 0 = .ofNanos 0 ∧ b 1 < b 2 ∧
      chart.series "block" = some [2, 1] ∧
      chart.series "block" = some
        [(Event.starts touchingLog "block" (· ≤ b 1) : Int) -
          Event.finishes touchingLog "block" (· ≤ b 1),
          (Event.starts touchingLog "block" (· ≤ b 2) : Int) -
          Event.finishes touchingLog "block" (· ≤ b 2) +
            ((Event.starts touchingLog "block" (· = b 1) : Int) -
              Event.finishes touchingLog "block" (· = b 1))] := by
  have plain : ∀ e ∈ touchingLog, e.IsPlain := by decide
  have shown : ((Chart.build Rat touchingLog ⟨.fixed 50, .firstEvent⟩).toOption.map fun c =>
      (c.intervals, c.series "block")) = some ([.ofNanos 0, .ofNanos 50], some [2, 1]) := by cbv
  cases built : Chart.build Rat touchingLog ⟨.fixed 50, .firstEvent⟩ with
  | error e => simp [built, Except.toOption] at shown
  | ok chart =>
    simp only [built, Except.toOption, Option.map_some, Option.some.injEq, Prod.mk.injEq] at shown
    obtain ⟨intervals, series⟩ := shown
    obtain ⟨w, b, -, -, starts, -, rises, counted⟩ := series_eq_prefix_count plain built
    have length : chart.length = 2 := by rw [Chart.length, intervals]; rfl
    have bounds : chart.intervals = [b 0, b 1] := by rw [starts, length]; rfl
    have sums := counted "block" (by decide)
    rw [length] at sums rises
    refine ⟨plain, chart, b, rfl, bounds, ?_, rises 1 (by decide), series, ?_⟩
    · rw [intervals] at bounds
      exact (List.cons.inj bounds).1.symm
    · rw [sums]
      simp [List.range_succ]

end Chart

end InFlight
