import InFlight.Proofs.Chart.Build
import InFlight.Proofs.Window.Sharing
/-!
The endpoint counts of a chart. Every endpoint is counted in one window, and in two if it lies on
the boundary between them.
-/
namespace InFlight

open Endpoint (InOrder)
open Windows

theorem Chart.sum_pointCounts {α : Type} {events : List Event} {chart : Chart α} {w : Windows}
    (laid : w.IsLaidOver (Endpoint.ofEvents events)) (shows : chart.IsOf events w)
    (span : firstTime (Endpoint.ofEvents events) < lastTime (Endpoint.ofEvents events)) :
    chart.pointCounts.sum = 2 * events.length +
      (Endpoint.ofEvents events).countP fun p => p.time ∈ chart.intervals.tail := by
  have order := Endpoint.inOrder_ofEvents events
  have total := sum_countP_windows laid.grid (count_pos laid.grid span)
    (fun t => decide (t ∈ chart.intervals.tail))
    (fun t => by rw [decide_eq_true_iff, shows.intervals_eq, mem_tail_starts_iff laid])
    (Endpoint.ofEvents events) (fun p hp => ⟨firstTime_le order hp, le_lastTime order hp⟩)
  rw [← Endpoint.length_ofEvents, ← total, shows.pointCounts_eq, laid.all_eq, List.map_map]
  congr 1
  apply List.map_congr_left
  intro k _
  rw [Function.comp_apply, laid.points_eq, List.countP_eq_length_filter]

/-- Every endpoint lies in the slice of one window, or of two neighbours when it lies on the start
of a window other than the first; so the endpoint counts of a chart add up to two for each event and
one for each endpoint on an inner boundary. -/
theorem endpoint_in_one_window_or_two :
    (∀ {sorted : List Endpoint} {width : Width} {resolved : Int}, InOrder sorted →
      (∀ p ∈ sorted, p.time.IsPlain) → firstTime sorted < lastTime sorted →
      width.resolve (spanOf sorted) = .ok resolved →
      ∃ w, forWidth sorted width = .ok w ∧
        (∀ v ∈ w.all, v.points = (sorted.take (Window.high sorted.toArray v.start v.finish)).drop
          (Window.low sorted.toArray v.start)) ∧
        ∀ j (hj : j < sorted.length),
          ((∀ v ∈ w.all.tail, v.start ≠ sorted[j].time) → ∃ i, w.holding sorted j = [i]) ∧
          ((∃ v ∈ w.all.tail, v.start = sorted[j].time) → ∃ i, w.holding sorted j = [i, i + 1])) ∧
    ∀ {α : Type} [Arithmetic α] {events : List Event} {options : ChartOptions} {chart : Chart α},
      (∀ e ∈ events, e.IsPlain) →
      firstTime (Endpoint.ofEvents events) < lastTime (Endpoint.ofEvents events) →
      Chart.build α events options = .ok chart →
      chart.pointCounts.sum = 2 * events.length +
        (Endpoint.ofEvents events).countP fun p => p.time ∈ chart.intervals.tail := by
  constructor
  · intro sorted width resolved order plain span resolves
    have made := forWidth_eq_ok_iff.mpr ⟨resolved, resolves, rfl⟩
    have laid := isLaidOver_of_forWidth order plain made
    exact ⟨_, made, fun v hv => points_eq_slice laid hv, fun j hj =>
      ⟨exists_holding_eq_singleton laid order span hj, exists_holding_eq_pair laid order hj⟩⟩
  · intro α _ events options chart plain span built
    obtain ⟨w, made, shows⟩ := Chart.exists_isOf_of_build built
    have laid := isLaidOver_of_forWidth (Endpoint.inOrder_ofEvents events)
      (Endpoint.plain_ofEvents plain) made
    exact Chart.sum_pointCounts laid shows span

/-- Two transfers, the one beginning where the other ends and the second window begins. -/
def handoverLog : List Event :=
  [⟨"org", "peer", "block", 10, .ofNanos 0, .ofNanos 50, 5, 0, 1⟩,
   ⟨"org", "peer", "nonce", 10, .ofNanos 50, .ofNanos 120, 5, 0, 2⟩]

theorem endpoint_in_two_windows_handover :
    (∃ w, forWidth (handoverLog.flatMap Event.endpoints) (.fixed 50) = .ok w ∧
      w.all.map Window.start = [.ofNanos 0, .ofNanos 50, .ofNanos 100] ∧
      (∃ i, w.holding (handoverLog.flatMap Event.endpoints) 0 = [i]) ∧
      ∃ i, w.holding (handoverLog.flatMap Event.endpoints) 1 = [i, i + 1]) ∧
    ∃ chart, Chart.build Rat handoverLog ⟨.fixed 50, .perEvent⟩ = .ok chart ∧
      chart.pointCounts.sum = 2 * 2 + 2 := by
  have plain : ∀ e ∈ handoverLog, e.IsPlain := by decide
  constructor
  · obtain ⟨w, made, -, places⟩ := endpoint_in_one_window_or_two.1
      (show InOrder (handoverLog.flatMap Event.endpoints) by decide) (by decide) (by decide)
      (show (Width.fixed 50).resolve _ = .ok 50 from rfl)
    have starts : w.all.map Window.start = [.ofNanos 0, .ofNanos 50, .ofNanos 100] := by
      obtain rfl := Except.ok.inj made
      decide +kernel
    have tail : w.all.tail.map Window.start = [.ofNanos 50, .ofNanos 100] := by
      rw [List.map_tail, starts]
      rfl
    refine ⟨w, made, starts, (places 0 (by decide)).1 ?_, (places 1 (by decide)).2 ?_⟩
    · intro v hv
      have apart : ∀ t ∈ w.all.tail.map Window.start, t ≠ .ofNanos 0 := by
        rw [tail]
        decide
      exact apart v.start (List.mem_map_of_mem hv)
    · apply List.mem_map.mp
      rw [tail]
      decide
  · have shown : ((Chart.build Rat handoverLog ⟨.fixed 50, .perEvent⟩).toOption.map fun c =>
        (Endpoint.ofEvents handoverLog).countP fun p => p.time ∈ c.intervals.tail) =
          some 2 := by cbv
    cases built : Chart.build Rat handoverLog ⟨.fixed 50, .perEvent⟩ with
    | error e => simp [built, Except.toOption] at shown
    | ok chart =>
      have span : firstTime (Endpoint.ofEvents handoverLog) <
          lastTime (Endpoint.ofEvents handoverLog) := by
        cbv
      have sum := endpoint_in_one_window_or_two.2 plain span built
      simp only [built, Except.toOption, Option.map_some, Option.some.injEq] at shown
      rw [shown] at sum
      exact ⟨chart, rfl, sum⟩

end InFlight
