import InFlight.Proofs.Chart.Build
import InFlight.Proofs.Window.Divisions
/-!
A span divided without a rest. Divisions of it are windows of one fixed width: the shares fall on
the multiples of the width, and steps of the width stop on the last endpoint after as many of them.
-/
namespace InFlight

open Instant (ofNanos)

namespace Windows

variable {sorted : List Endpoint} {v w : Windows}

/-- Layouts with the same boundaries have the same windows. -/
theorem all_eq_of_edge_eq (laidV : v.IsLaidOver sorted) (laidW : w.IsLaidOver sorted)
    (count : v.count = w.count) (edges : ∀ k ≤ v.count, v.edge k = w.edge k) : v.all = w.all := by
  rw [laidV.all_eq, laidW.all_eq, ← count]
  apply List.map_congr_left
  intro k hk
  have within := List.mem_range.mp hk
  rw [window, window, edges k (by omega), edges (k + 1) (by omega), laidV.sorted_eq,
    laidW.sorted_eq]

/-- Up to the whole span no multiple of the width leaves the calendar. -/
theorem boundary_eq_plusWithin {f span : Int} {n k : Nat} (start : Instant.first.toNanos ≤ f)
    (finish : f + span ≤ Instant.last.toNanos) (positive : 0 < span) (divides : (n : Int) ∣ span)
    (hk : k ≤ n) :
    boundary (ofNanos f) span n k = (ofNanos f).plusWithin (k * (span / n)) := by
  have width : 0 ≤ span / n := Int.ediv_nonneg (by omega) (Int.natCast_nonneg n)
  have most : (k : Int) * (span / n) ≤ n * (span / n) :=
    Int.mul_le_mul_of_nonneg_right (Int.ofNat_le.mpr hk) width
  rw [Int.mul_ediv_cancel' divides] at most
  rw [boundary, Instant.plus_ofNanos, Int.mul_ediv_assoc _ divides,
    Instant.plusWithin_ofNanos start (Int.mul_nonneg (Int.natCast_nonneg k) width),
    min_eq_left (by omega)]

theorem forWidth_divisions_and_fixed {n : Nat} (order : Endpoint.InOrder sorted)
    (plain : ∀ p ∈ sorted, p.time.IsPlain) (few : n ≤ Width.mostDivisions) (some_division : 1 ≤ n)
    (positive : 0 < spanOf sorted) (fits : spanOf sorted ≤ Word.most64)
    (divides : (n : Int) ∣ spanOf sorted) :
    ∃ v w, forWidth sorted (.divisions n) = .ok v ∧
      forWidth sorted (.fixed (spanOf sorted / n)) = .ok w ∧
      v.all = w.all := by
  have enough := Int.le_of_dvd positive divides
  have wide : 0 < spanOf sorted / n :=
    Int.ediv_pos_of_pos_of_dvd positive (Int.natCast_nonneg n) divides
  have whole : n * (spanOf sorted / n) = spanOf sorted := Int.mul_ediv_cancel' divides
  have word : Span.fitsWord (spanOf sorted) := by
    rw [Span.fitsWord, decide_eq_true_iff]
    constructor
    · simp only [Word.least64]
      omega
    · exact fits
  obtain ⟨v, madeV, steppingV⟩ := exists_forWidth_divided some_division few enough word
  obtain ⟨w, madeW, steppingW⟩ := exists_forWidth_fixed sorted wide
  refine ⟨v, w, madeV, madeW, ?_⟩
  obtain ⟨f, firstEq, -, start, finish⟩ := exists_nanos_of_spanOf plain
  have firstW := first_eq_of_forWidth madeW
  apply all_eq_of_edge_eq (isLaidOver_of_forWidth order plain madeV)
    (isLaidOver_of_forWidth order plain madeW)
  · rw [count_of_divided steppingV, count_of_fixed firstW steppingW (last_eq_of_forWidth madeW)]
    exact ((ceil_eq_iff wide some_division (le_of_eq whole)).mpr whole).symm
  · intro k hk
    rw [count_of_divided steppingV] at hk
    rw [edge_of_divided steppingV, first_eq_of_forWidth madeV, edge, steppingW, firstW, firstEq]
    exact boundary_eq_plusWithin start finish positive divides hk

end Windows

namespace Chart

variable {α : Type} [Arithmetic α] {events : List Event}

theorem build_eq_of_all_eq {v w : Windows} {width other : Width} (rate : RatePolicy)
    (some_event : events ≠ []) (madeV : Windows.forWidth (Endpoint.ofEvents events) width = .ok v)
    (madeW : Windows.forWidth (Endpoint.ofEvents events) other = .ok w) (endsV : v.Ends)
    (endsW : w.Ends) (same : v.all = w.all) :
    build α events ⟨width, rate⟩ = build α events ⟨other, rate⟩ := by
  rw [build_of_ends some_event madeV endsV, build_of_ends some_event madeW endsW]
  simp only [ofWindows, same]

/-- Where a number of windows divides the span, so many divisions and the width of one of them give
one result: the same chart in every series, or the same refusal of a rate. -/
theorem build_divisions_eq_build_fixed {n : Nat} (rate : RatePolicy)
    (plain : ∀ e ∈ events, e.IsPlain) (some_division : 1 ≤ n) (few : n ≤ Width.mostDivisions)
    (positive : 0 < Windows.spanOf (Endpoint.ofEvents events))
    (fits : Windows.spanOf (Endpoint.ofEvents events) ≤ Word.most64)
    (divides : (n : Int) ∣ Windows.spanOf (Endpoint.ofEvents events)) :
    build α events ⟨.divisions n, rate⟩ =
      build α events ⟨.fixed (Windows.spanOf (Endpoint.ofEvents events) / n), rate⟩ := by
  have some_event : events ≠ [] := by
    rintro rfl
    rw [Endpoint.ofEvents_nil] at positive
    exact absurd positive (by decide)
  obtain ⟨v, w, madeV, madeW, same⟩ :=
    Windows.forWidth_divisions_and_fixed (Endpoint.inOrder_ofEvents events)
    (Endpoint.plain_ofEvents plain) few some_division positive fits divides
  exact build_eq_of_all_eq rate some_event madeV madeW (Windows.ends_ofEvents plain madeV)
    (Windows.ends_ofEvents plain madeW) same

/-- Transfers over 120 nanoseconds, one of which starts on the boundary of two thirds. -/
def thirdsLog : List Event :=
  [⟨"org", "peer", "block", 10, .ofNanos 0, .ofNanos 120, 5, 0, 1⟩,
   ⟨"org", "peer", "nonce", 30, .ofNanos 40, .ofNanos 70, 5, 0, 2⟩]

theorem build_divisions_eq_build_fixed_thirds :
    ∃ chart, build Rat thirdsLog ⟨.divisions 3, .perEvent⟩ = .ok chart ∧
      build Rat thirdsLog ⟨.fixed 40, .perEvent⟩ = .ok chart ∧ chart.pointCounts = [2, 2, 1] := by
  have span : Windows.spanOf (Endpoint.ofEvents thirdsLog) = 120 := by cbv
  have same : build Rat thirdsLog ⟨.divisions 3, .perEvent⟩ =
      build Rat thirdsLog ⟨.fixed (Windows.spanOf (Endpoint.ofEvents thirdsLog) / (3 : Nat)),
        .perEvent⟩ :=
    build_divisions_eq_build_fixed .perEvent (by decide) (by decide) (by decide)
      (by rw [span]; decide) (by rw [span]; decide) (by rw [span]; decide)
  rw [span] at same
  have shown : ((build Rat thirdsLog ⟨.divisions 3, .perEvent⟩).toOption.map Chart.pointCounts) =
      some [2, 2, 1] := by cbv
  obtain ⟨chart, built, counts⟩ := exists_build_of_shown shown
  exact ⟨chart, built, same.symm.trans built, counts⟩

end Chart

end InFlight
