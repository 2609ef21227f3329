import InFlight.Proofs.Window.Layout
import Mathlib.Algebra.BigOperators.Group.List.Basic
import Mathlib.Algebra.GroupWithZero.Nat
import Mathlib.Data.List.Sort
/-!
Which windows hold an endpoint. One window does, save for an endpoint on the boundary between two
windows, which lies in both.
-/
namespace InFlight

open Endpoint (InOrder)

/-- The windows of a grid, by number, from whose start to whose finish an instant lies. -/
def windowsAround (edge : Nat → Instant) (count : Nat) (t : Instant) : List Nat :=
  (List.range count).filter fun k => edge k ≤ t ∧ t ≤ edge (k + 1)

def IsInner (edge : Nat → Instant) (count : Nat) (t : Instant) : Prop :=
  ∃ k, 0 < k ∧ k < count ∧ edge k = t

section Around

variable {first last : Instant} {edge : Nat → Instant} {count : Nat} {t : Instant}

theorem mem_windowsAround {k : Nat} :
    k ∈ windowsAround edge count t ↔ k < count ∧ edge k ≤ t ∧ t ≤ edge (k + 1) := by
  simp [windowsAround]

theorem windowsAround_eq {l : List Nat} (increasing : l.Pairwise (· < ·))
    (h : ∀ k, (k < count ∧ edge k ≤ t ∧ t ≤ edge (k + 1)) ↔ k ∈ l) :
    windowsAround edge count t = l :=
  (List.pairwise_lt_range.filter _).eq_of_mem_iff increasing fun k => mem_windowsAround.trans (h k)

theorem windowsAround_inner (g : IsGrid first last edge count) (inner : IsInner edge count t) :
    ∃ i, windowsAround edge count t = [i, i + 1] := by
  obtain ⟨k, positive, within, rfl⟩ := inner
  refine ⟨k - 1, windowsAround_eq (by simp) fun j => ?_⟩
  rw [List.mem_cons, List.mem_singleton, show k - 1 + 1 = k by omega]
  constructor
  · rintro ⟨hj, start, finish⟩
    have upper : j ≤ k := by
      by_contra gt
      exact absurd start (not_le.mpr (g.edge_lt (lt_of_not_ge gt) (by omega)))
    have lower : k ≤ j + 1 := by
      by_contra gt
      exact absurd finish (not_le.mpr (g.edge_lt (lt_of_not_ge gt) (by omega)))
    omega
  · rintro (rfl | rfl)
    · exact ⟨by omega, g.edge_le (by omega) (by omega), g.edge_le (by omega) (by omega)⟩
    · exact ⟨within, le_rfl, g.edge_le (by omega) (by omega)⟩

theorem windowsAround_outer (g : IsGrid first last edge count) (some_window : 0 < count)
    (after : first ≤ t) (before : t ≤ edge count) (outer : ¬ IsInner edge count t) :
    ∃ i, windowsAround edge count t = [i] := by
  rcases lt_or_eq_of_le before with before | rfl
  · obtain ⟨i, hi, start, finish⟩ := g.exists_window after before
    refine ⟨i, windowsAround_eq (List.pairwise_singleton _ _) fun j => ?_⟩
    rw [List.mem_singleton]
    constructor
    · rintro ⟨hj, from_, to_⟩
      have upper : j < i + 1 := g.lt_of_edge_lt (by omega) (lt_of_le_of_lt from_ finish)
      by_contra other
      have reaches : edge (j + 1) ≤ edge i := g.edge_le (by omega) (by omega)
      exact outer ⟨i, by omega, hi, le_antisymm start (le_trans to_ reaches)⟩
    · rintro rfl
      exact ⟨hi, start, le_of_lt finish⟩
  · refine ⟨count - 1, windowsAround_eq (List.pairwise_singleton _ _) fun j => ?_⟩
    rw [List.mem_singleton]
    constructor
    · rintro ⟨hj, -, to_⟩
      by_contra other
      exact absurd to_ (not_le.mpr (g.edge_lt (by omega) le_rfl))
    · rintro rfl
      exact ⟨by omega, g.edge_le (by omega) le_rfl, g.edge_le (by omega) (by omega)⟩

end Around

def Window.Holds (sorted : List Endpoint) (v : Window) (j : Nat) : Prop :=
  Window.low sorted.toArray v.start ≤ j ∧ j < Window.high sorted.toArray v.start v.finish

instance (sorted : List Endpoint) (v : Window) (j : Nat) : Decidable (v.Holds sorted j) :=
  inferInstanceAs (Decidable (_ ∧ _))

namespace Windows

variable {sorted : List Endpoint} {w : Windows}

def holding (w : Windows) (sorted : List Endpoint) (j : Nat) : List Nat :=
  (List.range w.all.length).filter fun k => w.all[k]?.any fun v => v.Holds sorted j

theorem holding_eq_windowsAround (laid : w.IsLaidOver sorted) (order : InOrder sorted) {j : Nat}
    (hj : j < sorted.length) :
    w.holding sorted j = windowsAround w.edge w.count sorted[j].time := by
  unfold holding windowsAround
  rw [laid.length_eq, laid.all_eq]
  apply List.filter_congr
  intro k hk
  have within := List.mem_range.mp hk
  rw [List.getElem?_map, List.getElem?_range within, Option.map_some, Option.any_some,
    decide_eq_decide]
  exact Window.low_le_and_lt_high_iff order _ _ hj

theorem mem_tail_starts_iff (laid : w.IsLaidOver sorted) (t : Instant) :
    t ∈ (w.all.map Window.start).tail ↔ IsInner w.edge w.count t := by
  rw [laid.all_eq, List.map_map, List.mem_iff_getElem?]
  simp only [List.getElem?_tail, List.getElem?_map, Option.map_eq_some_iff,
    List.getElem?_eq_some_iff, List.length_range, List.getElem_range]
  constructor
  · rintro ⟨k, m, ⟨within, rfl⟩, rfl⟩
    exact ⟨k + 1, Nat.succ_pos k, within, rfl⟩
  · rintro ⟨k, positive, within, rfl⟩
    exact ⟨k - 1, k, ⟨by omega, by omega⟩, rfl⟩

theorem sum_map_ite_eq_countP {ι : Type} (q : ι → Bool) (ks : List ι) :
    (ks.map fun k => if q k then 1 else 0).sum = ks.countP q := by
  induction ks with
  | nil => rfl
  | cons k ks ih => rw [List.map_cons, List.sum_cons, ih, List.countP_cons, Nat.add_comm]

/-- Over all windows every endpoint is met once, and once more if it lies on an inner boundary. -/
theorem sum_countP_windows (grid : IsGrid (firstTime sorted) (lastTime sorted) w.edge w.count)
    (some_window : 0 < w.count) (inner : Instant → Bool)
    (isInner : ∀ t, inner t ↔ IsInner w.edge w.count t) (points : List Endpoint)
    (inside : ∀ p ∈ points, firstTime sorted ≤ p.time ∧ p.time ≤ lastTime sorted) :
    ((List.range w.count).map fun k =>
        points.countP fun p => w.edge k ≤ p.time ∧ p.time ≤ w.edge (k + 1)).sum =
      points.length + points.countP fun p => inner p.time := by
  -- over the endpoints, not the windows: each endpoint knows the windows around it
  induction points with
  | nil => simp
  | cons p points ih =>
    obtain ⟨after, before⟩ := inside p List.mem_cons_self
    have rest := ih fun q hq => inside q (List.mem_cons_of_mem p hq)
    have here : (windowsAround w.edge w.count p.time).length =
        1 + if inner p.time then 1 else 0 := by
      by_cases on : inner p.time
      · obtain ⟨i, two⟩ := windowsAround_inner grid ((isInner _).mp on)
        rw [two, if_pos on]
        rfl
      · have outer := fun h => on ((isInner _).mpr h)
        obtain ⟨i, one⟩ :=
          windowsAround_outer grid some_window after (le_trans before grid.last_le_edge) outer
        rw [one, if_neg on]
        rfl
    have met : (List.range w.count).countP (fun k => w.edge k ≤ p.time ∧ p.time ≤ w.edge (k + 1)) =
        (windowsAround w.edge w.count p.time).length := List.countP_eq_length_filter
    simp only [List.countP_cons, List.sum_map_add, rest, sum_map_ite_eq_countP,
      List.length_cons, met, here]
    omega

theorem count_pos (grid : IsGrid (firstTime sorted) (lastTime sorted) w.edge w.count)
    (span : firstTime sorted < lastTime sorted) : 0 < w.count := by
  by_contra none_
  have reach := grid.last_le_edge
  rw [show w.count = 0 by omega, grid.edge_zero] at reach
  exact absurd span (not_lt.mpr reach)

theorem all_ne_nil (laid : w.IsLaidOver sorted) (span : firstTime sorted < lastTime sorted) :
    w.all ≠ [] := by
  intro none_
  have length := laid.length_eq
  have some_window := count_pos laid.grid span
  rw [none_, List.length_nil] at length
  omega

theorem points_eq_slice (laid : w.IsLaidOver sorted) {v : Window} (hv : v ∈ w.all) :
    v.points = (sorted.take (Window.high sorted.toArray v.start v.finish)).drop
      (Window.low sorted.toArray v.start) := by
  rw [laid.all_eq] at hv
  obtain ⟨k, -, rfl⟩ := List.mem_map.mp hv
  rw [window, laid.sorted_eq, List.drop_take]
  simp [Window.select]

theorem inner_iff_tail (laid : w.IsLaidOver sorted) (t : Instant) :
    (∃ v ∈ w.all.tail, v.start = t) ↔ IsInner w.edge w.count t := by
  rw [← mem_tail_starts_iff laid, ← List.map_tail, List.mem_map]

theorem exists_holding_eq_singleton (laid : w.IsLaidOver sorted) (order : InOrder sorted)
    (span : firstTime sorted < lastTime sorted) {j : Nat} (hj : j < sorted.length)
    (off : ∀ v ∈ w.all.tail, v.start ≠ sorted[j].time) : ∃ i, w.holding sorted j = [i] := by
  have member := List.getElem_mem hj
  rw [holding_eq_windowsAround laid order hj]
  apply windowsAround_outer laid.grid (count_pos laid.grid span) (firstTime_le order member)
    (le_trans (le_lastTime order member) laid.grid.last_le_edge)
  rw [← inner_iff_tail laid]
  rintro ⟨v, hv, same⟩
  exact off v hv same

theorem exists_holding_eq_pair (laid : w.IsLaidOver sorted) (order : InOrder sorted) {j : Nat}
    (hj : j < sorted.length) (on : ∃ v ∈ w.all.tail, v.start = sorted[j].time) :
    ∃ i, w.holding sorted j = [i, i + 1] := by
  rw [holding_eq_windowsAround laid order hj]
  exact windowsAround_inner laid.grid ((inner_iff_tail laid _).mp on)

end Windows

end InFlight
