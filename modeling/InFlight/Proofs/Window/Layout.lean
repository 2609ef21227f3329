import InFlight.Proofs.Window.Grid
import InFlight.Proofs.Window.Slice
import Mathlib.Data.List.TakeWhile
/-!
The windows laid over endpoints in order of time: one between each two boundaries, with the
endpoints that lie from the one to the other.
-/
namespace InFlight

open Endpoint (InOrder)
open Instant (ofNanos)

theorem Width.pos_of_resolve {width : Width} {span resolved : Int}
    (h : width.resolve span = .ok resolved) : 0 < resolved := by
  unfold Width.resolve at h
  cases width with
  | fixed w =>
    dsimp only at h
    by_cases positive : w ≤ 0
    · rw [if_pos positive] at h
      cases h
    · rw [if_neg positive] at h
      cases h
      omega
  | divisions n =>
    dsimp only at h
    by_cases zero : n = 0
    · rw [if_pos zero] at h
      cases h
    · rw [if_neg zero] at h
      by_cases many : Width.mostDivisions < n
      · rw [if_pos many] at h
        cases h
      · rw [if_neg many] at h
        cases h
        omega

theorem Width.resolve_divisions {n : Nat} (span : Int) (positive : 0 < n)
    (few : n ≤ Width.mostDivisions) :
    (Width.divisions n).resolve span = .ok (max (Span.dividedBy span n) 1) := by
  unfold Width.resolve
  dsimp only
  rw [if_neg (by omega), if_neg (by omega)]

namespace Windows

variable {sorted : List Endpoint} {width : Width} {w : Windows}

def window (w : Windows) (k : Nat) : Window :=
  ⟨w.edge k, w.edge (k + 1), Window.select w.sorted (w.edge k) (w.edge (k + 1))⟩

theorem forWidth_eq_ok_iff : forWidth sorted width = .ok w ↔
    ∃ resolved, width.resolve (spanOf sorted) = .ok resolved ∧
      w = ⟨sorted.toArray, firstTime sorted, lastTime sorted,
        steppingFor width (spanOf sorted) resolved⟩ := by
  unfold forWidth
  cases ok : width.resolve (spanOf sorted) with
  | error e => simp [ok, bind, Except.bind]
  | ok resolved => simp [ok, bind, Except.bind, pure, Except.pure, eq_comm]

theorem exists_forWidth_fixed (sorted : List Endpoint) {step : Int} (positive : 0 < step) :
    ∃ w, forWidth sorted (.fixed step) = .ok w ∧ w.stepping = .fixed step := by
  have resolved : (Width.fixed step).resolve (spanOf sorted) = .ok step :=
    if_neg (not_le.mpr positive)
  exact ⟨_, forWidth_eq_ok_iff.mpr ⟨step, resolved, rfl⟩, rfl⟩

theorem exists_forWidth_divided {n : Nat} (positive : 1 ≤ n) (few : n ≤ Width.mostDivisions)
    (enough : (n : Int) ≤ spanOf sorted) (fits : Span.fitsWord (spanOf sorted)) :
    ∃ w, forWidth sorted (.divisions n) = .ok w ∧ w.stepping = .divided n (spanOf sorted) :=
  ⟨_, forWidth_eq_ok_iff.mpr ⟨_, Width.resolve_divisions (spanOf sorted) positive few, rfl⟩,
    if_pos ⟨fits, enough⟩⟩

theorem fits_of_forWidth (h : forWidth sorted width = .ok w) : w.Fits := by
  obtain ⟨resolved, ok, rfl⟩ := forWidth_eq_ok_iff.mp h
  have positive := Width.pos_of_resolve ok
  unfold Fits steppingFor
  cases width with
  | fixed _ => exact positive
  | divisions n =>
    dsimp only
    by_cases exact_ : Span.fitsWord (spanOf sorted) ∧ (n : Int) ≤ spanOf sorted
    · rw [if_pos exact_]
      refine ⟨?_, exact_.2, rfl⟩
      by_contra zero
      obtain rfl : n = 0 := by omega
      simp [Width.resolve] at ok
    · rw [if_neg exact_]
      exact positive

/-- Windows hold no endpoints but those they are laid over. -/
theorem mem_of_mem_points (h : forWidth sorted width = .ok w) {v : Window} (hv : v ∈ w.all)
    {p : Endpoint} (hp : p ∈ v.points) : p ∈ sorted := by
  obtain ⟨step, -, rfl⟩ := forWidth_eq_ok_iff.mp h
  obtain ⟨bounds, -, rfl⟩ := List.mem_map.mp hv
  exact Window.mem_of_mem_select hp

/-- A window holds all endpoints from its start to its finish, whatever the clock reads. -/
theorem points_eq_filter (order : InOrder sorted) (h : forWidth sorted width = .ok w) {v : Window}
    (hv : v ∈ w.all) :
    v.points = sorted.filter fun p => v.start ≤ p.time ∧ p.time ≤ v.finish := by
  obtain ⟨step, -, rfl⟩ := forWidth_eq_ok_iff.mp h
  obtain ⟨bounds, -, rfl⟩ := List.mem_map.mp hv
  exact Window.select_eq_filter order _ _

theorem fixedBounds_eq_map {last : Instant} {width : Int} {edge : Nat → Instant} {count : Nat}
    (step : ∀ k, (edge k).plusWithin width = edge (k + 1)) (before : ∀ k < count, edge k < last)
    (reach : last ≤ edge count) (most : Nat) {j : Nat} (hj : j ≤ count) :
    fixedBounds width last most (edge j) =
      (List.range' j (min most (count - j))).map fun k => (edge k, edge (k + 1)) := by
  -- the cursor stands on boundary `j`, and the walk ends on boundary `count`, which reaches the
  -- last instant
  induction most generalizing j with
  | zero => simp [fixedBounds]
  | succ most ih =>
    unfold fixedBounds
    rcases Nat.lt_or_eq_of_le hj with lt | rfl
    · have rest : min (most + 1) (count - j) = min most (count - (j + 1)) + 1 := by omega
      rw [if_pos (before j lt), rest, List.range'_succ, List.map_cons, ← ih lt, ← step]
    · rw [if_neg (not_lt.mpr reach)]
      simp

theorem edge_plusWithin {width : Int} (plain : w.first.IsPlain)
    (stepping : w.stepping = .fixed width) (positive : 0 < width) (k : Nat) :
    (w.edge k).plusWithin width = w.edge (k + 1) := by
  obtain ⟨f, firstEq, hf, inside⟩ := plain.exists_ofNanos
  have offset : ∀ k : Nat, 0 ≤ (k : Int) * width := fun k =>
    Int.mul_nonneg (Int.natCast_nonneg k) (Int.le_of_lt positive)
  have next : ((k + 1 : Nat) : Int) * width = k * width + width := by
    push_cast
    rw [Int.add_mul, Int.one_mul]
  have here := offset k
  simp only [edge, stepping]
  rw [firstEq, Instant.plusWithin_ofNanos hf here, Instant.plusWithin_ofNanos hf (offset (k + 1)),
    Instant.plusWithin_ofNanos (by omega) (by omega), next]
  congr 1
  omega

section Divided

variable {edge : Nat → Instant} {most : Nat}

theorem dividedBounds_eq_map (inside : ∀ k ≤ most, (edge k).InCalendar) :
    dividedBounds edge most = (List.range most).map fun k => (edge k, edge (k + 1)) := by
  apply List.takeWhile_eq_self_iff.mpr
  intro b hb
  obtain ⟨k, hk, rfl⟩ := List.mem_map.mp hb
  have before := List.mem_range.mp hk
  exact decide_eq_true ⟨inside k (by omega), inside (k + 1) before⟩

/-- All windows are there if and only if all boundaries are in the calendar. -/
theorem length_dividedBounds_eq_iff (some_window : 0 < most) :
    (dividedBounds edge most).length = most ↔ ∀ k ≤ most, (edge k).InCalendar := by
  constructor
  · intro full k hk
    have whole : dividedBounds edge most = (List.range most).map fun k =>
        (edge k, edge (k + 1)) := by
      apply (List.takeWhile_prefix _).eq_of_length
      rw [List.length_map, List.length_range]
      exact full
    have inside := List.takeWhile_eq_self_iff.mp whole
    have either (j : Nat) (hj : j < most) : (edge j).InCalendar ∧ (edge (j + 1)).InCalendar :=
      of_decide_eq_true (inside _ (List.mem_map.mpr ⟨j, List.mem_range.mpr hj, rfl⟩))
    cases k with
    | zero => exact (either 0 some_window).1
    | succ j => exact (either j hk).2
  · intro inside
    rw [dividedBounds_eq_map inside, List.length_map, List.length_range]

theorem head?_dividedBounds {b : Instant × Instant} (h : b ∈ (dividedBounds edge most).head?) :
    b = (edge 0, edge 1) := by
  cases most with
  | zero => cases h
  | succ most =>
    rw [dividedBounds, List.range_succ_eq_map, List.map_cons, List.takeWhile_cons] at h
    split at h
    · exact (Option.some.inj h).symm
    · cases h

end Divided

/-- The boundaries lie between the first endpoint and the last, or are held at the end of the
calendar. -/
theorem edge_inCalendar (grid : IsGrid w.first w.last w.edge w.count) (plainFirst : w.first.IsPlain)
    (plainLast : w.last.IsPlain) (fits : w.Fits) {k : Nat} (hk : k ≤ w.count) :
    (w.edge k).InCalendar := by
  cases stepping : w.stepping with
  | fixed width =>
    rw [edge, stepping]
    exact Instant.inCalendar_plusWithin _ _
  | divided count span =>
    obtain ⟨positive, -, whole⟩ := fits.of_divided stepping
    obtain ⟨f, firstEq, -, -⟩ := plainFirst.exists_ofNanos
    obtain ⟨l, lastEq, -, -⟩ := plainLast.exists_ofNanos
    have reached : w.edge w.count = w.last := by
      rw [count_of_divided stepping, edge_of_divided stepping, firstEq, boundary_count positive,
        whole, firstEq, lastEq, Instant.since_ofNanos]
      congr 1
      omega
    have early := grid.edge_le (Nat.zero_le k) hk
    rw [grid.edge_zero] at early
    exact plainFirst.inCalendar.between plainLast.inCalendar early
      (reached ▸ grid.edge_le hk (Nat.le_refl _))

/-- As many windows as are asked for have their bounds on the boundaries, up to the last window
there is. -/
theorem bounds_eq_map (grid : IsGrid w.first w.last w.edge w.count) (plainFirst : w.first.IsPlain)
    (plainLast : w.last.IsPlain) (fits : w.Fits) (most : Nat) :
    w.bounds most = (List.range (min most w.count)).map fun k => (w.edge k, w.edge (k + 1)) := by
  have inside : ∀ k ≤ w.count, (w.edge k).InCalendar := fun _ =>
    edge_inCalendar grid plainFirst plainLast fits
  unfold bounds
  cases stepping : w.stepping with
  | fixed width =>
    have walk := fixedBounds_eq_map (edge_plusWithin plainFirst stepping (fits.of_fixed stepping))
      grid.edge_lt_last grid.last_le_edge most (Nat.zero_le _)
    rw [grid.edge_zero] at walk
    dsimp only
    rw [walk, List.range_eq_range', Nat.sub_zero]
  | divided count span =>
    rw [count_of_divided stepping, edge_of_divided stepping] at inside ⊢
    exact dividedBounds_eq_map fun k hk => inside k (le_trans hk (Nat.min_le_right _ _))

theorem upTo_eq_map_window (grid : IsGrid w.first w.last w.edge w.count)
    (plainFirst : w.first.IsPlain) (plainLast : w.last.IsPlain) (fits : w.Fits) (most : Nat) :
    w.upTo most = (List.range (min most w.count)).map w.window := by
  unfold upTo
  rw [bounds_eq_map grid plainFirst plainLast fits, List.map_map]
  rfl

/-- The windows are those between the boundaries: the last reading that the walk is given is never
used. -/
theorem all_eq_map_window (grid : IsGrid w.first w.last w.edge w.count)
    (plainFirst : w.first.IsPlain) (plainLast : w.last.IsPlain) (fits : w.Fits) :
    w.all = (List.range w.count).map w.window := by
  have enough : w.count ≤ max w.readings w.expectedLength :=
    le_trans grid.count_le_readings (Nat.le_max_left _ _)
  unfold all
  rw [upTo_eq_map_window grid plainFirst plainLast fits, Nat.min_eq_right enough]

theorem firstTime_le (order : InOrder sorted) {p : Endpoint} (hp : p ∈ sorted) :
    firstTime sorted ≤ p.time := by
  cases sorted with
  | nil => cases hp
  | cons q rest =>
    rcases List.mem_cons.mp hp with rfl | hp
    · exact le_rfl
    · exact (List.pairwise_cons.mp order).1 p hp

theorem le_lastTime (order : InOrder sorted) {p : Endpoint} (hp : p ∈ sorted) :
    p.time ≤ lastTime sorted := by
  obtain ⟨init, q, rfl⟩ : ∃ init q, sorted = init ++ [q] :=
    ⟨_, _, (List.dropLast_concat_getLast (List.ne_nil_of_mem hp)).symm⟩
  have end_ : lastTime (init ++ [q]) = q.time := by simp [lastTime]
  rw [end_]
  rcases List.mem_append.mp hp with hp | hp
  · exact (List.pairwise_append.mp order).2.2 p hp q (List.mem_singleton_self q)
  · exact le_of_eq (congrArg Endpoint.time (List.mem_singleton.mp hp))

/-- First and last time are read off the times alone. -/
theorem firstTime_eq_of_times {other : List Endpoint}
    (h : sorted.map Endpoint.time = other.map Endpoint.time) :
    firstTime sorted = firstTime other := by
  unfold firstTime
  rw [← List.head?_map, h, List.head?_map]

theorem lastTime_eq_of_times {other : List Endpoint}
    (h : sorted.map Endpoint.time = other.map Endpoint.time) :
    lastTime sorted = lastTime other := by
  unfold lastTime
  rw [← List.getLast?_map, h, List.getLast?_map]

/-- First and last time are times of endpoints, and both the same instant where there is none. -/
theorem exists_mem_of_firstTime (h : sorted ≠ []) : ∃ p ∈ sorted, p.time = firstTime sorted := by
  obtain ⟨q, rest, rfl⟩ := List.exists_cons_of_ne_nil h
  exact ⟨q, List.mem_cons_self, rfl⟩

theorem exists_mem_of_lastTime (h : sorted ≠ []) : ∃ p ∈ sorted, p.time = lastTime sorted := by
  obtain ⟨init, q, rfl⟩ : ∃ init q, sorted = init ++ [q] :=
    ⟨_, _, (List.dropLast_concat_getLast h).symm⟩
  exact ⟨q, by simp, by simp [lastTime]⟩

theorem plain_firstTime (plain : ∀ p ∈ sorted, p.time.IsPlain) : (firstTime sorted).IsPlain := by
  by_cases empty : sorted = []
  · subst empty
    decide
  · obtain ⟨p, hp, first⟩ := exists_mem_of_firstTime empty
    exact first ▸ plain p hp

theorem plain_lastTime (plain : ∀ p ∈ sorted, p.time.IsPlain) : (lastTime sorted).IsPlain := by
  by_cases empty : sorted = []
  · subst empty
    decide
  · obtain ⟨p, hp, last⟩ := exists_mem_of_lastTime empty
    exact last ▸ plain p hp

theorem firstTime_le_lastTime (order : InOrder sorted) : firstTime sorted ≤ lastTime sorted := by
  by_cases empty : sorted = []
  · subst empty
    exact le_rfl
  · obtain ⟨p, hp, last⟩ := exists_mem_of_lastTime empty
    exact last ▸ firstTime_le order hp

/-- The span in nanoseconds, from the first endpoint to the last. -/
theorem exists_nanos_of_spanOf (plain : ∀ p ∈ sorted, p.time.IsPlain) :
    ∃ f, firstTime sorted = ofNanos f ∧ lastTime sorted = ofNanos (f + spanOf sorted) ∧
      Instant.first.toNanos ≤ f ∧ f + spanOf sorted ≤ Instant.last.toNanos := by
  obtain ⟨f, first, hf, -⟩ := (plain_firstTime plain).exists_ofNanos
  obtain ⟨l, last, -, hl⟩ := (plain_lastTime plain).exists_ofNanos
  have span : f + spanOf sorted = l := by
    rw [spanOf, first, last, Instant.since_ofNanos]
    omega
  exact ⟨f, first, span.symm ▸ last, hf, span.symm ▸ hl⟩

theorem spanOf_nonneg (order : InOrder sorted) (plain : ∀ p ∈ sorted, p.time.IsPlain) :
    0 ≤ spanOf sorted := by
  obtain ⟨f, first, last, -, -⟩ := exists_nanos_of_spanOf plain
  have rises := firstTime_le_lastTime order
  rw [first, last, Instant.ofNanos_le_ofNanos] at rises
  omega

section Fixed

variable {step : Int} (first : w.first = firstTime sorted) (stepping : w.stepping = .fixed step)

include first stepping

theorem count_of_fixed (last : w.last = lastTime sorted) :
    w.count = ((spanOf sorted + step - 1) / step).toNat := by
  rw [count, stepping, first, last, spanOf]

/-- The boundaries of windows of one width over endpoints, in nanoseconds. -/
theorem edge_of_fixed (plain : ∀ p ∈ sorted, p.time.IsPlain) (positive : 0 < step) (k : Nat) :
    w.edge k = ofNanos (min ((firstTime sorted).toNanos + k * step) Instant.last.toNanos) := by
  obtain ⟨f, firstEq, -, start, -⟩ := exists_nanos_of_spanOf plain
  rw [edge, stepping, first, firstEq, Instant.toNanos_ofNanos]
  exact Instant.plusWithin_ofNanos start
    (Int.mul_nonneg (Int.natCast_nonneg k) (Int.le_of_lt positive))

end Fixed

structure IsLaidOver (w : Windows) (sorted : List Endpoint) : Prop where
  sorted_eq : w.sorted = sorted.toArray
  grid : IsGrid (firstTime sorted) (lastTime sorted) w.edge w.count
  all_eq : w.all = (List.range w.count).map w.window
  points_eq : ∀ k, (w.window k).points =
    sorted.filter fun p => w.edge k ≤ p.time ∧ p.time ≤ w.edge (k + 1)

theorem IsLaidOver.length_eq (laid : w.IsLaidOver sorted) : w.all.length = w.count := by
  rw [laid.all_eq, List.length_map, List.length_range]

/-- The first window starts on the first boundary, and the last one ends on the last. -/
theorem IsLaidOver.head?_start (laid : w.IsLaidOver sorted) (some_window : 0 < w.count) :
    w.all.head?.map Window.start = some (w.edge 0) := by
  obtain ⟨m, count⟩ := Nat.exists_eq_succ_of_ne_zero (by omega : w.count ≠ 0)
  rw [laid.all_eq, count, List.range_succ_eq_map]
  rfl

theorem IsLaidOver.getLast?_finish (laid : w.IsLaidOver sorted) (some_window : 0 < w.count) :
    w.all.getLast?.map Window.finish = some (w.edge w.count) := by
  obtain ⟨m, count⟩ := Nat.exists_eq_succ_of_ne_zero (by omega : w.count ≠ 0)
  rw [laid.all_eq, count, List.range_succ, List.map_append, List.map_singleton,
    List.getLast?_concat]
  rfl

theorem sorted_eq_of_forWidth (h : forWidth sorted width = .ok w) : w.sorted = sorted.toArray := by
  obtain ⟨step, -, rfl⟩ := forWidth_eq_ok_iff.mp h
  rfl

theorem first_eq_of_forWidth (h : forWidth sorted width = .ok w) : w.first = firstTime sorted := by
  obtain ⟨step, -, rfl⟩ := forWidth_eq_ok_iff.mp h
  rfl

theorem last_eq_of_forWidth (h : forWidth sorted width = .ok w) : w.last = lastTime sorted := by
  obtain ⟨step, -, rfl⟩ := forWidth_eq_ok_iff.mp h
  rfl

theorem isGrid_of_forWidth (order : InOrder sorted) (plain : ∀ p ∈ sorted, p.time.IsPlain)
    (h : forWidth sorted width = .ok w) : IsGrid w.first w.last w.edge w.count := by
  have rises := firstTime_le_lastTime order
  have plainFirst := plain_firstTime plain
  have plainLast := plain_lastTime plain
  rw [← first_eq_of_forWidth h] at plainFirst rises
  rw [← last_eq_of_forWidth h] at plainLast rises
  exact isGrid plainFirst plainLast rises (fits_of_forWidth h)

theorem isLaidOver_of_forWidth (order : InOrder sorted) (plain : ∀ p ∈ sorted, p.time.IsPlain)
    (h : forWidth sorted width = .ok w) : w.IsLaidOver sorted := by
  have grid := isGrid_of_forWidth order plain h
  have plainFirst := plain_firstTime plain
  have plainLast := plain_lastTime plain
  have sortedEq := sorted_eq_of_forWidth h
  constructor
  · exact sortedEq
  · rw [← first_eq_of_forWidth h, ← last_eq_of_forWidth h]
    exact grid
  · exact all_eq_map_window grid (first_eq_of_forWidth h ▸ plainFirst)
      (last_eq_of_forWidth h ▸ plainLast)
      (fits_of_forWidth h)
  · intro k
    rw [window, sortedEq]
    exact Window.select_eq_filter order _ _

/-- Whoever asks for more windows than there are gets no more. -/
theorem upTo_eq_take_of_forWidth (order : InOrder sorted) (plain : ∀ p ∈ sorted, p.time.IsPlain)
    (h : forWidth sorted width = .ok w) (most : Nat) : w.upTo most = w.all.take most := by
  have grid := isGrid_of_forWidth order plain h
  have plainFirst : w.first.IsPlain := first_eq_of_forWidth h ▸ plain_firstTime plain
  have plainLast : w.last.IsPlain := last_eq_of_forWidth h ▸ plain_lastTime plain
  have fits := fits_of_forWidth h
  rw [upTo_eq_map_window grid plainFirst plainLast fits,
    all_eq_map_window grid plainFirst plainLast fits, ← List.map_take, List.take_range]

theorem isLaidOver_ofEvents {events : List Event} (plain : ∀ e ∈ events, e.IsPlain)
    (h : forWidth (Endpoint.ofEvents events) width = .ok w) :
    w.IsLaidOver (Endpoint.ofEvents events) :=
  isLaidOver_of_forWidth (Endpoint.inOrder_ofEvents events) (Endpoint.plain_ofEvents plain) h

end Windows

end InFlight
