import InFlight.Proofs.Window.Divisions
import Mathlib.Data.List.Range
import Mathlib.Data.Rat.Floor
/-!
Where windows start and finish. Windows of one width stand a width apart, cut off at the last
instant of the calendar, and there are as many as it takes to reach the last endpoint. Windows of an
exact division stand on the nanosecond at or before each share of the span, so that no two of them
differ by more than a nanosecond.
-/
namespace InFlight

open Endpoint (InOrder)
open Instant (ofNanos)

theorem ceil_ediv_eq (s : Int) {d : Int} (positive : 0 < d) : (s + d - 1) / d = ⌈(s : ℚ) / d⌉ := by
  have hd : (0 : ℚ) < d := Int.cast_pos.mpr positive
  rw [Int.ediv_eq_iff_of_pos positive]
  have enough : s ≤ ⌈(s : ℚ) / d⌉ * d := by
    have reach := (div_le_iff₀ hd).mp (Int.le_ceil ((s : ℚ) / d))
    exact_mod_cast reach
  have least : (⌈(s : ℚ) / d⌉ - 1) * d < s := by
    have short : ((⌈(s : ℚ) / d⌉ - 1 : Int) : ℚ) < (s : ℚ) / d := by
      push_cast
      linarith [Int.ceil_lt_add_one ((s : ℚ) / d)]
    have before := (lt_div_iff₀ hd).mp short
    exact_mod_cast before
  rw [Int.sub_mul, Int.one_mul] at least
  omega

/-- From one share to the next it is the quotient of span and count, rounded down or up. -/
theorem share_succ_sub_eq (span : Int) {count : Nat} (positive : 0 < count) (k : Nat) :
    ((k + 1 : Nat) : Int) * span / count - k * span / count = span / count ∨
      ((k + 1 : Nat) : Int) * span / count - k * span / count = ⌈(span : ℚ) / count⌉ := by
  have hc : (0 : Int) < count := by omega
  have next : ((k + 1 : Nat) : Int) * span = k * span + span := by
    push_cast
    rw [Int.add_mul, Int.one_mul]
  have ceil : ⌈(span : ℚ) / count⌉ = (span + (count - 1)) / count := by
    rw [← Int.add_sub_assoc, ceil_ediv_eq span hc, Int.cast_natCast]
  have below := Int.emod_lt_of_pos (k * span) hc
  have most : (count - 1 : Int) / count = 0 := Int.ediv_eq_zero_of_lt (by omega) (by omega)
  have last : (count - 1 : Int) % count = count - 1 := Int.emod_eq_of_lt (by omega) (by omega)
  -- a rest carried over into the next share is a rest of the span, for which the quotient rounded
  -- up is one more
  rw [next, ceil, Int.add_ediv_of_pos hc, Int.add_ediv_of_pos hc, most, last]
  split <;> split <;> omega

def Word.IsSigned128 (n : Int) : Prop := -(count128 / 2 : Nat) ≤ n ∧ n < (count128 / 2 : Nat)

instance (n : Int) : Decidable (Word.IsSigned128 n) := inferInstanceAs (Decidable (_ ∧ _))

namespace Windows

variable {sorted : List Endpoint} {w : Windows}

def Adjoin (windows : List Window) : Prop := windows.IsChain fun v next => v.finish = next.start

theorem IsLaidOver.adjoin (laid : w.IsLaidOver sorted) : Adjoin w.all := by
  unfold Adjoin
  rw [laid.all_eq, List.isChain_map, List.isChain_range]
  intro k _
  rfl

theorem IsLaidOver.start_lt (laid : w.IsLaidOver sorted) {v : Window} (hv : v ∈ w.all) :
    v.start < lastTime sorted := by
  rw [laid.all_eq] at hv
  obtain ⟨k, hk, rfl⟩ := List.mem_map.mp hv
  exact laid.grid.edge_lt_last k (List.mem_range.mp hk)

theorem IsLaidOver.le_finish (laid : w.IsLaidOver sorted) {v : Window} (hv : v ∈ w.all.getLast?) :
    lastTime sorted ≤ v.finish := by
  rcases Nat.eq_zero_or_pos w.count with none_ | some_window
  · rw [laid.all_eq, none_] at hv
    cases hv
  · have final := laid.getLast?_finish some_window
    rw [Option.mem_def.mp hv, Option.map_some, Option.some.injEq] at final
    rw [final]
    exact laid.grid.last_le_edge

/-- Start and finish of every window, where the boundaries are known. -/
theorem IsLaidOver.map_bounds_eq (laid : w.IsLaidOver sorted) {start finish : Nat → Instant}
    (starts : ∀ k < w.count, w.edge k = start k)
    (finishes : ∀ k < w.count, w.edge (k + 1) = finish k) :
    (w.all.map fun v => (v.start, v.finish)) = (List.range w.all.length).map fun k =>
      (start k, finish k) := by
  rw [laid.length_eq, laid.all_eq, List.map_map]
  apply List.map_congr_left
  intro k hk
  have within := List.mem_range.mp hk
  rw [← starts k within, ← finishes k within]
  rfl

section Steps

variable {step : Int}

structure StepsBy (w : Windows) (sorted : List Endpoint) (step : Int) : Prop where
  length_eq : w.all.length = ⌈(spanOf sorted : ℚ) / step⌉.toNat
  none_of_no_span : sorted = [] ∨ spanOf sorted = 0 → w.all = []
  upTo_eq : ∀ most, w.upTo most = w.all.take most
  bounds_eq : (w.all.map fun v => (v.start, v.finish)) =
    (List.range w.all.length).map fun (k : Nat) =>
    (ofNanos ((firstTime sorted).toNanos + k * step),
      ofNanos (min ((firstTime sorted).toNanos + (k + 1 : Nat) * step) Instant.last.toNanos))
  adjoin : Adjoin w.all
  start_lt : ∀ v ∈ w.all, v.start < lastTime sorted
  le_finish : ∀ v ∈ w.all.getLast?, lastTime sorted ≤ v.finish
  expectedLength_eq : w.expectedLength = w.all.length % Word.count64
  expectedLength_of_lt : w.all.length < Word.count64 → w.expectedLength = w.all.length

theorem windowCount_eq {span : Int} (positive : 0 < step) (nonneg : 0 ≤ span) :
    windowCount span step = ((span + step - 1) / step).toNat % Word.count64 := by
  unfold windowCount
  split
  · have none_ : (span + step - 1) / step = 0 := Int.ediv_eq_zero_of_lt (by omega) (by omega)
    rw [none_]
    rfl
  · rfl

/-- Every width lays windows a width apart, up to the first that reaches the last endpoint. -/
theorem stepsBy_of_fixed (order : InOrder sorted) (plain : ∀ p ∈ sorted, p.time.IsPlain)
    (positive : 0 < step) :
    ∃ w, forWidth sorted (.fixed step) = .ok w ∧ w.StepsBy sorted step := by
  obtain ⟨w, made, stepping⟩ := exists_forWidth_fixed sorted positive
  refine ⟨w, made, ?_⟩
  have laid := isLaidOver_of_forWidth order plain made
  have first := first_eq_of_forWidth made
  have last := last_eq_of_forWidth made
  have edge_eq := edge_of_fixed first stepping plain positive
  have count_eq := count_of_fixed first stepping last
  have length_eq : w.all.length = ⌈(spanOf sorted : ℚ) / step⌉.toNat := by
    rw [laid.length_eq, count_eq, ceil_ediv_eq _ positive]
  have expected : w.expectedLength = w.all.length % Word.count64 := by
    unfold expectedLength
    rw [stepping, first, last, laid.length_eq, count_eq]
    exact windowCount_eq positive (spanOf_nonneg order plain)
  constructor
  case length_eq => exact length_eq
  case none_of_no_span =>
    intro none_
    have no_span : spanOf sorted = 0 := by
      rcases none_ with rfl | no_span
      · decide
      · exact no_span
    rw [← List.length_eq_zero_iff, length_eq, no_span]
    simp
  case upTo_eq => exact upTo_eq_take_of_forWidth order plain made
  case bounds_eq =>
    apply laid.map_bounds_eq
    · intro k hk
      -- a window starts before the last endpoint, so its start is not cut off
      have before := laid.grid.edge_lt_last k hk
      obtain ⟨l, lastEq, -, inside⟩ := (plain_lastTime plain).exists_ofNanos
      rw [edge_eq, lastEq, Instant.ofNanos_lt_ofNanos] at before
      rw [edge_eq]
      congr 1
      omega
    · exact fun k _ => edge_eq (k + 1)
  case adjoin => exact laid.adjoin
  case start_lt => exact fun v hv => laid.start_lt hv
  case le_finish => exact fun v hv => laid.le_finish hv
  case expectedLength_eq => exact expected
  case expectedLength_of_lt =>
    intro few
    rw [expected, Nat.mod_eq_of_lt few]

def calendarEnd : List Endpoint :=
  [⟨"block", .ofNanos 8210266876799999999994, true, 5, 10, 5, 1⟩,
   ⟨"block", .ofNanos 8210266876799999999999, false, 5, 10, 5, 1⟩]

def wholeCalendar : List Endpoint :=
  [⟨"block", .ofNanos (-8334601228800000000000), true, 16544868105599999999999, 10, 5, 1⟩,
   ⟨"block", .ofNanos 8210266876799999999999, false, 16544868105599999999999, 10, 5, 1⟩]

theorem stepsBy_of_fixed_calendarEnd :
    (∃ w, forWidth calendarEnd (.fixed 2) = .ok w ∧ w.StepsBy calendarEnd 2 ∧
      (w.all.map fun v => (v.start, v.finish)) =
        [(.ofNanos 8210266876799999999994, .ofNanos 8210266876799999999996),
         (.ofNanos 8210266876799999999996, .ofNanos 8210266876799999999998),
         (.ofNanos 8210266876799999999998, .ofNanos 8210266876799999999999)]) ∧
      ∃ w, forWidth wholeCalendar (.fixed 1) = .ok w ∧ w.StepsBy wholeCalendar 1 ∧
        w.all.length = 16544868105599999999999 ∧ w.expectedLength = 16585415556241752063 := by
  constructor
  · have order : InOrder calendarEnd := by decide
    have plain : ∀ p ∈ calendarEnd, p.time.IsPlain := by decide
    obtain ⟨w, made, steps⟩ := stepsBy_of_fixed order plain (show (0 : Int) < 2 by decide)
    have length : w.all.length = 3 := by
      have ceil : ⌈((5 : Int) : ℚ) / (2 : Int)⌉ = 3 := by norm_num
      rw [steps.length_eq, show spanOf calendarEnd = 5 by decide, ceil]
      rfl
    have bounds := steps.bounds_eq
    rw [length] at bounds
    exact ⟨w, made, steps, bounds.trans (by decide)⟩
  · have order : InOrder wholeCalendar := by decide
    have plain : ∀ p ∈ wholeCalendar, p.time.IsPlain := by decide
    obtain ⟨w, made, steps⟩ := stepsBy_of_fixed order plain (show (0 : Int) < 1 by decide)
    have length : w.all.length = 16544868105599999999999 := by
      rw [steps.length_eq, show spanOf wholeCalendar = 16544868105599999999999 by decide,
        Int.cast_one, div_one, Int.ceil_intCast]
      rfl
    refine ⟨w, made, steps, length, ?_⟩
    rw [steps.expectedLength_eq, length]
    decide

end Steps

section Shares

variable {n : Nat}

/-- What is computed on the way to boundary `k` of `n` keeps to its words, and the boundary to the
calendar. -/
structure BoundaryFits (sorted : List Endpoint) (n k : Nat) : Prop where
  number : k < Word.count32
  product : Word.IsSigned128 (k * spanOf sorted)
  offset : Word.IsSigned64 (k * spanOf sorted / n)
  instant : (boundary (firstTime sorted) (spanOf sorted) n k).IsPlain

structure SharesOut (w : Windows) (sorted : List Endpoint) (n : Nat) :
    Prop extends Divides w sorted n where
  upTo_eq : ∀ most, w.upTo most = w.all.take most
  bounds_eq : (w.all.map fun v => (v.start, v.finish)) = (List.range n).map fun (k : Nat) =>
    (ofNanos ((firstTime sorted).toNanos + k * spanOf sorted / n),
      ofNanos ((firstTime sorted).toNanos + (k + 1 : Nat) * spanOf sorted / n))
  adjoin : Adjoin w.all
  width_eq : ∀ v ∈ w.all, v.finish.since v.start = spanOf sorted / n ∨
    v.finish.since v.start = ⌈(spanOf sorted : ℚ) / n⌉
  width_pos : ∀ v ∈ w.all, 1 ≤ v.finish.since v.start
  fits : ∀ k ≤ n, BoundaryFits sorted n k

theorem boundary_eq (plain : ∀ p ∈ sorted, p.time.IsPlain) (n k : Nat) :
    boundary (firstTime sorted) (spanOf sorted) n k =
      ofNanos ((firstTime sorted).toNanos + k * spanOf sorted / n) := by
  obtain ⟨f, first, -, -, -⟩ := exists_nanos_of_spanOf plain
  rw [boundary, first, Instant.plus_ofNanos, Instant.toNanos_ofNanos]

theorem share_le {span : Int} {k : Nat} (nonneg : 0 ≤ span) (positive : 0 < n) (hk : k ≤ n) :
    0 ≤ k * span / n ∧ k * span / n ≤ span := by
  have product : 0 ≤ k * span := Int.mul_nonneg (Int.natCast_nonneg k) nonneg
  have most : k * span ≤ n * span := Int.mul_le_mul_of_nonneg_right (by omega) nonneg
  refine ⟨Int.ediv_nonneg product (by omega), ?_⟩
  calc (k : Int) * span / n ≤ n * span / n := Int.ediv_le_ediv (by omega) most
    _ = span := Int.mul_ediv_cancel_left _ (by omega)

/-- Nothing overflows on the way to a boundary, where the span fits a word. -/
theorem boundaryFits_of_le {k : Nat} (plain : ∀ p ∈ sorted, p.time.IsPlain)
    (nonneg : 0 ≤ spanOf sorted) (fits : Span.fitsWord (spanOf sorted)) (positive : 0 < n)
    (few : n ≤ Width.mostDivisions) (hk : k ≤ n) :
    BoundaryFits sorted n k := by
  rw [Span.fitsWord, decide_eq_true_iff] at fits
  obtain ⟨f, first, last, start, finish⟩ := exists_nanos_of_spanOf plain
  obtain ⟨low, high⟩ := share_le nonneg positive hk
  have counted : n ≤ 2147483647 := few
  have product : 0 ≤ k * spanOf sorted := Int.mul_nonneg (Int.natCast_nonneg k) nonneg
  have most : k * spanOf sorted ≤ 2147483647 * spanOf sorted :=
    Int.mul_le_mul_of_nonneg_right (by omega) nonneg
  simp only [Word.IsSigned64, Word.least64, Word.most64] at fits
  constructor
  case number =>
    simp only [Word.count32]
    omega
  case product =>
    simp only [Word.IsSigned128, Word.count128]
    omega
  case offset =>
    simp only [Word.IsSigned64, Word.least64, Word.most64]
    omega
  case instant =>
    rw [boundary_eq plain, first, Instant.toNanos_ofNanos, Instant.isPlain_ofNanos]
    omega

theorem since_boundary (plain : ∀ p ∈ sorted, p.time.IsPlain) (n k : Nat) :
    (boundary (firstTime sorted) (spanOf sorted) n (k + 1)).since
    (boundary (firstTime sorted) (spanOf sorted) n k) =
      ((k + 1 : Nat) : Int) * spanOf sorted / n - k * spanOf sorted / n := by
  rw [boundary_eq plain, boundary_eq plain, Instant.since_ofNanos]
  omega

/-- A span that fits a word, of at least as many nanoseconds, is divided exactly. -/
theorem sharesOut_of_divisions (order : InOrder sorted) (plain : ∀ p ∈ sorted, p.time.IsPlain)
    (positive : 1 ≤ n) (few : n ≤ Width.mostDivisions) (enough : (n : Int) ≤ spanOf sorted)
    (fits : Span.fitsWord (spanOf sorted)) :
    ∃ w, forWidth sorted (.divisions n) = .ok w ∧ w.SharesOut sorted n := by
  obtain ⟨w, made, stepping⟩ := exists_forWidth_divided positive few enough fits
  refine ⟨w, made, ?_⟩
  have laid := isLaidOver_of_forWidth order plain made
  have first := first_eq_of_forWidth made
  have divides := divides_of_divided laid plain positive first stepping
  have edge_eq : w.edge = boundary (firstTime sorted) (spanOf sorted) n :=
    first ▸ edge_of_divided stepping
  have lengths : ∀ v ∈ w.all, ∃ k : Nat, v.finish.since v.start =
      ((k + 1 : Nat) : Int) * spanOf sorted / n - k * spanOf sorted / n := by
    intro v hv
    rw [laid.all_eq] at hv
    obtain ⟨k, -, rfl⟩ := List.mem_map.mp hv
    rw [window, edge_eq]
    exact ⟨k, since_boundary plain n k⟩
  constructor
  case toDivides => exact divides
  case upTo_eq => exact upTo_eq_take_of_forWidth order plain made
  case bounds_eq =>
    have boundaries := boundary_eq plain n
    rw [← edge_eq] at boundaries
    have bounds := laid.map_bounds_eq (fun k _ => boundaries k) fun k _ => boundaries (k + 1)
    rwa [divides.length_eq] at bounds
  case adjoin => exact laid.adjoin
  case width_eq =>
    intro v hv
    obtain ⟨k, length⟩ := lengths v hv
    rw [length]
    exact share_succ_sub_eq (spanOf sorted) positive k
  case width_pos =>
    intro v hv
    obtain ⟨k, length⟩ := lengths v hv
    have wide := share_succ_le positive enough k
    omega
  case fits => exact fun k hk => boundaryFits_of_le plain (by omega) fits positive few hk

def hundredNanos : List Endpoint :=
  [⟨"block", .ofNanos 7, true, 100, 10, 5, 1⟩, ⟨"block", .ofNanos 107, false, 100, 10, 5, 1⟩]

theorem sharesOut_of_divisions_hundredNanos :
    ∃ w, forWidth hundredNanos (.divisions 3) = .ok w ∧ w.SharesOut hundredNanos 3 ∧
      (w.all.map fun v => (v.start, v.finish)) =
        [(.ofNanos 7, .ofNanos 40), (.ofNanos 40, .ofNanos 73), (.ofNanos 73, .ofNanos 107)] := by
  have order : InOrder hundredNanos := by decide
  have plain : ∀ p ∈ hundredNanos, p.time.IsPlain := by decide
  obtain ⟨w, made, shares⟩ := sharesOut_of_divisions order plain (show 1 ≤ 3 by decide)
    (by decide) (by decide)
    (by decide)
  exact ⟨w, made, shares, shares.bounds_eq.trans (by decide)⟩

end Shares

end Windows

end InFlight
