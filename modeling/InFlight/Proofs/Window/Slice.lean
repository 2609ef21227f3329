import InFlight.Proofs.Event.Order
import InFlight.Window
/-!
The slice of a window. On endpoints in order of time the search by halving counts the endpoints
before a bound, so the places from `low` to `high` are those of the endpoints within the window.
They are places of the list whatever the bounds are, the finish before the start too.
-/
namespace InFlight

section Search

variable {α : Type} {p q : α → Bool} {l : List α}

/-- An element that passes has only passing elements before it. -/
def IsPrefixTest (p : α → Bool) (l : List α) : Prop := l.Pairwise fun x y => p y → p x

theorem IsPrefixTest.tail {x : α} (h : IsPrefixTest p (x :: l)) : IsPrefixTest p l :=
  (List.pairwise_cons.mp h).2

theorem IsPrefixTest.countP_eq_zero {x : α} (h : IsPrefixTest p (x :: l)) (hx : ¬ p x) :
    (x :: l).countP p = 0 := by
  rw [List.countP_eq_zero]
  intro y hy py
  rcases List.mem_cons.mp hy with rfl | hy
  · exact hx py
  · exact hx ((List.pairwise_cons.mp h).1 y hy py)

theorem IsPrefixTest.lt_countP_iff (h : IsPrefixTest p l) {i : Nat} (hi : i < l.length) :
    i < l.countP p ↔ p l[i] := by
  induction l generalizing i with
  | nil => simp at hi
  | cons x l ih =>
    by_cases hx : p x
    · rw [List.countP_cons_of_pos hx]
      cases i with
      | zero => simp [hx]
      | succ i =>
        have rest := ih h.tail (Nat.lt_of_succ_lt_succ hi)
        rw [List.getElem_cons_succ, ← rest]
        omega
    · rw [h.countP_eq_zero hx]
      have none_passes : ¬ p (x :: l)[i] := by
        have zero := h.countP_eq_zero hx
        rw [List.countP_eq_zero] at zero
        exact zero _ (List.getElem_mem hi)
      simp [none_passes]

/-- The halving keeps a range before which all pass and behind which none does. -/
theorem bisect_eq_countP (h : IsPrefixTest p l) {fuel low high : Nat} (fueled : high - low ≤ fuel)
    (below : low ≤ l.countP p) (above : l.countP p ≤ high) (within : high ≤ l.length) :
    bisect p l.toArray fuel low high = l.countP p := by
  induction fuel generalizing low high with
  | zero =>
    unfold bisect
    omega
  | succ fuel ih =>
    unfold bisect
    by_cases open_ : low < high
    · rw [if_pos open_]
      have inside : (low + high) / 2 < l.length := by omega
      have passes := h.lt_countP_iff inside
      simp only [List.getElem?_toArray, List.getElem?_eq_getElem inside, Option.any_some]
      by_cases middle : p l[(low + high) / 2]
      · rw [if_pos middle]
        have := passes.mpr middle
        exact ih (by omega) (by omega) above within
      · rw [if_neg middle]
        have : ¬ (low + high) / 2 < l.countP p := fun lt => middle (passes.mp lt)
        exact ih (by omega) below (by omega) (by omega)
    · rw [if_neg open_]
      omega

theorem partitionPoint_eq_countP (h : IsPrefixTest p l) :
    partitionPoint p l.toArray = l.countP p := by
  have most := List.countP_le_length (p := p) (l := l)
  exact bisect_eq_countP h (by simp) (Nat.zero_le _) (by simpa using most) (by simp)

theorem bisect_le {a : Array α} {fuel low high : Nat} (h : low ≤ high) :
    bisect p a fuel low high ≤ high := by
  induction fuel generalizing low high with
  | zero => exact h
  | succ fuel ih =>
    unfold bisect
    by_cases open_ : low < high
    · rw [if_pos open_]
      dsimp only
      split
      · exact ih (by omega)
      · have within : bisect p a fuel low ((low + high) / 2) ≤ (low + high) / 2 := ih (by omega)
        omega
    · rwa [if_neg open_]

/-- A search ends within the array, in whatever order its elements are. -/
theorem partitionPoint_le_size (p : α → Bool) (a : Array α) : partitionPoint p a ≤ a.size :=
  bisect_le (Nat.zero_le _)

/-- What fails one prefix test and passes another is a slice. -/
theorem filter_eq_drop_take (hp : IsPrefixTest p l) (hq : IsPrefixTest q l) :
    (l.filter fun x => !p x && q x) = (l.take (l.countP q)).drop (l.countP p) := by
  induction l with
  | nil => rfl
  | cons x l ih =>
    by_cases hqx : q x
    · by_cases hpx : p x
      · rw [List.countP_cons_of_pos hqx, List.countP_cons_of_pos hpx, List.take_succ_cons,
          List.drop_succ_cons, ← ih hp.tail hq.tail]
        simp [hpx]
      · have none_before := hp.countP_eq_zero hpx
        have none_behind : l.countP p = 0 := by
          rw [List.countP_cons_of_neg hpx] at none_before
          exact none_before
        rw [none_before, List.countP_cons_of_pos hqx, List.take_succ_cons, List.drop_zero]
        have rest := ih hp.tail hq.tail
        rw [none_behind, List.drop_zero] at rest
        simp [hpx, hqx, rest]
    · have none_left := hq.countP_eq_zero hqx
      rw [none_left, List.take_zero, List.drop_nil, List.filter_eq_nil_iff]
      intro y hy
      rw [List.countP_eq_zero] at none_left
      simp [none_left y hy]

end Search

namespace Endpoint

namespace InOrder

variable {sorted : List Endpoint}

theorem isPrefixTest_lt (h : InOrder sorted) (t : Instant) :
    IsPrefixTest (fun p => p.time < t) sorted :=
  List.Pairwise.imp (fun le lt => by simpa using lt_of_le_of_lt le (by simpa using lt)) h

theorem isPrefixTest_le (h : InOrder sorted) (t : Instant) :
    IsPrefixTest (fun p => p.time ≤ t) sorted :=
  List.Pairwise.imp (fun le lt => by simpa using le_trans le (by simpa using lt)) h

end InOrder

end Endpoint

namespace Window

open Endpoint (InOrder)

variable {sorted : List Endpoint}

theorem low_eq_countP (h : InOrder sorted) (start : Instant) :
    low sorted.toArray start = sorted.countP fun p => p.time < start :=
  partitionPoint_eq_countP (h.isPrefixTest_lt start)

theorem high_eq_max_countP (h : InOrder sorted) (start finish : Instant) :
    high sorted.toArray start finish =
      max (sorted.countP fun p => p.time < start) (sorted.countP fun p => p.time ≤ finish) := by
  unfold high
  rw [low_eq_countP h, partitionPoint_eq_countP (h.isPrefixTest_le finish)]

theorem low_le_high (a : Array Endpoint) (start finish : Instant) :
    low a start ≤ high a start finish :=
  Nat.le_max_left _ _

theorem high_le_size (a : Array Endpoint) (start finish : Instant) : high a start finish ≤ a.size :=
  Nat.max_le.mpr ⟨partitionPoint_le_size _ a, partitionPoint_le_size _ a⟩

/-- The places of a slice are those of the endpoints within the window. -/
theorem low_le_and_lt_high_iff (h : InOrder sorted) (start finish : Instant) {j : Nat}
    (hj : j < sorted.length) :
    low sorted.toArray start ≤ j ∧ j < high sorted.toArray start finish ↔
      start ≤ sorted[j].time ∧ sorted[j].time ≤ finish := by
  have before := (h.isPrefixTest_lt start).lt_countP_iff hj
  have upTo := (h.isPrefixTest_le finish).lt_countP_iff hj
  simp only [decide_eq_true_eq] at before upTo
  have from_ : start ≤ sorted[j].time ↔ ¬ sorted[j].time < start := not_lt.symm
  rw [low_eq_countP h, high_eq_max_countP h, ← upTo, from_, ← before]
  omega

theorem mem_of_mem_select {p : Endpoint} {start finish : Instant}
    (h : p ∈ select sorted.toArray start finish) :
    p ∈ sorted := by
  simp only [select, List.extract_toArray, List.extract_eq_take_drop] at h
  exact List.mem_of_mem_drop (List.mem_of_mem_take h)

/-- The search finds what reading through all endpoints finds. -/
theorem select_eq_filter (h : InOrder sorted) (start finish : Instant) :
    select sorted.toArray start finish =
      sorted.filter fun p => start ≤ p.time ∧ p.time ≤ finish := by
  have slice := filter_eq_drop_take (h.isPrefixTest_lt start) (h.isPrefixTest_le finish)
  have same : (sorted.filter fun p => start ≤ p.time ∧ p.time ≤ finish) =
      sorted.filter fun p => !decide (p.time < start) && decide (p.time ≤ finish) := by
    apply List.filter_congr
    intro p _
    rw [Bool.eq_iff_iff]
    simp only [Bool.and_eq_true, Bool.not_eq_true', decide_eq_true_eq,
      decide_eq_false_iff_not, not_lt]
  rw [same, slice]
  simp only [select, List.extract_toArray, List.extract_eq_take_drop]
  rw [low_eq_countP h, high_eq_max_countP h, List.drop_take]
  congr 1
  omega

/-- Between any two instants the search has a slice of the list, its places those of the endpoints
within, and the slice is what reading through all endpoints finds. -/
theorem select_within_and_eq_filter (h : InOrder sorted) (start finish : Instant) :
    (low sorted.toArray start ≤ high sorted.toArray start finish ∧
      high sorted.toArray start finish ≤ sorted.length) ∧
    (∀ j (hj : j < sorted.length), low sorted.toArray start ≤ j ∧
      j < high sorted.toArray start finish ↔
      start ≤ sorted[j].time ∧ sorted[j].time ≤ finish) ∧
    select sorted.toArray start finish = sorted.filter fun p => start ≤ p.time ∧
    p.time ≤ finish := by
  refine ⟨⟨low_le_high _ start finish, ?_⟩, ?_, select_eq_filter h start finish⟩
  · exact high_le_size sorted.toArray start finish
  · intro j hj
    exact low_le_and_lt_high_iff h start finish hj

def crowded : List Endpoint :=
  [10, 20, 20, 20, 30, 40].zipIdx.map fun (t, k) => ⟨"block", .ofNanos t, true, 0, 10, 5, k⟩

/-- Endpoints that stand together at the start, a finish before the start, and bounds on one side of
all. -/
theorem select_within_and_eq_filter_crowded :
    (select crowded.toArray (.ofNanos 20) (.ofNanos 30)).map Endpoint.id = [1, 2, 3, 4] ∧
      select crowded.toArray (.ofNanos 30) (.ofNanos 10) = [] ∧
      (low crowded.toArray (.ofNanos 30), high crowded.toArray (.ofNanos 30) (.ofNanos 10)) =
        (4, 4) ∧
      select crowded.toArray (.ofNanos 50) (.ofNanos 90) = [] ∧
      high crowded.toArray (.ofNanos 50) (.ofNanos 90) ≤ crowded.length ∧
      select [].toArray (.ofNanos 20) (.ofNanos 30) = [] := by
  have order : InOrder crowded := by decide
  refine ⟨?_, ?_, by decide, ?_, (select_within_and_eq_filter order _ _).1.2, ?_⟩
  · rw [(select_within_and_eq_filter order _ _).2.2]
    decide
  · rw [(select_within_and_eq_filter order _ _).2.2]
    decide
  · rw [(select_within_and_eq_filter order _ _).2.2]
    decide
  · exact (select_within_and_eq_filter List.Pairwise.nil _ _).2.2

end Window

end InFlight
