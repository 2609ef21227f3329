import InFlight.Latency
import Mathlib.Algebra.Order.BigOperators.Group.List
import Mathlib.Algebra.Order.Field.Rat
import Mathlib.Tactic.Positivity
/-!
Latencies in two more arithmetics. In exact rationals a mean is the sum of its terms by their
number, and lies between the least and the greatest of them. In numbers that are lost as soon as one
is divided by what is not positive, nothing is lost while the rates are positive.
-/
namespace InFlight

/-- A rational, or nothing once it has been divided by a number that is not positive. -/
structure Guarded where
  value? : Option Rat

namespace Guarded

def ofRat (q : Rat) : Guarded := ⟨some q⟩

def lift (f : Rat → Rat → Option Rat) (x y : Guarded) : Guarded :=
  ⟨x.value?.bind fun a => y.value?.bind fun b => f a b⟩

instance : Arithmetic Guarded where
  add := lift fun a b => some (a + b)
  mul := lift fun a b => some (a * b)
  div := lift fun a b => if 0 < b then some (a / b) else none
  ofInt n := ofRat n

theorem ofRat_mul (a b : Rat) : ofRat a * ofRat b = ofRat (a * b) := rfl

theorem ofRat_div (a : Rat) {b : Rat} (positive : 0 < b) : ofRat a / ofRat b = ofRat (a / b) :=
  congrArg Guarded.mk (if_pos positive)

end Guarded

namespace Latency

open Arithmetic (ofInt)

@[simp] theorem ofInt_rat (n : Int) : (ofInt n : Rat) = n := rfl

@[simp] theorem ofInt_guarded (n : Int) : (ofInt n : Guarded) = .ofRat n := rfl

section Map

variable {α : Type} [Arithmetic α] {f : Endpoint → Endpoint}

/-- The ideal latency of an endpoint looks at its size and its rate, the real one at the time
elapsed. -/
theorem meanIdeal_map (sizes : ∀ p, (f p).size = p.size)
    (rates : ∀ p, (f p).localRate = p.localRate) (nominal : NominalRate) (points : List Endpoint) :
    meanIdeal α nominal (points.map f) = meanIdeal α nominal points := by
  have rate : ∀ p, nominal.rateOf (f p) = nominal.rateOf p := by
    cases nominal with
    | runWide rate => exact fun _ => rfl
    | perEvent => exact rates
  unfold meanIdeal
  rw [List.map_map]
  congr 1
  apply List.map_congr_left
  intro p _
  rw [Function.comp_apply, ideal, ideal, sizes, rate]

theorem meanReal_map (elapsed : ∀ p, (f p).elapsed = p.elapsed) (points : List Endpoint) :
    meanReal α (points.map f) = meanReal α points := by
  unfold meanReal
  rw [List.map_map]
  congr 1
  apply List.map_congr_left
  intro p _
  rw [Function.comp_apply, real, real, elapsed]

end Map

section Guarded

theorem ideal_guarded {nominal : NominalRate} {p : Endpoint} (positive : 0 < nominal.rateOf p) :
    ideal Guarded nominal p = .ofRat (ideal Rat nominal p) := by
  have positive' : (0 : Rat) < nominal.rateOf p := Int.cast_pos.mpr positive
  simp only [ideal, ofInt_guarded, ofInt_rat, Guarded.ofRat_mul, Guarded.ofRat_div _ positive']

theorem real_guarded (p : Endpoint) : real Guarded p = .ofRat (real Rat p) := by
  unfold real millis
  split
  · exact Guarded.ofRat_div _ (by norm_num)
  · rfl

theorem foldl_guarded (terms : List Rat) (x : Rat) :
    (terms.map Guarded.ofRat).foldl (· + ·) (.ofRat x) = .ofRat (terms.foldl (· + ·) x) := by
  induction terms generalizing x with
  | nil => rfl
  | cons y terms ih => exact ih (x + y)

/-- A mean divides by the number of its terms, and only where there is one. -/
theorem mean_guarded (terms : List Rat) : mean (terms.map Guarded.ofRat) = .ofRat (mean terms) := by
  cases terms with
  | nil => rfl
  | cons x xs =>
    have positive : (0 : Rat) < ((xs.length : Int) + 1 : Int) := by positivity
    simp only [mean, List.map_cons, List.length_map, foldl_guarded, ofInt_guarded, ofInt_rat]
    exact Guarded.ofRat_div _ positive

theorem meanIdeal_guarded {nominal : NominalRate} {points : List Endpoint}
    (positive : ∀ p ∈ points, 0 < nominal.rateOf p) :
    meanIdeal Guarded nominal points = .ofRat (meanIdeal Rat nominal points) := by
  have terms : points.map (ideal Guarded nominal) =
      (points.map (ideal Rat nominal)).map Guarded.ofRat := by
    rw [List.map_map]
    exact List.map_congr_left fun p hp => ideal_guarded (positive p hp)
  rw [meanIdeal, terms, mean_guarded, meanIdeal]

theorem meanReal_guarded (points : List Endpoint) :
    meanReal Guarded points = .ofRat (meanReal Rat points) := by
  have terms : points.map (real Guarded) = (points.map (real Rat)).map Guarded.ofRat := by
    rw [List.map_map]
    exact List.map_congr_left fun p _ => real_guarded p
  rw [meanReal, terms, mean_guarded, meanReal]

end Guarded

section Rational

structure IsMean (terms : List Rat) (m : Rat) : Prop where
  of_nil : terms = [] → m = 0
  mul_length : m * terms.length = terms.sum
  least_le : ∀ x, terms.min? = some x → x ≤ m
  le_greatest : ∀ x, terms.max? = some x → m ≤ x

theorem mean_cons (x : Rat) (xs : List Rat) :
    mean (x :: xs) = (x :: xs).sum / (x :: xs).length := by
  have total : (x :: xs).sum = xs.foldl (· + ·) x := by
    rw [List.sum_eq_foldl, List.foldl_cons, zero_add]
  have number : (((xs.length : Int) + 1 : Int) : Rat) = (x :: xs).length := by simp
  rw [total, ← number]
  rfl

theorem isMean_mean (terms : List Rat) : IsMean terms (mean terms) := by
  cases terms with
  | nil => exact ⟨fun _ => rfl, by simp, nofun, nofun⟩
  | cons x xs =>
    have positive : (0 : Rat) < (x :: xs).length := by simp; positivity
    rw [mean_cons]
    refine ⟨nofun, div_mul_cancel₀ _ positive.ne', fun least smallest =>
      ?_, fun greatest largest => ?_⟩
    · obtain ⟨-, below⟩ := List.min?_eq_some_iff.mp smallest
      rw [le_div_iff₀ positive, mul_comm, ← nsmul_eq_mul]
      exact List.card_nsmul_le_sum _ _ below
    · obtain ⟨-, above⟩ := List.max?_eq_some_iff.mp largest
      rw [div_le_iff₀ positive, mul_comm, ← nsmul_eq_mul]
      exact List.sum_le_card_nsmul _ _ above

theorem IsMean.unique {terms : List Rat} {m m' : Rat} (h : IsMean terms m) (h' : IsMean terms m') :
    m = m' := by
  by_cases none : terms = []
  · rw [h.of_nil none, h'.of_nil none]
  · have some_term : (terms.length : Rat) ≠ 0 :=
      Nat.cast_ne_zero.mpr (mt List.length_eq_zero_iff.mp none)
    exact mul_right_cancel₀ some_term (h.mul_length.trans h'.mul_length.symm)

/-- The milliseconds that an elapsed time counts for: all of it, or whole ones when its nanoseconds
do not fit 64 bits. -/
def countedMillis (span : Int) : Rat :=
  if Word.IsSigned64 span then span / 1000000 else (span.tdiv 1000000 : Int)

theorem real_rat (p : Endpoint) : real Rat p = countedMillis p.elapsed := by
  simp only [real, millis, Span.fitsWord, countedMillis, decide_eq_true_eq]
  rfl

/-- Nothing is dropped of a time that fits or that is one of whole milliseconds, and of any other
something is. -/
theorem countedMillis_eq_iff {span : Int} :
    countedMillis span = (span : Rat) / 1000000 ↔ Word.IsSigned64 span ∨
    (1000000 : Int) ∣ span := by
  unfold countedMillis
  split
  · rename_i fits
    exact iff_of_true rfl (Or.inl fits)
  · rename_i long
    rw [eq_div_iff (by norm_num), or_iff_right long]
    constructor
    · intro whole
      refine ⟨span.tdiv 1000000, ?_⟩
      have same : span.tdiv 1000000 * 1000000 = span := by exact_mod_cast whole
      omega
    · rintro ⟨k, rfl⟩
      rw [Int.mul_tdiv_cancel_left k (by norm_num)]
      push_cast
      exact mul_comm _ _

end Rational

end Latency

end InFlight
