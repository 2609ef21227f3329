import InFlight.Proofs.Window.Layout
/-!
Division of a span into a number of windows. A span that fits a word of 64 bits is divided exactly;
a longer one is walked in steps of the derived width, which drops a rest of the seconds and a rest
of the nanoseconds below a second, so that there are more windows unless neither leaves a rest.
-/
namespace InFlight

open Endpoint (InOrder)
open Instant (ofNanos)

namespace Span

variable {s n : Int}

/-- Neither the whole seconds nor the nanoseconds below a second leave a rest. -/
def SplitsEvenly (s n : Int) : Prop :=
  n ∣ s % 1000000000 ∧ n ∣ s / 1000000000 * 1000000000

instance (s n : Int) : Decidable (SplitsEvenly s n) := inferInstanceAs (Decidable (_ ∧ _))

/-- What division drops: a rest of either part of the span. -/
theorem mul_dividedBy_add (hs : 0 ≤ s) (hn : 0 < n) :
    n * dividedBy s n + (s % 1000000000 % n + s / 1000000000 * 1000000000 % n) = s := by
  have whole : 0 ≤ s / 1000000000 := Int.ediv_nonneg hs (by decide)
  have carried : 0 ≤ s / 1000000000 % n * 1000000000 :=
    Int.mul_nonneg (Int.emod_nonneg _ (by omega)) (by decide)
  have rest : s / 1000000000 * 1000000000 % n = s / 1000000000 % n * 1000000000 % n := by
    rw [Int.mul_emod, Int.mul_emod (s / 1000000000 % n) 1000000000, Int.emod_emod]
  have seconds := Int.mul_ediv_add_emod (s / 1000000000) n
  have below := Int.mul_ediv_add_emod (s % 1000000000) n
  have nanos := Int.mul_ediv_add_emod (s / 1000000000 % n * 1000000000) n
  have parts := Int.mul_ediv_add_emod s 1000000000
  unfold dividedBy
  dsimp only
  rw [Int.tdiv_eq_ediv_of_nonneg whole, Int.tmod_eq_emod_of_nonneg whole,
    Int.tdiv_eq_ediv_of_nonneg carried, rest, Int.mul_add, Int.mul_add, ← Int.mul_assoc]
  omega

theorem mul_dividedBy_le (hs : 0 ≤ s) (hn : 0 < n) : n * dividedBy s n ≤ s := by
  have split := mul_dividedBy_add hs hn
  have below := Int.emod_nonneg (s % 1000000000) (by omega : n ≠ 0)
  have seconds := Int.emod_nonneg (s / 1000000000 * 1000000000) (by omega : n ≠ 0)
  omega

theorem mul_dividedBy_eq_iff (hs : 0 ≤ s) (hn : 0 < n) :
    n * dividedBy s n = s ↔ SplitsEvenly s n := by
  have split := mul_dividedBy_add hs hn
  have below := Int.emod_nonneg (s % 1000000000) (by omega : n ≠ 0)
  have seconds := Int.emod_nonneg (s / 1000000000 * 1000000000) (by omega : n ≠ 0)
  unfold SplitsEvenly
  rw [Int.dvd_iff_emod_eq_zero, Int.dvd_iff_emod_eq_zero]
  omega

/-- The rests are less than two nanoseconds for each part. -/
theorem dividedBy_pos (hn : 0 < n) (h : 2 * n ≤ s) : 0 < dividedBy s n := by
  have split := mul_dividedBy_add (by omega : 0 ≤ s) hn
  have below := Int.emod_lt_of_pos (s % 1000000000) hn
  have seconds := Int.emod_lt_of_pos (s / 1000000000 * 1000000000) hn
  by_contra least
  have none_ : n * dividedBy s n ≤ 0 := Int.mul_nonpos_of_nonneg_of_nonpos (by omega) (by omega)
  omega

/-- A span that does not fit a word of 64 bits is long for any number of windows. -/
theorem two_mul_le_of_not_fitsWord {n : Nat} (few : n ≤ Width.mostDivisions) (hs : 0 ≤ s)
    (long : ¬ fitsWord s) : 2 * (n : Int) ≤ s := by
  rw [fitsWord, decide_eq_true_iff] at long
  simp only [Word.IsSigned64, Word.least64, Word.most64] at long
  simp only [Width.mostDivisions, Word.most32] at few
  omega

end Span

/-- Steps of a width that is not too wide for so many of them are that many only if they end on the
span. -/
theorem ceil_eq_iff {span width : Int} {n : Nat} (hw : 0 < width) (positive : 0 < n)
    (within : n * width ≤ span) :
    ((span + width - 1) / width).toNat = n ↔ n * width = span := by
  have enough : n - 1 < ((span + width - 1) / width).toNat := by
    rw [lt_ceil_iff span hw]
    have before : ((n - 1 : Nat) : Int) * width = n * width - width := by
      rw [Int.natCast_sub positive, Int.sub_mul, Int.natCast_one, Int.one_mul]
    omega
  have more := lt_ceil_iff span hw n
  omega

namespace Windows

variable {sorted : List Endpoint} {w : Windows} {n : Nat}

structure Divides (w : Windows) (sorted : List Endpoint) (n : Nat) : Prop where
  length_eq : w.all.length = n
  starts : w.all.head?.map Window.start = some (firstTime sorted)
  ends : w.all.getLast?.map Window.finish = some (lastTime sorted)

theorem divides_iff (laid : w.IsLaidOver sorted) (positive : 0 < n) :
    w.Divides sorted n ↔ w.count = n ∧ w.edge n = lastTime sorted := by
  constructor
  · rintro ⟨length, -, ends⟩
    obtain rfl : w.count = n := laid.length_eq ▸ length
    rw [laid.getLast?_finish positive] at ends
    exact ⟨rfl, Option.some.inj ends⟩
  · rintro ⟨rfl, reach⟩
    refine ⟨laid.length_eq, ?_, ?_⟩
    · rw [laid.head?_start positive, laid.grid.edge_zero]
    · rw [laid.getLast?_finish positive, reach]

/-- A span divided exactly ends on the last endpoint. -/
theorem divides_of_divided (laid : w.IsLaidOver sorted) (plain : ∀ p ∈ sorted, p.time.IsPlain)
    (positive : 0 < n) (first : w.first = firstTime sorted)
    (stepping : w.stepping = .divided n (spanOf sorted)) : w.Divides sorted n := by
  obtain ⟨f, firstEq, lastEq, -, -⟩ := exists_nanos_of_spanOf plain
  rw [divides_iff laid positive]
  refine ⟨count_of_divided stepping, ?_⟩
  rw [edge_of_divided stepping, first, firstEq, lastEq, boundary_count positive]

/-- Steps of a width that so many do not carry past the span are as many only if they end on it, and
more if they do not. -/
theorem divides_iff_of_fixed {width : Int} (laid : w.IsLaidOver sorted)
    (plain : ∀ p ∈ sorted, p.time.IsPlain) (positive : 0 < n) (wide : 0 < width)
    (within : n * width ≤ spanOf sorted) (first : w.first = firstTime sorted)
    (last : w.last = lastTime sorted) (stepping : w.stepping = .fixed width) :
    (w.Divides sorted n ↔ n * width = spanOf sorted) ∧
      (n * width ≠ spanOf sorted → n < w.all.length) := by
  obtain ⟨f, firstEq, lastEq, -, finish⟩ := exists_nanos_of_spanOf plain
  have count_eq := count_of_fixed first stepping last
  have edge_eq := edge_of_fixed first stepping plain wide n
  rw [firstEq, Instant.toNanos_ofNanos] at edge_eq
  have as_many := ceil_eq_iff wide positive within
  rw [← count_eq] at as_many
  constructor
  · rw [divides_iff laid positive, as_many]
    refine ⟨And.left, fun even => ⟨even, ?_⟩⟩
    rw [edge_eq, even, lastEq, Int.min_eq_left finish]
  · intro uneven
    rw [laid.length_eq, count_eq, lt_ceil_iff _ wide]
    omega

/-- A span of at least as many nanoseconds is divided into so many windows, from the first endpoint
to the last, if it fits a word of 64 bits or if both its parts divide evenly; there are more windows
otherwise. -/
theorem divides_iff_of_divisions (order : InOrder sorted) (plain : ∀ p ∈ sorted, p.time.IsPlain)
    (positive : 1 ≤ n) (few : n ≤ Width.mostDivisions) (enough : (n : Int) ≤ spanOf sorted) :
    ∃ w, forWidth sorted (.divisions n) = .ok w ∧
      (w.Divides sorted n ↔ Span.fitsWord (spanOf sorted) ∨ Span.SplitsEvenly (spanOf sorted) n) ∧
      (¬ w.Divides sorted n → n < w.all.length) := by
  have made := forWidth_eq_ok_iff.mpr ⟨_, Width.resolve_divisions (spanOf sorted) positive few, rfl⟩
  have laid := isLaidOver_of_forWidth order plain made
  refine ⟨_, made, ?_⟩
  by_cases fits : Span.fitsWord (spanOf sorted)
  · have divides := divides_of_divided laid plain positive rfl (if_pos ⟨fits, enough⟩)
    exact ⟨iff_of_true divides (Or.inl fits), fun other => absurd divides other⟩
  · have long := Span.two_mul_le_of_not_fitsWord few (by omega) fits
    have wide := Span.dividedBy_pos (by omega) long
    have within := Span.mul_dividedBy_le (by omega : 0 ≤ spanOf sorted) (by omega : 0 < (n : Int))
    have stepping : steppingFor (.divisions n) (spanOf sorted)
        (max (Span.dividedBy (spanOf sorted) n) 1) = .fixed (Span.dividedBy (spanOf sorted) n) := by
      unfold steppingFor
      dsimp only
      rw [if_neg (fun both => fits both.1), max_eq_left (by omega)]
    obtain ⟨as_many, more⟩ := divides_iff_of_fixed laid plain positive wide within rfl rfl stepping
    have even := Span.mul_dividedBy_eq_iff (by omega : 0 ≤ spanOf sorted) (by omega : 0 < (n : Int))
    constructor
    · rw [as_many, even]
      exact (or_iff_right fits).symm
    · intro other
      exact more (as_many.not.mp other)

/-- The endpoints of a transfer whose finish is unset, in the first year of the era. -/
def unsetFinish : List Endpoint :=
  [⟨"block", .ofNanos (-62135596800000000000), false, -62135596800000000005, 10, 5, 1⟩,
   ⟨"block", .ofNanos 5, true, -62135596800000000005, 10, 5, 1⟩]

theorem divides_iff_of_divisions_unsetFinish :
    (∃ w, forWidth unsetFinish (.divisions 5) = .ok w ∧ w.Divides unsetFinish 5) ∧
      ∃ w, forWidth unsetFinish (.divisions 2) = .ok w ∧ 2 < w.all.length := by
  have order : InOrder unsetFinish := by decide
  have plain : ∀ p ∈ unsetFinish, p.time.IsPlain := by decide
  constructor
  · obtain ⟨w, made, divides, -⟩ := divides_iff_of_divisions order plain
      (show 1 ≤ 5 by decide) (by decide) (by decide)
    exact ⟨w, made, divides.mpr (Or.inr (by decide))⟩
  · obtain ⟨w, made, divides, more⟩ := divides_iff_of_divisions order plain
      (show 1 ≤ 2 by decide) (by decide) (by decide)
    exact ⟨w, made, more (divides.not.mpr (by decide))⟩

theorem not_divides_unsetFinish :
    InOrder unsetFinish ∧ (∀ p ∈ unsetFinish, p.time.IsPlain) ∧ 2 ≤ Width.mostDivisions ∧
      (2 : Int) ≤ spanOf unsetFinish ∧
      ∃ w, forWidth unsetFinish (.divisions 2) = .ok w ∧ ¬ w.Divides unsetFinish 2 ∧
        (w.all.map fun v => (v.start, v.finish)) =
          [(.ofNanos (-62135596800000000000), .ofNanos (-31067798399999999998)),
           (.ofNanos (-31067798399999999998), .ofNanos 4),
           (.ofNanos 4, .ofNanos 31067798400000000006)] := by
  refine ⟨by decide, by decide, by decide, by decide, _, rfl, ?_, ?_⟩
  · intro divides
    exact absurd divides.length_eq (by decide +kernel)
  · decide +kernel

end Windows

end InFlight
