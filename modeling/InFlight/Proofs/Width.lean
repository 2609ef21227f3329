import InFlight.Proofs.Time.HumanDuration
import InFlight.Proofs.Window.Divisions
/-!
The width derived from a number of divisions. The seconds of a span and the nanoseconds below a
second are divided apart, and both quotients are rounded down. Where the two rests make up a
nanosecond together, that nanosecond is missing from the width. And the text of a fixed width, which
gives the width back.
-/
namespace InFlight

namespace Span

variable {s n : Int}

/-- The rest of the seconds and the rest of the nanoseconds below a second are a nanosecond of the
quotient together. -/
def DropsNanosecond (s n : Int) : Prop :=
  n ≤ s % 1000000000 % n + s / 1000000000 * 1000000000 % n

instance (s n : Int) : Decidable (DropsNanosecond s n) := inferInstanceAs (Decidable (_ ≤ _))

theorem dividedBy_eq (hs : 0 ≤ s) (hn : 0 < n) :
    dividedBy s n = s / n - if DropsNanosecond s n then 1 else 0 := by
  have split := mul_dividedBy_add hs hn
  have below := Int.emod_nonneg (s % 1000000000) (by omega : n ≠ 0)
  have below' := Int.emod_lt_of_pos (s % 1000000000) hn
  have seconds := Int.emod_nonneg (s / 1000000000 * 1000000000) (by omega : n ≠ 0)
  have seconds' := Int.emod_lt_of_pos (s / 1000000000 * 1000000000) hn
  by_cases drops : DropsNanosecond s n
  · rw [if_pos drops]
    unfold DropsNanosecond at drops
    have quotient : s / n = dividedBy s n + 1 := by
      rw [Int.ediv_eq_iff_of_pos hn, Int.add_mul, Int.one_mul, Int.mul_comm]
      omega
    omega
  · rw [if_neg drops]
    unfold DropsNanosecond at drops
    have quotient : s / n = dividedBy s n := by
      rw [Int.ediv_eq_iff_of_pos hn, Int.mul_comm]
      omega
    omega

end Span

namespace Width

/-- The derived width is the quotient of span and count, less the nanosecond that may be dropped,
and a nanosecond at least. It is the quotient rounded down unless a nanosecond is dropped from a
quotient of two or more. -/
theorem resolve_divisions_eq {span : Int} {n : Nat} (nonneg : 0 ≤ span) (positive : 1 ≤ n)
    (few : n ≤ mostDivisions) :
    (divisions n).resolve span =
      .ok (max 1 (span / n - if Span.DropsNanosecond span n then 1 else 0)) ∧
      ((divisions n).resolve span = .ok (max 1 (span / n)) ↔
        ¬ Span.DropsNanosecond span n ∨ span / n ≤ 1) := by
  have derived : (divisions n).resolve span =
      .ok (max 1 (span / n - if Span.DropsNanosecond span n then 1 else 0)) := by
    rw [resolve_divisions span positive few, max_comm, Span.dividedBy_eq nonneg (by omega)]
  refine ⟨derived, ?_⟩
  rw [derived, Except.ok.injEq]
  by_cases drops : Span.DropsNanosecond span n
  · rw [if_pos drops]
    constructor
    · intro same
      right
      omega
    · rintro (kept | short)
      · exact absurd drops kept
      · omega
  · rw [if_neg drops, Int.sub_zero]
    exact iff_of_true rfl (Or.inl drops)

/-- Of the longest span in as many windows as there may be a nanosecond is dropped; of a second and
seven tenths in more windows than nanoseconds of either part too, but there the least width stands
in for it. -/
theorem resolve_divisions_eq_longest :
    (0 : Int) ≤ Span.longest ∧ 1 ≤ mostDivisions ∧
      (divisions mostDivisions).resolve Span.longest = .ok 4294967297999999 ∧
      (divisions mostDivisions).resolve Span.longest ≠ .ok (max 1 (Span.longest / mostDivisions)) ∧
      Span.DropsNanosecond 1700000000 1500000000 ∧
      (divisions 1500000000).resolve 1700000000 =
        .ok (max 1 (1700000000 / (1500000000 : Nat))) := by
  have nonneg : (0 : Int) ≤ Span.longest := by decide
  have positive : 1 ≤ mostDivisions := by decide
  obtain ⟨derived, rounded_iff⟩ := resolve_divisions_eq nonneg positive (Nat.le_refl _)
  have drops : Span.DropsNanosecond Span.longest mostDivisions := by decide
  refine ⟨nonneg, positive, derived.trans (by decide), ?_, by decide, ?_⟩
  · intro rounded
    rcases rounded_iff.mp rounded with kept | short
    · exact kept drops
    · exact absurd short (by decide)
  · obtain ⟨-, clamped_iff⟩ := resolve_divisions_eq (show (0 : Int) ≤ 1700000000 by decide)
      (show 1 ≤ 1500000000 by decide) (by decide)
    exact clamped_iff.mpr (Or.inr (by decide))

/-- A span that three divides, and a width a nanosecond below the quotient. -/
theorem resolve_divisions_ne_quotient :
    (0 : Int) ≤ 1000000002 ∧ 3 ≤ mostDivisions ∧ (3 : Int) ∣ 1000000002 ∧
      (divisions 3).resolve 1000000002 = .ok 333333333 ∧
      (divisions 3).resolve 1000000002 ≠ .ok (max 1 (1000000002 / (3 : Nat))) := by
  decide

theorem text_fixed_of_pos {w : Int} (positive : 0 < w) :
    (fixed w).text = HumanDuration.render w.toNat :=
  if_neg (by omega)

/-- The text of a width is read as a duration of its length, and not as a bare number. -/
theorem parseWithMillis_text_fixed {w : Int} (positive : 0 < w) (short : w ≤ Span.longest) :
    Decimal.readUpTo? (HumanDuration.word - 1) (Text.trim (fixed w).text.toList) = none ∧
      ∃ d, HumanDuration.parseWithMillis (fixed w).text = .ok d ∧ Duration.toSpan? d = some w := by
  have whole : (w.toNat : Int) = w := by omega
  have fits : w.toNat / 1000000000 < HumanDuration.word := by
    have most : HumanDuration.word = 18446744073709551616 := rfl
    unfold Span.longest at short
    omega
  obtain ⟨unbare, read⟩ := HumanDuration.parseWithMillis_render fits
  rw [text_fixed_of_pos positive]
  refine ⟨unbare, w.toNat, read, ?_⟩
  rw [Duration.toSpan?, whole, if_pos short]

/-- A width with one or two of every unit, and the longest one. -/
theorem parseWithMillis_text_fixed_everyUnit :
    (fixed 36907693001002001).text = "1year 2months 1day 1h 1m 1s 1ms 2us 1ns" ∧
      (∃ d, HumanDuration.parseWithMillis "1year 2months 1day 1h 1m 1s 1ms 2us 1ns" = .ok d ∧
        Duration.toSpan? d = some 36907693001002001) ∧
      Decimal.readUpTo? (HumanDuration.word - 1)
        (Text.trim "1year 2months 1day 1h 1m 1s 1ms 2us 1ns".toList) = none ∧
      (fixed Span.longest).text = "292271023years 16days 13h 12m 55s 807ms" ∧
      ∃ d, HumanDuration.parseWithMillis "292271023years 16days 13h 12m 55s 807ms" = .ok d ∧
        Duration.toSpan? d = some Span.longest := by
  have every : (fixed 36907693001002001).text = "1year 2months 1day 1h 1m 1s 1ms 2us 1ns" := by
    decide +kernel
  have longest : (fixed Span.longest).text = "292271023years 16days 13h 12m 55s 807ms" := by
    decide +kernel
  obtain ⟨unbare, read⟩ :=
    parseWithMillis_text_fixed (show (0 : Int) < 36907693001002001 by decide) (by decide)
  obtain ⟨-, read'⟩ := parseWithMillis_text_fixed (show (0 : Int) < Span.longest by decide) le_rfl
  rw [every] at unbare read
  rw [longest] at read'
  exact ⟨every, read, unbare, longest, read'⟩

end Width

end InFlight
