import InFlight.Time.Instant
import Mathlib.Order.Basic
/-!
Instants are linearly ordered by their readings. Outside leap seconds a reading is a whole number of
nanoseconds, and addition on the calendar is addition of nanoseconds, cut off at the last instant.
-/
namespace InFlight.Instant

instance : LinearOrder Instant where
  le_refl t := Int.le_refl t.ticks
  le_trans _ _ _ h k := Int.le_trans h k
  lt_iff_le_not_ge _ _ := Int.lt_iff_le_and_not_ge
  le_antisymm _ _ h k := ext_ticks (Int.le_antisymm h k)
  le_total s t := Int.le_total s.ticks t.ticks
  toDecidableLE := inferInstance
  toDecidableEq := inferInstance
  toDecidableLT := inferInstance

structure IsPlain (t : Instant) : Prop where
  noLeap : t.isLeap = false
  inCalendar : t.InCalendar

instance (t : Instant) : Decidable t.IsPlain :=
  decidable_of_iff (t.isLeap = false ∧ t.InCalendar) ⟨fun h => ⟨h.1, h.2⟩, fun h => ⟨h.1, h.2⟩⟩

@[simp] theorem toNanos_first : first.toNanos = -8334601228800000000000 := toNanos_ofNanos _
@[simp] theorem toNanos_last : last.toNanos = 8210266876799999999999 := toNanos_ofNanos _

theorem inCalendar_ofNanos (n : Int) :
    (ofNanos n).InCalendar ↔ first.toNanos ≤ n ∧ n ≤ last.toNanos := by
  rw [toNanos_first, toNanos_last]
  simp only [InCalendar, day, second, ofNanos, firstDay, lastDay]
  omega

theorem isPlain_ofNanos (n : Int) : (ofNanos n).IsPlain ↔ first.toNanos ≤ n ∧ n ≤ last.toNanos :=
  ⟨fun h => (inCalendar_ofNanos n).mp h.inCalendar,
    fun h => ⟨isLeap_ofNanos n, (inCalendar_ofNanos n).mpr h⟩⟩

namespace IsPlain

variable {t : Instant}

theorem ofNanos_toNanos (h : t.IsPlain) : ofNanos t.toNanos = t := Instant.ofNanos_toNanos h.noLeap

/-- A plain reading is a number of nanoseconds within the calendar. -/
theorem exists_ofNanos (h : t.IsPlain) :
    ∃ n, t = ofNanos n ∧ first.toNanos ≤ n ∧ n ≤ last.toNanos := by
  refine ⟨t.toNanos, h.ofNanos_toNanos.symm, (isPlain_ofNanos t.toNanos).mp ?_⟩
  rw [h.ofNanos_toNanos]
  exact h

end IsPlain

section Plus

variable {s t : Instant}

theorem plus_eq_ofNanos (h : t.isLeap = false) (d : Int) : t.plus d = ofNanos (t.toNanos + d) := by
  unfold plus
  simp [h]

theorem plus_le_plus_iff (hs : s.isLeap = false) (ht : t.isLeap = false) (d : Int) :
    s.plus d ≤ t.plus d ↔ s ≤ t := by
  rw [plus_eq_ofNanos hs, plus_eq_ofNanos ht, ofNanos_le_ofNanos, ← ofNanos_toNanos hs,
    ← ofNanos_toNanos ht, ofNanos_le_ofNanos, toNanos_ofNanos, toNanos_ofNanos]
  omega

theorem since_plus (hs : s.isLeap = false) (ht : t.isLeap = false) (d : Int) :
    (t.plus d).since (s.plus d) = t.since s := by
  rw [plus_eq_ofNanos hs, plus_eq_ofNanos ht, since_ofNanos, since_eq_sub ht hs]
  omega

end Plus

theorem plus_zero (t : Instant) : t.plus 0 = t := by
  unfold plus
  cases leap : t.isLeap with
  | false => simpa using ofNanos_toNanos leap
  | true =>
    have within : ¬ 2000000000 ≤ t.nanos := by
      simp only [nanos]
      omega
    simp [within]

/-- Time goes on, in a leap second too. -/
theorem lt_plus (t : Instant) {d : Int} (positive : 0 < d) : t < t.plus d := by
  have seconds := Int.tdiv_eq_ediv_of_nonneg (b := 1000000000) (Int.le_of_lt positive)
  have rest := Int.tmod_eq_emod_of_nonneg (b := 1000000000) (Int.le_of_lt positive)
  rw [lt_iff]
  unfold plus
  dsimp only
  rw [seconds, rest]
  cases leap : t.isLeap with
  | false =>
    have before := (isLeap_eq_false_iff t).mp leap
    simp only [Bool.false_eq_true, if_false, ofNanos, toNanos, second, nanos] at before ⊢
    omega
  | true =>
    have behind : 1000000000 ≤ t.nanos := by simpa [isLeap] using leap
    simp only [if_true]
    split
    · simp only [ofNanos, toNanos, second, nanos] at *
      omega
    · split
      · omega
      · simp only [nanos] at *
        omega

/-- A walk through the calendar goes on until it has reached the last instant. -/
theorem lt_plusWithin {t : Instant} {d : Int} (positive : 0 < d) (before : t < last) :
    t < t.plusWithin d := by
  unfold plusWithin
  split
  · exact lt_plus t positive
  · exact before

theorem le_plus (t : Instant) {d : Int} (h : 0 ≤ d) : t ≤ t.plus d := by
  rcases Int.lt_or_eq_of_le h with positive | rfl
  · exact le_of_lt (lt_plus t positive)
  · exact le_of_eq (plus_zero t).symm

section Since

variable {s t : Instant}

/-- A second that is counted lies between the two readings. -/
theorem leapBetween_le (h : s ≤ t) : leapBetween t s ≤ t.second - s.second := by
  rw [le_iff] at h
  unfold leapBetween
  by_cases behind : s.secondOfDay < t.secondOfDay ∧ s.isLeap
  · have apart := behind.1
    rw [if_pos behind]
    simp only [secondOfDay, second] at apart ⊢
    omega
  · rw [if_neg behind]
    split <;> (simp only [second]; omega)

/-- Between two readings of a clock lie no more nanoseconds than readings. -/
theorem since_le_ticks (h : s ≤ t) : t.since s ≤ t.ticks - s.ticks := by
  have leap := leapBetween_le h
  rw [le_iff] at h
  simp only [since, second, nanos] at leap ⊢
  omega

theorem leapBetween_le_one (t s : Instant) : leapBetween t s ≤ 1 := by
  unfold leapBetween
  split
  · exact Int.le_refl 1
  · split <;> decide

theorem leapBetween_nonpos (t : Instant) (h : s.isLeap = false) : leapBetween t s ≤ 0 := by
  unfold leapBetween
  rw [h, if_neg (by simp)]
  split <;> decide

/-- The span to a leap second may lead out of it, to the plain reading of as many nanoseconds. -/
theorem plus_le_of_le_since {d : Int} (some_span : 0 ≤ d) (within : d ≤ t.since s) (h : s ≤ t) :
    s.plus d ≤ t ∨ s.plus d ≤ ofNanos t.toNanos := by
  unfold since at within
  cases away : s.isLeap with
  | false =>
    have leap := leapBetween_nonpos t away
    right
    rw [plus_eq_ofNanos away, ofNanos_le_ofNanos, toNanos, toNanos]
    omega
  | true =>
    have behind : 1000000000 ≤ s.nanos := by simpa [isLeap] using away
    have leap := leapBetween_le_one t s
    have leap' := leapBetween_le h
    have seconds := Int.tdiv_eq_ediv_of_nonneg (b := 1000000000) some_span
    have rest := Int.tmod_eq_emod_of_nonneg (b := 1000000000) some_span
    unfold plus
    dsimp only
    rw [seconds, rest, away, if_pos rfl]
    by_cases leaves : 0 < d / 1000000000 ∨ 2000000000 ≤ s.nanos + d % 1000000000
    · right
      rw [if_pos leaves, ofNanos_le_ofNanos, toNanos, toNanos]
      omega
    · left
      rw [if_neg leaves, if_neg (by omega), le_iff]
      simp only [le_iff, second, nanos] at *
      omega

end Since

section Calendar

variable {r s t : Instant}

/-- The calendar has no gaps. -/
theorem InCalendar.between (early : r.InCalendar) (late : t.InCalendar) (h : r ≤ s) (k : s ≤ t) :
    s.InCalendar := by
  simp only [InCalendar, day, second, le_iff] at *
  omega

theorem inCalendar_first : first.InCalendar := by decide
theorem inCalendar_last : last.InCalendar := by decide

theorem IsPlain.first_le (h : t.IsPlain) : first ≤ t := by
  obtain ⟨n, rfl, early, -⟩ := h.exists_ofNanos
  rwa [first, toNanos_ofNanos, ← ofNanos_le_ofNanos] at early

theorem IsPlain.le_last (h : t.IsPlain) : t ≤ last := by
  obtain ⟨n, rfl, -, late⟩ := h.exists_ofNanos
  rwa [last, toNanos_ofNanos, ← ofNanos_le_ofNanos] at late

theorem inCalendar_plusWithin (t : Instant) (d : Int) : (t.plusWithin d).InCalendar := by
  unfold plusWithin
  split
  · assumption
  · exact inCalendar_last

theorem ofNanos_toNanos_le_last (h : t ≤ last) : ofNanos t.toNanos ≤ last := by
  simp only [le_iff, last, ofNanos, toNanos, second, nanos] at *
  omega

/-- The way to an instant up to the last one of the calendar stays in the calendar. -/
theorem inCalendar_plus_of_le_since {d : Int} (early : first ≤ s) (h : s ≤ t) (late : t ≤ last)
    (some_span : 0 ≤ d) (within : d ≤ t.since s) : (s.plus d).InCalendar := by
  have reach : s.plus d ≤ last := by
    rcases plus_le_of_le_since some_span within h with before | before
    · exact le_trans before late
    · exact le_trans before (ofNanos_toNanos_le_last late)
  exact inCalendar_first.between inCalendar_last (le_trans early (le_plus s some_span)) reach

end Calendar

/-- Addition stops at the last instant of the calendar. -/
theorem plusWithin_ofNanos {n d : Int} (hn : first.toNanos ≤ n) (hd : 0 ≤ d) :
    (ofNanos n).plusWithin d = ofNanos (min (n + d) last.toNanos) := by
  unfold plusWithin
  rw [plus_ofNanos]
  by_cases h : n + d ≤ last.toNanos
  · rw [if_pos ((inCalendar_ofNanos (n + d)).mpr ⟨by omega, h⟩), Int.min_eq_left h]
  · have out : ¬ (ofNanos (n + d)).InCalendar := by
      rw [inCalendar_ofNanos]
      omega
    rw [if_neg out, Int.min_eq_right (by omega), last, toNanos_ofNanos]

theorem plusWithin_last {d : Int} (positive : 0 < d) : last.plusWithin d = last := by
  have stays := plusWithin_ofNanos (n := last.toNanos) (d := d) (by simp) (Int.le_of_lt positive)
  rw [Int.min_eq_right (by omega)] at stays
  rwa [show ofNanos last.toNanos = last by rw [last, toNanos_ofNanos]] at stays

/-- The last instant of the calendar is the only one that time goes back to. -/
theorem plusWithin_eq_last {t : Instant} {d : Int} (positive : 0 < d) (back : t.plusWithin d ≤ t) :
    t.plusWithin d = last := by
  unfold plusWithin at back ⊢
  split at back
  · exact absurd back (not_le.mpr (lt_plus t positive))
  · rw [if_neg ‹_›]

/-- No step leads behind the last instant of the calendar. -/
theorem plusWithin_le_last {t : Instant} (h : t ≤ last) (d : Int) : t.plusWithin d ≤ last := by
  have plain (n : Int) (inside : (ofNanos n).InCalendar) : ofNanos n ≤ last := by
    rw [last, ofNanos_le_ofNanos, ← toNanos_ofNanos 8210266876799999999999]
    exact ((inCalendar_ofNanos n).mp inside).2
  unfold plusWithin
  split
  · rename_i inside
    cases leap : t.isLeap with
    | false =>
      rw [plus_eq_ofNanos leap] at inside ⊢
      exact plain _ inside
    | true =>
      have behind : 1000000000 ≤ t.nanos := by simpa [isLeap] using leap
      unfold plus at inside ⊢
      dsimp only at inside ⊢
      rw [leap, if_pos rfl] at inside ⊢
      split
      · rename_i out
        rw [if_pos out] at inside
        exact plain _ inside
      · rename_i stays
        rw [if_neg stays] at inside
        split
        · rename_i back
          rw [if_pos back] at inside
          exact plain _ inside
        · simp only [le_iff, last, ofNanos, nanos] at *
          omega
  · exact le_refl last

/-- The last second of the calendar is the last of its day, so that no other leap second is
counted. -/
theorem last_lt_since {t : Instant} (f : Int) (inside : t.InCalendar) (late : last < t) :
    last.toNanos < f + t.since (ofNanos f) := by
  have none_ : leapBetween t (ofNanos f) = 0 := by
    unfold leapBetween
    rw [isLeap_ofNanos, if_neg (by simp), if_neg]
    rintro ⟨before, -⟩
    simp only [lt_iff, last, ofNanos, InCalendar, lastDay, day, second, secondOfDay] at *
    omega
  rw [since, none_]
  simp only [lt_iff, last, ofNanos, toNanos, InCalendar, lastDay, day, second, nanos] at *
  omega

end InFlight.Instant
