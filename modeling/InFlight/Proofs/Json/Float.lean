import InFlight.Proofs.Json.RoundTrip
/-!
Every double is written as JSON spells its values: as a number without needless zeros before its
point, or as null.
-/
namespace InFlight

namespace Decimal

def Scaled.IsReduced (d : Scaled) : Prop := d.digits = 0 → d.exponent = 0

theorem Scaled.isReduced_of_pos {d : Scaled} (h : 0 < d.digits) :
    d.IsReduced := fun zero => by omega

theorem Scaled.IsReduced.strip {d : Scaled} (h : d.IsReduced) (fuel : Nat) :
    (d.strip fuel).IsReduced := by
  induction fuel generalizing d with
  | zero => exact h
  | succ fuel ih =>
    unfold Scaled.strip
    split
    · rename_i ends
      refine ih (isReduced_of_pos ?_)
      change 0 < d.digits / 10
      omega
    · exact h

theorem tenTo_pos (n : Nat) : 0 < tenTo n := Nat.pow_pos (by decide)
theorem twoTo_pos (n : Nat) : 0 < twoTo n := Nat.pow_pos (by decide)

namespace Shortest

variable {i : Interval} {place : Int} {d : Scaled}

theorem Interval.le_of_holds {low mid high : Nat} (h : i.Holds low mid high) : low ≤ mid := by
  unfold Holds at h
  split at h
  · simp only [Bool.and_eq_true, decide_eq_true_eq] at h
    exact h.1
  · simp only [Bool.and_eq_true, decide_eq_true_eq] at h
    exact Nat.le_of_lt h.1

/-- Zero lies in no interval above zero. -/
theorem Interval.pos_of_onGrid? (above : 0 < i.low) (h : i.onGrid? place = some d) :
    0 < d.digits := by
  have scale := tenTo_pos (-place).toNat
  have positive (n step : Nat) (inside : i.Holds (i.low * tenTo (-place).toNat) (n * step)
      (i.high * tenTo (-place).toNat)) : 0 < n := by
    apply Nat.pos_of_ne_zero
    rintro rfl
    have low := le_of_holds inside
    rw [Nat.zero_mul] at low
    exact absurd (Nat.mul_pos above scale) (Nat.not_lt.mpr low)
  unfold onGrid? at h
  dsimp only at h
  split at h
  · rename_i taken
    rw [Bool.and_eq_true] at taken
    rw [← Option.some.inj h]
    exact positive _ _ taken.1
  · split at h
    · rw [← Option.some.inj h]
      exact Nat.succ_pos _
    · cases h

theorem Interval.isReduced_search (above : 0 < i.low) (tries : Nat) :
    (i.search place tries).IsReduced := by
  induction tries generalizing place with
  | zero => exact fun _ => rfl
  | succ tries ih =>
    unfold search
    split
    · rename_i found
      exact Scaled.isReduced_of_pos (pos_of_onGrid? above found)
    · exact ih

/-- The double below a double above zero is no less than zero, and half the way to it is more. -/
theorem low_interval_pos {mantissa : Nat} (some_bit : mantissa ≠ 0) (exponent : Int) :
    0 < (interval mantissa exponent).low := by
  have unit := twoTo_pos exponent.toNat
  have value : twoTo exponent.toNat ≤ mantissa * twoTo exponent.toNat :=
    Nat.le_mul_of_pos_left _ (Nat.pos_of_ne_zero some_bit)
  unfold interval Binary64.ratio
  dsimp only
  split <;> omega

theorem isReduced_ofFinite (mantissa : Nat) (exponent : Int) :
    (ofFinite mantissa exponent).IsReduced := by
  unfold ofFinite
  split
  · exact fun _ => rfl
  · rename_i some_bit
    exact Interval.isReduced_search (low_interval_pos some_bit exponent) 18

end Shortest

end Decimal

namespace Json

open Decimal (Scaled)

theorem IsWhole.append_zeros {ds : List Char} (h : IsWhole ds) {k : Nat}
    (alone : ds = ['0'] → k = 0) :
    IsWhole (ds ++ List.replicate k '0') := by
  refine ⟨by simp [h.1], ?_⟩
  rintro c t leading
  obtain ⟨first, rest, rfl⟩ := List.exists_cons_of_ne_nil h.1
  rw [List.cons_append, List.cons.injEq] at leading
  obtain ⟨rfl, others⟩ := leading
  cases rest with
  | nil => simp [alone rfl] at others
  | cons d rest => exact h.2 d rest rfl

theorem IsWhole.take {ds : List Char} (h : IsWhole ds) (k : Nat) : IsWhole (ds.take (k + 1)) := by
  obtain ⟨first, rest, rfl⟩ := List.exists_cons_of_ne_nil h.1
  refine ⟨by simp, ?_⟩
  rintro c t leading
  rw [List.take_succ_cons, List.cons.injEq] at leading
  obtain ⟨rfl, others⟩ := leading
  cases rest with
  | nil => simp at others
  | cons d rest => exact h.2 d rest rfl

theorem Number.isSpelt_layOut (negative : Bool) {d : Scaled} (reduced : d.IsReduced) :
    (layOut negative d).IsSpelt := by
  have text : (toString d.digits).toList = Nat.toDigits 10 d.digits := by simp
  have whole := isWhole_toDigits d.digits
  have digit : ∀ c ∈ Nat.toDigits 10 d.digits, c.isDigit := fun c hc =>
    Nat.isDigit_of_mem_toDigits (by decide) (by decide) hc
  have alone : Nat.toDigits 10 d.digits = ['0'] → d.exponent.toNat = 0 := by
    intro zero
    have value := Decimal.ofDigits_toDigits d.digits
    rw [zero] at value
    rw [reduced value.symm]
    rfl
  unfold layOut
  rw [text]
  generalize Nat.toDigits 10 d.digits = ds at whole digit alone
  have zeros (k : Nat) : ∀ c ∈ List.replicate k '0', c.isDigit :=
    fun c hc => List.eq_of_mem_replicate hc ▸ rfl
  have length : 0 < ds.length := List.length_pos_iff.mpr whole.1
  dsimp only
  split
  · split
    · refine ⟨⟨by simp, by simp⟩, by simp [Char.isDigit], ?_, nofun⟩
      rintro _ ⟨⟩
      exact ⟨by simp [whole.1], List.forall_mem_append.mpr ⟨zeros _, digit⟩⟩
    · split
      · refine ⟨whole.append_zeros alone, List.forall_mem_append.mpr ⟨digit, zeros _⟩, ?_, nofun⟩
        rintro _ ⟨⟩
        exact ⟨by simp, by simp [Char.isDigit]⟩
      · rename_i leading exponent
        refine ⟨whole.take _, fun c hc => digit c (List.mem_of_mem_take hc), ?_, nofun⟩
        rintro _ ⟨⟩
        refine ⟨?_, fun c hc => digit c (List.mem_of_mem_drop hc)⟩
        rw [ne_eq, List.drop_eq_nil_iff]
        omega
  · refine ⟨whole.take 0, fun c hc => digit c (List.mem_of_mem_take hc), ?_, ?_⟩
    · intro fraction there
      dsimp only at there
      split at there
      · cases there
      · obtain rfl := Option.some.inj there
        refine ⟨?_, fun c hc => digit c (List.mem_of_mem_drop hc)⟩
        rw [ne_eq, List.drop_eq_nil_iff]
        omega
    · rintro below exponent ⟨⟩
      simp only [Nat.toString_eq_repr, Nat.toList_repr]
      refine ⟨Nat.toDigits_ne_nil, fun c hc => ?_⟩
      exact Nat.isDigit_of_mem_toDigits (by decide) (by decide) hc

theorem Number.isSpelt_of_ofFloat? {x : Float} {n : Number} (h : ofFloat? x = some n) :
    n.IsSpelt := by
  unfold ofFloat? at h
  split at h
  · rw [← Option.some.inj h]
    exact isSpelt_layOut _ ((Decimal.Shortest.isReduced_ofFinite _ _).strip 20)
  · cases h

theorem writable_ofFloat (x : Float) : Writable (ofFloat x) := by
  unfold ofFloat
  split
  · rename_i found
    exact .number (Number.isSpelt_of_ofFloat? found)
  · exact .null

/-- What is written for the double is read as the same double. -/
def IsExact (x : Float) : Prop := (read? (write none (ofFloat x))).bind float? = some x

instance (x : Float) : Decidable (IsExact x) := inferInstanceAs (Decidable (_ = _))

theorem IsExact.float?_ofFloat {x : Float} (h : IsExact x) : float? (ofFloat x) = some x := by
  have read := h
  rw [IsExact, read?_write (writable_ofFloat x)] at read
  exact read

end Json

end InFlight
