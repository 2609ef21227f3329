import InFlight.Decimal.Natural
import Mathlib.Algebra.GroupWithZero.Nat
import Mathlib.Data.List.Basic
import Mathlib.Data.List.TakeWhile
/-!
Decimal numbers are read back from the digits they are written with, leading zeros or not.
-/
namespace InFlight.Decimal

theorem toList_padded (width n : Nat) : (padded width n).toList =
    List.replicate (width - (Nat.toDigits 10 n).length) '0' ++ Nat.toDigits 10 n := by
  simp [padded, String.length]

theorem isDigit_of_mem_padded {width n : Nat} {c : Char} (h : c ∈ (padded width n).toList) :
    c.isDigit := by
  rw [toList_padded, List.mem_append] at h
  rcases h with zero | digit
  · obtain rfl := List.eq_of_mem_replicate zero
    rfl
  · exact Nat.isDigit_of_mem_toDigits (by decide) (by decide) digit

theorem length_padded {width n : Nat} (pos : 0 < width) (h : n < 10 ^ width) :
    (padded width n).toList.length = width := by
  have short := (Nat.length_toDigits_le_iff (b := 10) (by decide) pos).mpr h
  rw [toList_padded, List.length_append, List.length_replicate]
  omega

theorem padded_ne_nil (width n : Nat) : (padded width n).toList ≠ [] := by
  simp [toList_padded]

theorem ofDigits_eq_ofDigitChars {ds : List Char} (h : ∀ c ∈ ds, c.isDigit) (start : Nat) :
    ds.foldl (fun n c => 10 * n + (digitValue? c).getD 0) start = Nat.ofDigitChars 10 ds start := by
  induction ds generalizing start with
  | nil => simp
  | cons c ds ih =>
    obtain ⟨first, others⟩ := List.forall_mem_cons.mp h
    have bounds : '0' ≤ c ∧ c ≤ '9' := by simpa [Char.isDigit, Char.le_def] using first
    have value : digitValue? c = some (c.toNat - 48) := if_pos bounds
    rw [List.foldl_cons, ih others, Nat.ofDigitChars_cons, value]
    rfl

theorem ofDigits_padded (width n : Nat) : ofDigits 10 (padded width n).toList = n := by
  unfold ofDigits
  rw [ofDigits_eq_ofDigitChars fun c hc => isDigit_of_mem_padded hc, toList_padded,
    Nat.ofDigitChars_append]
  simp

theorem ofDigits_toDigits (n : Nat) : ofDigits 10 (Nat.toDigits 10 n) = n := by
  unfold ofDigits
  rw [ofDigits_eq_ofDigitChars fun c hc => Nat.isDigit_of_mem_toDigits (by decide) (by decide) hc]
  simp

theorem ofDigits_lt {ds : List Char} (h : ∀ c ∈ ds, c.isDigit) :
    ofDigits 10 ds < 10 ^ ds.length := by
  unfold ofDigits
  rw [ofDigits_eq_ofDigitChars h]
  induction ds with
  | nil => simp
  | cons c ds ih =>
    obtain ⟨first, others⟩ := List.forall_mem_cons.mp h
    have value : c.toNat - 48 ≤ 9 := by
      have := (Char.isDigit_iff_toNat.mp first).2
      simp at this
      omega
    have rest := ih others
    have leading : 10 ^ ds.length * (c.toNat - 48) ≤ 10 ^ ds.length * 9 :=
      Nat.mul_le_mul_left _ value
    rw [Nat.ofDigitChars_cons, Nat.ofDigitChars_eq_ofDigitChars_zero,
      List.length_cons, Nat.pow_succ]
    simp only [Nat.mul_zero, Nat.zero_add, Char.reduceToNat]
    omega

section Take

variable {ds r : List Char} {most : Nat}

theorem takeDigits_append (digits : ∀ c ∈ ds, c.isDigit) (short : ds.length ≤ most)
    (stop : ds.length = most ∨ ∀ c, r.head? = some c → c.isDigit = false) :
    takeDigits most (ds ++ r) = (ds, r) := by
  have taken : ((ds ++ r).take most).takeWhile Char.isDigit = ds := by
    rw [List.take_append, List.take_of_length_le short, List.takeWhile_append_of_pos digits]
    rcases stop with exact | stop
    · simp [exact]
    · have none_left : (r.take (most - ds.length)).takeWhile Char.isDigit = [] := by
        cases r with
        | nil => simp
        | cons c t =>
          cases most - ds.length with
          | zero => rfl
          | succ k => simp [stop c rfl]
      rw [none_left, List.append_nil]
  unfold takeDigits
  rw [taken]
  simp

theorem takeNumber?_padded {width n : Nat} (short : (padded width n).toList.length ≤ most)
    (stop : (padded width n).toList.length = most ∨ ∀ c, r.head? = some c → c.isDigit = false) :
    takeNumber? most ((padded width n).toList ++ r) = some (n, r) := by
  unfold takeNumber?
  rw [takeDigits_append (fun c hc => isDigit_of_mem_padded hc) short stop]
  split
  · rename_i empty
    exact absurd (Prod.mk.inj empty).1 (padded_ne_nil width n)
  · rename_i same
    obtain ⟨rfl, rfl⟩ := Prod.mk.inj same
    rw [ofDigits_padded]

end Take

end InFlight.Decimal
