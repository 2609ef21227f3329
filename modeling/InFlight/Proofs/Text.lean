import InFlight.Text.Blank
import InFlight.Text.Digit
import InFlight.Text.Lines
import Mathlib.Algebra.GroupWithZero.Nat
import Mathlib.Data.List.Basic
import Mathlib.Data.List.TakeWhile
/-!
Texts taken apart: what trimming takes away is blanks, and what a line feed parts are lines of their
own.
-/
namespace InFlight.Text

section Blanks

variable {s a : List Char}

def IsBlanks (s : List Char) : Prop := ∀ c ∈ s, isBlank c

theorem isBlanks_nil : IsBlanks [] := by simp [IsBlanks]

theorem IsBlanks.not_mem {c : Char} (h : IsBlanks s) (solid : isBlank c = false) : c ∉ s := by
  intro hc
  have blank := h c hc
  rw [solid] at blank
  cases blank

theorem IsBlanks.append (ha : IsBlanks a) (hs : IsBlanks s) : IsBlanks (a ++ s) := by
  intro c hc
  rcases List.mem_append.mp hc with hc | hc
  · exact ha c hc
  · exact hs c hc

theorem trimStart_append_of_isBlanks (h : IsBlanks a) (s : List Char) :
    trimStart (a ++ s) = trimStart s :=
  List.dropWhile_append_of_pos h

theorem exists_isBlanks_append_trimStart (s : List Char) : ∃ a, IsBlanks a ∧ s = a ++ trimStart s :=
  ⟨s.takeWhile isBlank, fun _ hc => List.mem_takeWhile_imp hc, List.takeWhile_append_dropWhile.symm⟩

theorem trimEnd_append_of_isBlanks (s : List Char) (h : IsBlanks a) :
    trimEnd (s ++ a) = trimEnd s := by
  unfold trimEnd
  rw [List.reverse_append, trimStart_append_of_isBlanks (fun c hc => h c (List.mem_reverse.mp hc))]

theorem trimEnd_eq_self_of_getLast? {c : Char} (h : s.getLast? = some c)
    (solid : isBlank c = false) :
    trimEnd s = s := by
  obtain ⟨t, rfl⟩ : ∃ t, s = t ++ [c] := List.getLast?_eq_some_iff.mp h
  unfold trimEnd
  rw [List.reverse_append, List.reverse_singleton, List.singleton_append,
    trimStart_eq_self_of_head solid]
  simp

theorem exists_trimEnd_append_isBlanks (s : List Char) : ∃ a, IsBlanks a ∧ s = trimEnd s ++ a := by
  obtain ⟨a, blanks, same⟩ := exists_isBlanks_append_trimStart s.reverse
  refine ⟨a.reverse, fun c hc => blanks c (List.mem_reverse.mp hc), ?_⟩
  unfold trimEnd
  rw [← List.reverse_append, ← same, List.reverse_reverse]

theorem isBlank_eq_false_of_isDecimal {c : Char} (h : isDecimal c) : isBlank c = false := by
  obtain ⟨start, run, within⟩ := List.any_eq_true.mp h
  simp only [Bool.and_eq_true, decide_eq_true_eq] at within
  obtain ⟨k, below, same⟩ : ∃ k < 10, c.toNat = start + k := ⟨c.toNat - start, by omega, by omega⟩
  have apart : ∀ start ∈ decimalZeros, ∀ k < 10, isBlank (Char.ofNat (start + k)) = false := by
    decide +kernel
  have again := apart start run k below
  rwa [← same, Char.ofNat_toNat] at again

theorem toNat_of_isAlpha {c : Char} (h : c.isAlpha) :
    (65 ≤ c.toNat ∧ c.toNat ≤ 90) ∨ (97 ≤ c.toNat ∧ c.toNat ≤ 122) := by
  rcases (Bool.or_eq_true ..).mp h with upper | lower
  · exact Or.inl (of_decide_eq_true upper)
  · have both : (decide (97 ≤ c.toNat) && decide (c.toNat ≤ 122)) = true := lower
    obtain ⟨low, high⟩ := (Bool.and_eq_true ..).mp both
    exact Or.inr ⟨of_decide_eq_true low, of_decide_eq_true high⟩

theorem isBlank_eq_false_of_isAlpha {c : Char} (h : c.isAlpha) : isBlank c = false := by
  have letter := toNat_of_isAlpha h
  simp [isBlank]
  omega

theorem isDigit_eq_false_of_isAlpha {c : Char} (h : c.isAlpha) : c.isDigit = false := by
  have letter := toNat_of_isAlpha h
  simp [Char.isDigit, UInt32.le_iff_toNat_le]
  omega

theorem isDecimal_of_isDigit {c : Char} (h : c.isDigit) : isDecimal c := by
  obtain ⟨low, high⟩ : 48 ≤ c.toNat ∧ c.toNat ≤ 57 := by
    simpa [Char.isDigit, UInt32.le_iff_toNat_le] using h
  exact List.any_eq_true.mpr ⟨0x30, by decide, by simp; omega⟩

theorem isBlank_eq_false_of_isDigit {c : Char} (h : c.isDigit) : isBlank c = false :=
  isBlank_eq_false_of_isDecimal (isDecimal_of_isDigit h)

end Blanks

section Lines

variable {line : List Char}

theorem splitLines_append_feed (s r : List Char) :
    splitLines (s ++ '\n' :: r) = splitLines s ++ splitLines r := by
  induction s with
  | nil => simp [splitLines]
  | cons c t ih =>
    by_cases feed : c = '\n'
    · simp [splitLines, feed, ih]
    · obtain ⟨piece, pieces, split⟩ := List.exists_cons_of_ne_nil (splitLines_ne_nil t)
      simp [splitLines, feed, ih, split]

theorem splitLines_of_not_mem (h : '\n' ∉ line) : splitLines line = [line] := by
  induction line with
  | nil => rfl
  | cons c t ih =>
    rw [List.mem_cons, not_or] at h
    simp [splitLines, ih h.2, Ne.symm h.1]

theorem lines_append_feed (h : '\n' ∉ line) (r : List Char) :
    lines (line ++ '\n' :: r) = chompReturn line :: lines r := by
  obtain ⟨piece, pieces, split⟩ := List.exists_cons_of_ne_nil (splitLines_ne_nil r)
  unfold lines
  rw [splitLines_append_feed, splitLines_of_not_mem h, split]
  rfl

theorem lines_of_not_mem (h : '\n' ∉ line) : lines line = if line = [] then [] else [line] := by
  unfold lines
  rw [splitLines_of_not_mem h]
  rfl

theorem chompReturn_eq_self_or (s : List Char) :
    chompReturn s = s ∨ s = chompReturn s ++ ['\r'] := by
  unfold chompReturn
  split
  · rename_i ret
    exact Or.inr (List.dropLast_append_getLast? '\r' ret).symm
  · exact Or.inl rfl

theorem chompReturn_sublist (s : List Char) : (chompReturn s).Sublist s := by
  unfold chompReturn
  split
  · exact List.dropLast_sublist s
  · exact List.Sublist.refl s

/-- A text has no more lines than characters, and each is found in it. -/
theorem lines_within (s : List Char) :
    (lines s).length ≤ s.length ∧ ∀ line ∈ lines s, line.Sublist s := by
  induction n : s.length using Nat.strong_induction_on generalizing s with
  | h n ih =>
    by_cases feed : '\n' ∈ s
    · obtain ⟨line, rest, rfl, unfed⟩ := List.eq_append_cons_of_mem feed
      rw [List.length_append, List.length_cons] at n
      obtain ⟨fewer, inside⟩ := ih rest.length (by omega) rest rfl
      rw [lines_append_feed unfed]
      refine ⟨by rw [List.length_cons]; omega, List.forall_mem_cons.mpr ⟨?_, fun l among => ?_⟩⟩
      · exact (chompReturn_sublist line).trans (List.sublist_append_left line _)
      · exact (inside l among).trans
          ((List.sublist_cons_self _ rest).trans (List.sublist_append_right line _))
    · rw [lines_of_not_mem feed]
      split
      · simp
      · rename_i some_text
        have pos := List.length_pos_iff.mpr some_text
        exact ⟨by rw [List.length_singleton]; omega, by simp⟩

def IsEnding (s : List Char) : Prop := s = ['\n'] ∨ s = ['\r', '\n']

theorem IsEnding.isBlanks {ending : List Char} (h : IsEnding ending) : IsBlanks ending := by
  rcases h with rfl | rfl <;> simp [IsBlanks] <;> decide

end Lines

section Size

variable {s t : List Char}

def byteSize (s : List Char) : Nat := (s.map Char.utf8Size).sum

@[simp] theorem byteSize_nil : byteSize [] = 0 := rfl

@[simp] theorem byteSize_cons (c : Char) (s : List Char) :
    byteSize (c :: s) = c.utf8Size + byteSize s := by
  simp [byteSize]

@[simp] theorem byteSize_append (s t : List Char) :
    byteSize (s ++ t) = byteSize s + byteSize t := by
  simp [byteSize]

theorem utf8ByteSize_eq_byteSize (s : String) : s.utf8ByteSize = byteSize s.toList := by
  obtain ⟨l, rfl⟩ : ∃ l, s = String.ofList l := ⟨s.toList, String.ofList_toList.symm⟩
  rw [String.toList_ofList]
  induction l with
  | nil => rfl
  | cons c l ih =>
    rw [String.ofList_cons, String.utf8ByteSize_append, String.utf8ByteSize_singleton, ih,
      byteSize_cons]

theorem length_le_byteSize (s : List Char) : s.length ≤ byteSize s := by
  induction s with
  | nil => simp
  | cons c s ih =>
    have one := c.utf8Size_pos
    rw [byteSize_cons, List.length_cons]
    omega

theorem byteSize_le_four_mul_length (s : List Char) : byteSize s ≤ 4 * s.length := by
  induction s with
  | nil => simp
  | cons c s ih =>
    have four := c.utf8Size_le_four
    rw [byteSize_cons, List.length_cons]
    omega

theorem byteSize_le_of_sublist (h : s.Sublist t) : byteSize s ≤ byteSize t := by
  induction h with
  | slnil => exact Nat.le_refl _
  | cons c _ ih => rw [byteSize_cons]; omega
  | cons_cons c _ ih => rw [byteSize_cons, byteSize_cons]; omega

end Size

end InFlight.Text
