import InFlight.Proofs.Decimal
import InFlight.Proofs.Text
import InFlight.Time.HumanDuration
import Mathlib.Tactic.Ring
/-!
A duration is read back from its text. The text is a list of terms, each a number and the name of a
unit. The reader takes the terms one by one and adds them up, and the terms that the writer chooses
add up to the duration.
-/
namespace InFlight

namespace Decimal

theorem isDigitOf_eq_false_of_isAlpha {c : Char} (h : c.isAlpha) : isDigitOf 10 c = false := by
  have letter : (65 ≤ c.val.toNat ∧ c.val.toNat ≤ 90) ∨ (97 ≤ c.val.toNat ∧ c.val.toNat ≤ 122) :=
    Text.toNat_of_isAlpha h
  have same : c.toNat = c.val.toNat := rfl
  unfold isDigitOf digitValue?
  simp only [Char.le_def, UInt32.le_iff_toNat_le, Char.reduceVal, UInt32.reduceToNat]
  rw [if_neg (by omega)]
  by_cases small : 97 ≤ c.val.toNat ∧ c.val.toNat ≤ 102
  · rw [if_pos small, Option.any_some, decide_eq_false_iff_not]
    omega
  by_cases capital : 65 ≤ c.val.toNat ∧ c.val.toNat ≤ 70
  · rw [if_neg small, if_pos capital, Option.any_some, decide_eq_false_iff_not]
    omega
  · rw [if_neg small, if_neg capital, Option.any_none]

/-- A text with a letter is no bare number. -/
theorem readUpTo?_eq_none {c : Char} {s : List Char} (letter : c.isAlpha)
    (mem : c ∈ s) (top : Nat) :
    readUpTo? top s = none := by
  have refused : ∀ digits : List Char, c ∈ digits → read? 10 digits = none := by
    intro digits within
    refine if_neg fun number => ?_
    have digit := List.all_eq_true.mp number.2 c within
    rw [isDigitOf_eq_false_of_isAlpha letter] at digit
    cases digit
  unfold readUpTo?
  split
  · rename_i r
    rcases List.mem_cons.mp mem with rfl | mem
    · exact absurd letter (by decide)
    · simp only [refused r mem, Option.filter_none]
  · simp only [refused s mem, Option.filter_none]

end Decimal

namespace HumanDuration

def chars (s : Placed) : List Char := s.map (·.2)

theorem chars_locate (start : Nat) (s : List Char) : chars (locate start s) = s := by
  induction s generalizing start with
  | nil => rfl
  | cons c r ih => exact congrArg (c :: ·) (ih _)

theorem exists_of_chars_eq_cons {s : Placed} {c : Char} {r : List Char} (h : chars s = c :: r) :
    ∃ p t, s = (p, c) :: t ∧ chars t = r := by
  cases s with
  | nil => cases h
  | cons head t =>
    obtain ⟨rfl, rfl⟩ := List.cons.inj h
    exact ⟨head.1, t, rfl, rfl⟩

section Reader

variable {s : Placed} {r : List Char} {total value : Nat}

theorem fits_of_lt {n : Nat} (h : n < word) : fits n = .ok n := if_pos h

/-- The number at the head of a text, up to the unit behind it. -/
theorem takeValue_digits (finish : Nat) {digits : List Char} {c : Char}
    (text : chars s = digits ++ c :: r) (all : ∀ d ∈ digits, d.isDigit) (letter : c.isAlpha)
    (small : Nat.ofDigitChars 10 digits value < word) :
    ∃ t, takeValue finish value s = .ok (Nat.ofDigitChars 10 digits value, none, t) ∧
      chars t = c :: r := by
  induction digits generalizing s value with
  | nil =>
    obtain ⟨p, t, rfl, rest⟩ := exists_of_chars_eq_cons text
    refine ⟨(p, c) :: t, ?_, text⟩
    simp [takeValue, Text.isDigit_eq_false_of_isAlpha letter,
      Text.isBlank_eq_false_of_isAlpha letter, isUnitLetter, letter]
  | cons d digits ih =>
    obtain ⟨p, t, rfl, rest⟩ := exists_of_chars_eq_cons text
    obtain ⟨digit, others⟩ := List.forall_mem_cons.mp all
    rw [Nat.ofDigitChars_cons] at small ⊢
    -- a number only grows with the digits that follow
    have grown : value * 10 + (d.toNat - 48) < word := by
      rw [Nat.ofDigitChars_eq_ofDigitChars_zero, Nat.mul_comm 10 value] at small
      have least : value * 10 + (d.toNat - 48) ≤ 10 ^ digits.length *
          (value * 10 + (d.toNat - 48)) :=
        Nat.le_mul_of_pos_left _ (Nat.pow_pos (by decide))
      exact lt_of_le_of_lt (least.trans (Nat.le_add_right _ _)) small
    obtain ⟨t', read, left⟩ := ih rest others small
    refine ⟨t', ?_, left⟩
    rw [takeValue, if_pos digit, fits_of_lt (by omega)]
    change (fits (value * 10 + (d.toNat - 48)) >>= fun v => takeValue finish v t) = _
    rw [fits_of_lt grown, Nat.mul_comm value 10]
    exact read

/-- The name of a unit at the head of a text. A blank behind it is dropped. -/
theorem takeUnit_name {name : List Char} (text : chars s = name ++ r)
    (letters : ∀ c ∈ name, c.isAlpha) (stop : ∀ c, r.head? = some c → c = ' ') :
    ∃ t, takeUnit s = .ok (name, t) ∧ chars t = r.tail := by
  induction name generalizing s with
  | nil =>
    cases r with
    | nil =>
      obtain rfl := List.map_eq_nil_iff.mp text
      exact ⟨[], rfl, rfl⟩
    | cons c r =>
      obtain ⟨p, t, rfl, rest⟩ := exists_of_chars_eq_cons text
      obtain rfl := stop c rfl
      exact ⟨t, rfl, rest⟩
  | cons c name ih =>
    obtain ⟨p, t, rfl, rest⟩ := exists_of_chars_eq_cons text
    obtain ⟨letter, others⟩ := List.forall_mem_cons.mp letters
    obtain ⟨t', read, left⟩ := ih rest others
    refine ⟨t', ?_, left⟩
    simp [takeUnit, Text.isDigit_eq_false_of_isAlpha letter,
      Text.isBlank_eq_false_of_isAlpha letter, isUnitLetter, letter, read, bind, Except.bind]

theorem Unit.length_eq (u : Unit) : u.length / u.wholeStep * u.wholeStep = u.length := by
  cases u <;> rfl

theorem addGroup_whole {u : Unit} (small : value * (u.length / u.wholeStep) < word)
    (room : (total + value * u.length) / 1000000000 < word) :
    addGroup total value none u = .ok (total + value * u.length) := by
  have steps : value * (u.length / u.wholeStep) * u.wholeStep = value * u.length := by
    rw [Nat.mul_assoc, u.length_eq]
  unfold addGroup addSteps
  rw [fits_of_lt small]
  simp only [bind, Except.bind]
  rw [steps, if_pos room]

end Reader

structure Term where
  value : Nat
  unit : Unit
  name : String

namespace Term

def text (g : Term) : List Char := Nat.toDigits 10 g.value ++ g.name.toList

def length (g : Term) : Nat := g.value * g.unit.length

structure IsReadable (g : Term) : Prop where
  named : Unit.named? g.name.toList = some g.unit
  letters : ∀ c ∈ g.name.toList, c.isAlpha
  small : g.value * (g.unit.length / g.unit.wholeStep) < word

/-- A number is written as a digit at least. -/
theorem exists_toDigits_eq_cons (g : Term) :
    ∃ d digits, Nat.toDigits 10 g.value = d :: digits ∧ d.isDigit ∧ ∀ c ∈ digits, c.isDigit := by
  obtain ⟨d, digits, shown⟩ :=
    List.exists_cons_of_ne_nil (Nat.toDigits_ne_nil (n := g.value) (b := 10))
  have all : ∀ c ∈ d :: digits, c.isDigit := by
    rw [← shown]
    exact fun c hc => Nat.isDigit_of_mem_toDigits (by decide) (by decide) hc
  exact ⟨d, digits, shown, List.forall_mem_cons.mp all⟩

theorem IsReadable.name_ne_nil {g : Term} (h : g.IsReadable) : g.name.toList ≠ [] := by
  intro empty
  have nameless : Unit.named? [] = none := by decide
  have named := h.named
  rw [empty, nameless] at named
  cases named

theorem IsReadable.value_lt {g : Term} (h : g.IsReadable) : g.value < word := by
  have some_step : 0 < g.unit.length / g.unit.wholeStep := by cases g.unit <;> decide
  exact lt_of_le_of_lt (Nat.le_mul_of_pos_right _ some_step) h.small

end Term

def joined (ts : List Term) : List Char := [' '].intercalate (ts.map Term.text)

/-- What follows a term, the others being behind a blank. -/
def behind : List Term → List Char
  | [] => []
  | g :: ts => ' ' :: joined (g :: ts)

def total (ts : List Term) : Nat := (ts.map Term.length).sum

theorem total_nil : total [] = 0 := List.sum_nil

theorem total_cons (g : Term) (ts : List Term) : total (g :: ts) = g.length + total ts := by
  rw [total, List.map_cons, List.sum_cons, total]

section Terms

variable {g : Term} {ts : List Term}

theorem joined_cons (g : Term) (ts : List Term) : joined (g :: ts) = g.text ++ behind ts := by
  cases ts with
  | nil => simp [joined, behind]
  | cons h ts => simp [joined, behind, List.intercalate_cons_cons]

theorem tail_behind (ts : List Term) : (behind ts).tail = joined ts := by
  cases ts <;> rfl

theorem eq_of_head?_behind {c : Char} (h : (behind ts).head? = some c) : c = ' ' := by
  cases ts with
  | nil => cases h
  | cons g ts => exact (Option.some.inj h).symm

/-- One term is read and the reader stands before the others. -/
theorem addGroups_term (finish fuel : Nat) {s : Placed} {sum : Nat} (readable : g.IsReadable)
    (text : chars s = joined (g :: ts)) (room : (sum + g.length) / 1000000000 < word) :
    ∃ t, addGroups finish sum (fuel + 1) s = addGroups finish (sum + g.length) fuel t ∧
      chars t = joined ts := by
  obtain ⟨d, digits, shown, digit, others⟩ := g.exists_toDigits_eq_cons
  obtain ⟨c, name, named⟩ := List.exists_cons_of_ne_nil readable.name_ne_nil
  have letters := readable.letters
  rw [named] at letters
  rw [joined_cons, Term.text, shown, named] at text
  simp only [List.cons_append, List.append_assoc] at text
  obtain ⟨p, r, rfl, rest⟩ := exists_of_chars_eq_cons text
  have value : Nat.ofDigitChars 10 digits (d.toNat - 48) = g.value := by
    have whole := Nat.ofDigitChars_toDigits (b := 10) (n := g.value) (by decide) (by decide)
    rw [shown, Nat.ofDigitChars_cons] at whole
    simpa using whole
  obtain ⟨t, taken, left⟩ := takeValue_digits finish rest others (letters c List.mem_cons_self)
    (value ▸ readable.value_lt)
  rw [← List.cons_append] at left
  obtain ⟨t', unit, left'⟩ := takeUnit_name left letters fun _ => eq_of_head?_behind
  refine ⟨t', ?_, left'.trans (tail_behind ts)⟩
  have solid := Text.isBlank_eq_false_of_isDigit digit
  have found : findUnit g.value (c :: name) = .ok g.unit := by
    rw [findUnit, ← named, readable.named]
  rw [addGroups, List.dropWhile_cons_of_neg (by simp [solid])]
  simp only [digit, if_true, taken, value, unit, found, addGroup_whole readable.small room,
    bind, Except.bind]
  rfl

/-- A digit at least, and a letter. -/
theorem Term.IsReadable.two_le_length (h : g.IsReadable) : 2 ≤ g.text.length := by
  have digits := List.length_pos_iff.mpr (Nat.toDigits_ne_nil (n := g.value) (b := 10))
  have name := List.length_pos_iff.mpr h.name_ne_nil
  rw [Term.text, List.length_append]
  omega

theorem length_joined_lt (h : g.IsReadable) (ts : List Term) :
    (joined ts).length < (joined (g :: ts)).length := by
  have two := h.two_le_length
  rw [joined_cons, List.length_append, ← tail_behind, List.length_tail]
  omega

/-- All terms are added up. -/
theorem addGroups_joined (finish : Nat) {s : Placed} {sum fuel : Nat}
    (readable : ∀ g ∈ ts, g.IsReadable) (text : chars s = joined ts)
    (room : (sum + total ts) / 1000000000 < word) (fueled : (joined ts).length ≤ fuel) :
    addGroups finish sum fuel s = .ok (sum + total ts) := by
  induction ts generalizing s sum fuel with
  | nil =>
    obtain rfl := List.map_eq_nil_iff.mp text
    cases fuel <;> rfl
  | cons g ts ih =>
    obtain ⟨here, others⟩ := List.forall_mem_cons.mp readable
    have shorter := length_joined_lt here ts
    rw [total_cons, ← Nat.add_assoc] at room ⊢
    cases fuel with
    | zero => omega
    | succ fuel =>
      have room_here : (sum + g.length) / 1000000000 < word :=
        lt_of_le_of_lt (Nat.div_le_div_right (Nat.le_add_right _ _)) room
      obtain ⟨t, step, left⟩ := addGroups_term finish fuel here text room_here
      rw [step]
      exact ih others left room (by omega)

theorem head?_joined (g : Term) (ts : List Term) :
    ∃ d, (joined (g :: ts)).head? = some d ∧ d.isDigit := by
  obtain ⟨d, digits, shown, digit, -⟩ := g.exists_toDigits_eq_cons
  refine ⟨d, ?_, digit⟩
  rw [joined_cons, Term.text, shown]
  rfl

theorem getLast?_joined (readable : ∀ g ∈ ts, g.IsReadable) (some_term : ts ≠ []) :
    ∃ c, (joined ts).getLast? = some c ∧ c.isAlpha := by
  induction ts with
  | nil => exact absurd rfl some_term
  | cons g ts ih =>
    obtain ⟨here, others⟩ := List.forall_mem_cons.mp readable
    rw [joined_cons]
    cases ts with
    | nil =>
      have last := List.getLast?_eq_some_getLast here.name_ne_nil
      refine ⟨_, ?_, here.letters _ (List.getLast_mem here.name_ne_nil)⟩
      rw [behind, List.append_nil, Term.text, List.getLast?_append, last]
      rfl
    | cons h ts =>
      obtain ⟨c, last, letter⟩ := ih others (List.cons_ne_nil _ _)
      refine ⟨c, ?_, letter⟩
      rw [behind, List.getLast?_append, List.getLast?_cons, last]
      rfl

theorem parse_joined (readable : ∀ g ∈ ts, g.IsReadable) (some_term : ts ≠ [])
    (room : total ts / 1000000000 < word) : parse (joined ts) = .ok (total ts) := by
  obtain ⟨g, ts, rfl⟩ := List.exists_cons_of_ne_nil some_term
  obtain ⟨d, head, digit⟩ := head?_joined g ts
  have solid := Text.isBlank_eq_false_of_isDigit digit
  have unblank : ¬ (joined (g :: ts)).all Text.isBlank := by
    intro blanks
    have blank := List.all_eq_true.mp blanks d (List.mem_of_mem_head? head)
    rw [solid] at blank
    cases blank
  have longer : joined (g :: ts) ≠ ['0'] := by
    intro zero
    have two := (readable g List.mem_cons_self).two_le_length
    have length := congrArg List.length zero
    rw [joined_cons, List.length_append, List.length_singleton] at length
    omega
  unfold parse
  rw [if_neg longer, if_neg unblank]
  rw [← Nat.zero_add (total _)] at room
  have added := addGroups_joined (String.ofList (joined (g :: ts))).utf8ByteSize readable
    (chars_locate 0 _) room le_rfl
  rwa [Nat.zero_add] at added

end Terms

/-! The terms of a text, and what they come to. -/

def Term.plural (unit : Unit) (name : String) (n : Nat) :
    Term := ⟨n, unit, if n = 1 then name else name ++ "s"⟩

def Term.shown (g : Term) : Option String := if g.value = 0 then none
    else some (String.ofList g.text)

def termsOf (d : Nat) : List Term :=
  let seconds := d / 1000000000
  let rest := d % 1000000000
  let afterYears := seconds % 31557600
  let afterMonths := afterYears % 2630016
  let afterDays := afterMonths % 86400
  [.plural .year "year" (seconds / 31557600), .plural .month "month" (afterYears / 2630016),
    .plural .day "day" (afterMonths / 86400), ⟨afterDays / 3600, .hour, "h"⟩,
    ⟨afterDays % 3600 / 60, .minute, "m"⟩, ⟨afterDays % 60, .second, "s"⟩,
    ⟨rest / 1000000, .milli, "ms"⟩, ⟨rest / 1000 % 1000, .micro, "us"⟩,
    ⟨rest % 1000, .nano, "ns"⟩]

/-- The terms that are written: of no time at all, no seconds. -/
def writtenTerms (d : Nat) : List Term :=
  if d = 0 then [⟨0, .second, "s"⟩] else (termsOf d).filter (·.value ≠ 0)

theorem ofList_text (g : Term) : String.ofList g.text = toString g.value ++ g.name := by
  rw [Term.text, String.ofList_append, String.ofList_toList]
  rfl

theorem shown_plural (unit : Unit) (name : String) (n : Nat) :
    (Term.plural unit name n).shown = plural name n := by
  unfold Term.shown plural
  rw [ofList_text]
  by_cases one : n = 1
  · simp [Term.plural, one]
  · simp [Term.plural, one, String.append_assoc]

theorem shown_singular (unit : Unit) (name : String) (n : Nat) :
    (Term.mk n unit name).shown = singular name n := by
  unfold Term.shown singular
  rw [ofList_text]

theorem map_shown_termsOf (d : Nat) : (termsOf d).map Term.shown = parts d := by
  simp only [termsOf, parts, List.map_cons, List.map_nil, shown_plural, shown_singular]

theorem filterMap_shown (ts : List Term) :
    (ts.map Term.shown).filterMap id = (ts.filter (·.value ≠ 0)).map fun g =>
      String.ofList g.text := by
  induction ts with
  | nil => rfl
  | cons g ts ih =>
    rw [List.map_cons]
    by_cases none_ : g.value = 0
    · rw [List.filter_cons_of_neg (by simpa using none_), ← ih]
      simp [Term.shown, none_]
    · rw [List.filter_cons_of_pos (by simpa using none_), List.map_cons, ← ih]
      simp [Term.shown, none_]

theorem toList_render (d : Nat) : (render d).toList = joined (writtenTerms d) := by
  unfold render writtenTerms
  by_cases zero : d = 0
  · rw [if_pos zero, if_pos zero]
    decide
  · rw [if_neg zero, if_neg zero, ← map_shown_termsOf, filterMap_shown,
      String.toList_intercalate, List.map_map]
    simp [joined, Function.comp_def]

theorem length_mk (n : Nat) (unit : Unit) (name : String) :
    (Term.mk n unit name).length = n * unit.length := rfl

theorem length_plural (n : Nat) (unit : Unit) (name : String) :
    (Term.plural unit name n).length = n * unit.length :=
  rfl

theorem seconds_eq (n : Nat) :
    n / 31557600 * 31557600 + (n % 31557600 / 2630016 * 2630016 +
      (n % 31557600 % 2630016 / 86400 * 86400 +
      (n % 31557600 % 2630016 % 86400 / 3600 * 3600 +
        (n % 31557600 % 2630016 % 86400 % 3600 / 60 * 60 +
        n % 31557600 % 2630016 % 86400 % 60)))) = n := by
  omega

theorem rest_eq (n : Nat) : n / 1000000 * 1000000 + (n / 1000 % 1000 * 1000 + n % 1000) = n := by
  omega

/-- The units of a duration make up the whole of it. -/
theorem total_termsOf (d : Nat) : total (termsOf d) = d := by
  have units : total (termsOf d) =
      (d / 1000000000 / 31557600 * 31557600 + (d / 1000000000 % 31557600 / 2630016 * 2630016 +
        (d / 1000000000 % 31557600 % 2630016 / 86400 * 86400 +
          (d / 1000000000 % 31557600 % 2630016 % 86400 / 3600 * 3600 +
            (d / 1000000000 % 31557600 % 2630016 % 86400 % 3600 / 60 * 60 +
              d / 1000000000 % 31557600 % 2630016 % 86400 % 60))))) * 1000000000 +
      (d % 1000000000 / 1000000 * 1000000 +
        (d % 1000000000 / 1000 % 1000 * 1000 + d % 1000000000 % 1000)) := by
    -- the sum is opened by lemmas: reduced as a numeral, a product by `10 ^ 9` would be counted out
    rw [termsOf]
    simp only [total_cons, total_nil, length_mk, length_plural]
    simp only [Unit.length]
    ring
  rw [units, seconds_eq, rest_eq, Nat.div_add_mod']

theorem total_filter (ts : List Term) : total (ts.filter (·.value ≠ 0)) = total ts := by
  induction ts with
  | nil => rfl
  | cons g ts ih =>
    by_cases none_ : g.value = 0
    · rw [List.filter_cons_of_neg (by simpa using none_), ih, total_cons, Term.length, none_,
        Nat.zero_mul, Nat.zero_add]
    · rw [List.filter_cons_of_pos (by simpa using none_), total_cons, total_cons, ih]

theorem total_writtenTerms (d : Nat) : total (writtenTerms d) = d := by
  unfold writtenTerms
  by_cases zero : d = 0
  · rw [if_pos zero, zero]
    rfl
  · rw [if_neg zero, total_filter, total_termsOf]

theorem writtenTerms_ne_nil (d : Nat) : writtenTerms d ≠ [] := by
  intro empty
  have whole := total_writtenTerms d
  rw [empty] at whole
  obtain rfl : 0 = d := whole
  cases empty

section Readable

variable {u : Unit} {name : String} {n : Nat}

theorem isReadable_mk (step : Nat) (named : Unit.named? name.toList = some u)
    (letters : name.toList.all Char.isAlpha) (per : u.length / u.wholeStep = step)
    (small : n * step < 18446744073709551616) :
    (Term.mk n u name).IsReadable :=
  ⟨named, List.all_eq_true.mp letters, per ▸ small⟩

theorem isReadable_plural (step : Nat) (one : Unit.named? name.toList = some u)
    (many : Unit.named? (name ++ "s").toList = some u) (letters : name.toList.all Char.isAlpha)
    (per : u.length / u.wholeStep = step) (small : n * step < 18446744073709551616) :
    (Term.plural u name n).IsReadable := by
  unfold Term.plural
  by_cases single : n = 1
  · rw [if_pos single]
    exact isReadable_mk step one letters per small
  · rw [if_neg single]
    refine isReadable_mk step many ?_ per small
    rw [String.toList_append, List.all_append, letters]
    rfl

theorem isReadable_of_mem_termsOf {d : Nat} (h : d / 1000000000 < word) :
    ∀ g ∈ termsOf d, g.IsReadable := by
  replace h : d / 1000000000 < 18446744073709551616 := h
  rw [termsOf]
  simp only [List.forall_mem_cons]
  refine ⟨isReadable_plural 31557600 (by decide) (by decide) (by decide) (by decide) (by omega),
    isReadable_plural 2630016 (by decide) (by decide) (by decide) (by decide) (by omega),
    isReadable_plural 86400 (by decide) (by decide) (by decide) (by decide) (by omega),
    isReadable_mk 3600 (by decide) (by decide) (by decide) (by omega),
    isReadable_mk 60 (by decide) (by decide) (by decide) (by omega),
    isReadable_mk 1 (by decide) (by decide) (by decide) (by omega),
    isReadable_mk 1000000 (by decide) (by decide) (by decide) (by omega),
    isReadable_mk 1000 (by decide) (by decide) (by decide) (by omega),
    isReadable_mk 1 (by decide) (by decide) (by decide) (by omega), ?_⟩
  exact fun g hg => absurd hg List.not_mem_nil

end Readable

theorem isReadable_of_mem_writtenTerms {d : Nat} (h : d / 1000000000 < word) :
    ∀ g ∈ writtenTerms d, g.IsReadable := by
  unfold writtenTerms
  by_cases zero : d = 0
  · rw [if_pos zero, List.forall_mem_singleton]
    exact isReadable_mk 1 (by decide) (by decide) (by decide) (by omega)
  · rw [if_neg zero]
    intro g hg
    exact isReadable_of_mem_termsOf h g (List.mem_of_mem_filter hg)

/-- Every duration whose seconds fit a word is read back, the shortest and the longest too. -/
theorem parse_render {d : Nat} (h : d / 1000000000 < word) : parse (render d).toList = .ok d := by
  have read := parse_joined (isReadable_of_mem_writtenTerms h) (writtenTerms_ne_nil d)
    (by rwa [total_writtenTerms])
  rwa [total_writtenTerms, ← toList_render] at read

theorem trim_joined {ts : List Term} (readable : ∀ g ∈ ts, g.IsReadable) (some_term : ts ≠ []) :
    Text.trim (joined ts) = joined ts := by
  obtain ⟨c, last, letter⟩ := getLast?_joined readable some_term
  obtain ⟨g, ts, rfl⟩ := List.exists_cons_of_ne_nil some_term
  obtain ⟨d, head, digit⟩ := head?_joined g ts
  obtain ⟨r, shown⟩ := List.head?_eq_some_iff.mp head
  have solid := Text.isBlank_eq_false_of_isDigit digit
  have start : Text.trimStart (joined (g :: ts)) = joined (g :: ts) := by
    rw [shown]
    exact Text.trimStart_eq_self_of_head solid
  rw [Text.trim, start]
  exact Text.trimEnd_eq_self_of_getLast? last (Text.isBlank_eq_false_of_isAlpha letter)

/-- A text that a duration is written as is never taken for a bare number of milliseconds. -/
theorem parseWithMillis_render {d : Nat} (h : d / 1000000000 < word) :
    Decimal.readUpTo? (word - 1) (Text.trim (render d).toList) = none ∧
    parseWithMillis (render d) = .ok d := by
  have readable := isReadable_of_mem_writtenTerms h
  obtain ⟨c, last, letter⟩ := getLast?_joined readable (writtenTerms_ne_nil d)
  have trimmed : Text.trim (render d).toList = (render d).toList := by
    rw [toList_render]
    exact trim_joined readable (writtenTerms_ne_nil d)
  have named : c ∈ (render d).toList := by
    rw [toList_render]
    exact List.mem_of_getLast? last
  have bare := Decimal.readUpTo?_eq_none letter named (word - 1)
  rw [trimmed]
  refine ⟨bare, ?_⟩
  unfold parseWithMillis
  simp only [trimmed, bare, parse_render h]

end HumanDuration

end InFlight
