import InFlight.Json.Reader
import InFlight.Json.Record
import Mathlib.Data.List.Basic
import Mathlib.Data.List.TakeWhile
/-!
What the reader of JSON has read stays read: neither more fuel nor more text behind the value
changes it, except that a number may go on where it stood at the end of the text.
-/
namespace InFlight.Json

section Space

variable {s t : List Char}

def IsSpaces (s : List Char) : Prop := ∀ c ∈ s, isSpace c

theorem skipSpace_spaces_append (h : IsSpaces s) (t : List Char) :
    skipSpace (s ++ t) = skipSpace t :=
  List.dropWhile_append_of_pos h

theorem skipSpace_eq_nil_iff : skipSpace s = [] ↔ IsSpaces s := List.dropWhile_eq_nil_iff

theorem skipSpace_cons_of_not {c : Char} (h : isSpace c = false) : skipSpace (c :: s) = c :: s :=
  List.dropWhile_cons_of_neg (by simp [h])

theorem skipSpace_append (h : skipSpace s ≠ []) (t : List Char) :
    skipSpace (s ++ t) = skipSpace s ++ t := by
  unfold skipSpace at *
  rw [List.dropWhile_append, if_neg (by simpa using h)]

end Space

section Number

variable {s r x : List Char}

def isNumeric (c : Char) : Bool := c.isDigit || c == '.' || c == 'e' || c == 'E' ||
    c == '+' || c == '-'

def IsNumericBefore (s r : List Char) : Prop := ∃ used, s = used ++ r ∧ ∀ c ∈ used, isNumeric c

theorem IsNumericBefore.refl (s : List Char) : IsNumericBefore s s := ⟨[], rfl, by simp⟩

theorem IsNumericBefore.trans {t : List Char} (h : IsNumericBefore s t) (k : IsNumericBefore t r) :
    IsNumericBefore s r := by
  obtain ⟨a, rfl, ha⟩ := h
  obtain ⟨b, rfl, hb⟩ := k
  refine ⟨a ++ b, by simp, fun c hc => ?_⟩
  rcases List.mem_append.mp hc with hc | hc
  · exact ha c hc
  · exact hb c hc

theorem IsNumericBefore.cons {c : Char} (numeric : isNumeric c) (h : IsNumericBefore s r) :
    IsNumericBefore (c :: s) r := by
  obtain ⟨a, rfl, ha⟩ := h
  exact ⟨c :: a, rfl, List.forall_mem_cons.mpr ⟨numeric, ha⟩⟩

theorem IsNumericBefore.ne_nil (h : IsNumericBefore s r) (rest : r ≠ []) : s ≠ [] := by
  obtain ⟨a, rfl, -⟩ := h
  exact fun empty => rest (List.append_eq_nil_iff.mp empty).2

/-- Numeric characters do not reach past one that is none. -/
theorem IsNumericBefore.exists_cons {y : List Char} {d : Char} (h : IsNumericBefore (y ++ d :: x) r)
    (stop : isNumeric d = false) : ∃ c t, r = c :: t ∧ c ∈ y ++ [d] := by
  obtain ⟨used, same, numeric⟩ := h
  induction used generalizing y with
  | nil =>
    cases y with
    | nil => exact ⟨d, x, same.symm, by simp⟩
    | cons b y => exact ⟨b, y ++ d :: x, same.symm, by simp⟩
  | cons u used ih =>
    obtain ⟨first, others⟩ := List.forall_mem_cons.mp numeric
    cases y with
    | nil =>
      obtain rfl := (List.cons.inj same).1
      simp [first] at stop
    | cons b y =>
      obtain ⟨c, t, rest, among⟩ := ih (List.cons.inj same).2 others
      exact ⟨c, t, rest, List.mem_cons_of_mem _ among⟩

theorem digits_append (h : (digits s).2 ≠ []) (x : List Char) :
    digits (s ++ x) = ((digits s).1, (digits s).2 ++ x) := by
  have more : (s.takeWhile Char.isDigit).length ≠ s.length := by
    intro all
    have split :=
      congrArg List.length (List.takeWhile_append_dropWhile (p := Char.isDigit) (l := s))
    rw [List.length_append] at split
    exact h (List.eq_nil_of_length_eq_zero (by simp only [digits]; omega))
  have rest : s.dropWhile Char.isDigit ≠ [] := h
  unfold digits
  rw [List.takeWhile_append, if_neg more, List.dropWhile_append, if_neg (by simpa using rest)]

theorem isNumericBefore_digits (s : List Char) : IsNumericBefore s (digits s).2 := by
  refine ⟨s.takeWhile Char.isDigit, List.takeWhile_append_dropWhile.symm, fun c hc => ?_⟩
  simp [isNumeric, List.mem_takeWhile_imp hc]

/-- Digits that a number may have before its point. -/
def IsWhole (ds : List Char) : Prop := ds ≠ [] ∧ ∀ c t, ds ≠ '0' :: c :: t

theorem whole?_eq_some_iff {ds : List Char} :
    whole? s = some (ds, r) ↔ digits s = (ds, r) ∧ IsWhole ds := by
  unfold whole? IsWhole
  split
  · simp_all
  · rename_i c t rest zero
    rw [zero]
    refine iff_of_false nofun ?_
    rintro ⟨same, -, no_zero⟩
    exact no_zero c t (Prod.mk.inj same).1.symm
  · rename_i some_digit no_zero
    constructor
    · rintro h
      rw [Option.some.inj h] at some_digit no_zero ⊢
      exact ⟨rfl, fun empty => some_digit r (by rw [empty]), fun c t zero =>
        no_zero c t r (by rw [zero])⟩
    · rintro ⟨h, -⟩
      rw [h]

theorem fraction?_eq_some_iff {ds : Option (List Char)} : fraction? s = some (ds, r) ↔
    (∃ t d, s = '.' :: t ∧ digits t = (d, r) ∧ d ≠ [] ∧ ds = some d) ∨
      (s.head? ≠ some '.' ∧ ds = none ∧ r = s) := by
  unfold fraction?
  split
  · rename_i t
    split
    · simp_all
    · rename_i d rest some_digit eq
      constructor
      · rintro h
        simp only [Option.some.injEq, Prod.mk.injEq] at h
        obtain ⟨rfl, rfl⟩ := h
        exact Or.inl ⟨t, d, rfl, eq, fun empty => some_digit (by rw [empty]), rfl⟩
      · rintro (⟨t', d', same, eq', -, rfl⟩ | ⟨point, -⟩)
        · obtain rfl := (List.cons.inj same).2
          simp_all
        · exact absurd rfl point
  · rename_i no_point
    have head : s.head? ≠ some '.' := by
      cases s with
      | nil => simp
      | cons c t =>
        simp only [List.head?_cons, ne_eq, Option.some.injEq]
        rintro rfl
        exact no_point t rfl
    constructor
    · rintro h
      simp only [Option.some.injEq, Prod.mk.injEq] at h
      exact Or.inr ⟨head, h.1.symm, h.2.symm⟩
    · rintro (⟨t, d, rfl, -⟩ | ⟨-, rfl, rfl⟩)
      · exact absurd rfl head
      · rfl

def sign (s : List Char) : Bool × List Char :=
  match s with
  | '-' :: r => (true, r)
  | '+' :: r => (false, r)
  | r => (false, r)

theorem exponent?_eq_some_iff {e : Option (Bool × List Char)} : exponent? s = some (e, r) ↔
    (∃ c t d, s = c :: t ∧ (c = 'e' ∨ c = 'E') ∧ digits (sign t).2 = (d, r) ∧ d ≠ [] ∧
      e = some ((sign t).1, d)) ∨
      (s.head? ≠ some 'e' ∧ s.head? ≠ some 'E' ∧ e = none ∧ r = s) := by
  unfold exponent?
  cases s with
  | nil => simp [eq_comm]
  | cons c t =>
    dsimp only
    by_cases mark : c = 'e' ∨ c = 'E'
    · rw [if_pos mark]
      have headed : ¬ (c ≠ 'e' ∧ c ≠ 'E') := fun other => mark.elim other.1 other.2
      simp only [List.head?_cons, ne_eq, Option.some.injEq]
      rw [or_iff_left (fun other => headed ⟨other.1, other.2.1⟩)]
      split
      · rename_i rest eq
        have found : digits (sign t).2 = ([], rest) := eq
        refine iff_of_false (Option.some_ne_none _).symm ?_
        rintro ⟨c', t', d', same, -, eq, some_digit, -⟩
        obtain ⟨rfl, rfl⟩ := List.cons.inj same
        rw [found] at eq
        exact some_digit (Prod.mk.inj eq).1.symm
      · rename_i d rest some_digit eq
        have found : digits (sign t).2 = (d, rest) := eq
        simp only [Option.some.injEq, Prod.mk.injEq, List.cons.injEq]
        constructor
        · rintro ⟨rfl, rfl⟩
          exact ⟨c, t, d, ⟨rfl, rfl⟩, mark, found, some_digit, rfl⟩
        · rintro ⟨c', t', d', ⟨rfl, rfl⟩, -, eq, -, rfl⟩
          rw [found] at eq
          obtain ⟨rfl, rfl⟩ := Prod.mk.inj eq
          exact ⟨rfl, rfl⟩
    · rw [if_neg mark]
      simp only [not_or] at mark
      simp [mark, eq_comm]

def minus (s : List Char) : Bool × List Char :=
  match s with
  | '-' :: r => (true, r)
  | r => (false, r)

theorem number?_eq_some_iff {n : Number} : number? s = some (n, r) ↔
    ∃ s₁ s₂, whole? (minus s).2 = some (n.whole, s₁) ∧ fraction? s₁ = some (n.fraction, s₂) ∧
      exponent? s₂ = some (n.exponent, r) ∧ (minus s).1 = n.negative := by
  have steps : number? s = (whole? (minus s).2).bind fun w => (fraction? w.2).bind fun f =>
      (exponent? f.2).bind
      fun e => some (⟨(minus s).1, w.1, f.1, e.1⟩, e.2) := rfl
  rw [steps]
  obtain ⟨negative, whole, fraction, exponent⟩ := n
  simp only [Option.bind_eq_some_iff, Prod.exists, Option.some.injEq, Prod.mk.injEq,
    Number.mk.injEq]
  constructor
  · rintro ⟨_, s₁, hw, _, s₂, hf, _, _, he, ⟨sign, rfl, rfl, rfl⟩, rfl⟩
    exact ⟨s₁, s₂, hw, hf, he, sign⟩
  · rintro ⟨s₁, s₂, hw, hf, he, sign⟩
    exact ⟨_, s₁, hw, _, s₂, hf, _, _, he, ⟨sign, rfl, rfl, rfl⟩, rfl⟩

/-- How much of a text a reader takes does not hang on the text behind, where it stops before the
end. -/
def Settles {α : Type} (f : List Char → Option (α × List Char)) : Prop :=
  ∀ ⦃s a r⦄, f s = some (a, r) → r ≠ [] → ∀ x, f (s ++ x) = some (a, r ++ x)

theorem sign_append (h : s ≠ []) (x : List Char) :
    sign (s ++ x) = ((sign s).1, (sign s).2 ++ x) := by
  obtain ⟨c, t, rfl⟩ := List.exists_cons_of_ne_nil h
  unfold sign
  split <;> simp_all

theorem minus_append (h : s ≠ []) (x : List Char) :
    minus (s ++ x) = ((minus s).1, (minus s).2 ++ x) := by
  obtain ⟨c, t, rfl⟩ := List.exists_cons_of_ne_nil h
  unfold minus
  split <;> simp_all

theorem isNumericBefore_sign (s : List Char) : IsNumericBefore s (sign s).2 := by
  unfold sign
  split
  · exact .cons (by decide) (.refl _)
  · exact .cons (by decide) (.refl _)
  · exact .refl _

theorem isNumericBefore_minus (s : List Char) : IsNumericBefore s (minus s).2 := by
  unfold minus
  split
  · exact .cons (by decide) (.refl _)
  · exact .refl _

theorem isNumericBefore_whole? {ds : List Char} (h : whole? s = some (ds, r)) :
    IsNumericBefore s r := by
  have found := (whole?_eq_some_iff.mp h).1
  have before := isNumericBefore_digits s
  rwa [found] at before

theorem isNumericBefore_fraction? {ds : Option (List Char)} (h : fraction? s = some (ds, r)) :
    IsNumericBefore s r := by
  rcases fraction?_eq_some_iff.mp h with ⟨t, d, rfl, found, -, -⟩ | ⟨-, -, rfl⟩
  · have before := isNumericBefore_digits t
    rw [found] at before
    exact before.cons (by decide)
  · exact .refl _

theorem isNumericBefore_exponent? {e : Option (Bool × List Char)} (h : exponent? s = some (e, r)) :
    IsNumericBefore s r := by
  rcases exponent?_eq_some_iff.mp h with ⟨c, t, d, rfl, mark, found, -, -⟩ | ⟨-, -, -, rfl⟩
  · have before := isNumericBefore_digits (sign t).2
    rw [found] at before
    have numeric : isNumeric c := by rcases mark with rfl | rfl <;> decide
    exact ((isNumericBefore_sign t).trans before).cons numeric
  · exact .refl _

theorem isNumericBefore_number? {n : Number} (h : number? s = some (n, r)) :
    IsNumericBefore s r := by
  obtain ⟨s₁, s₂, hw, hf, he, -⟩ := number?_eq_some_iff.mp h
  exact (isNumericBefore_minus s).trans
    ((isNumericBefore_whole? hw).trans
      ((isNumericBefore_fraction? hf).trans (isNumericBefore_exponent? he)))

theorem settles_whole? : Settles whole? := by
  intro s ds r h rest x
  obtain ⟨found, whole⟩ := whole?_eq_some_iff.mp h
  refine whole?_eq_some_iff.mpr ⟨?_, whole⟩
  rw [digits_append (by rwa [found]), found]

theorem settles_fraction? : Settles fraction? := by
  intro s ds r h rest x
  rcases fraction?_eq_some_iff.mp h with ⟨t, d, rfl, found, some_digit, rfl⟩ | ⟨no_point, rfl, rfl⟩
  · refine fraction?_eq_some_iff.mpr (Or.inl ⟨t ++ x, d, rfl, ?_, some_digit, rfl⟩)
    rw [digits_append (by rwa [found]), found]
  · refine fraction?_eq_some_iff.mpr (Or.inr ⟨?_, rfl, rfl⟩)
    rwa [List.head?_append_of_ne_nil _ rest]

theorem settles_exponent? : Settles exponent? := by
  intro s e r h rest x
  rcases exponent?_eq_some_iff.mp h with ⟨c, t, d, rfl, mark, found, some_digit, rfl⟩ |
      ⟨lower, upper, rfl, rfl⟩
  · have behind : (digits (sign t).2).2 ≠ [] := by rwa [found]
    have some_text : t ≠ [] :=
      ((isNumericBefore_sign t).trans (isNumericBefore_digits (sign t).2)).ne_nil behind
    refine exponent?_eq_some_iff.mpr (Or.inl ⟨c, t ++ x, d, rfl, mark, ?_, some_digit, ?_⟩)
    · rw [sign_append some_text, digits_append behind, found]
    · rw [sign_append some_text]
  · refine exponent?_eq_some_iff.mpr (Or.inr ⟨?_, ?_, rfl, rfl⟩)
    · rwa [List.head?_append_of_ne_nil _ rest]
    · rwa [List.head?_append_of_ne_nil _ rest]

theorem settles_number? : Settles number? := by
  intro s n r h rest x
  obtain ⟨s₁, s₂, hw, hf, he, negative⟩ := number?_eq_some_iff.mp h
  have rest₂ := (isNumericBefore_exponent? he).ne_nil rest
  have rest₁ := (isNumericBefore_fraction? hf).ne_nil rest₂
  have some_text := (isNumericBefore_number? h).ne_nil rest
  refine number?_eq_some_iff.mpr ⟨s₁ ++ x, s₂ ++ x, ?_, settles_fraction? hf rest₂ x,
    settles_exponent? he rest x, ?_⟩
  · rw [minus_append some_text]
    exact settles_whole? hw rest₁ x
  · rw [minus_append some_text]
    exact negative

end Number

section Text

variable {s r x : List Char}

theorem hexFour?_append {code : Nat} (h : hexFour? s = some (code, r)) (x : List Char) :
    hexFour? (s ++ x) = some (code, r ++ x) := by
  unfold hexFour? at h
  split at h
  · obtain ⟨n, read, same⟩ := Option.map_eq_some_iff.mp h
    obtain ⟨rfl, rfl⟩ := Prod.mk.inj same
    simp [hexFour?, read]
  · cases h

theorem escape?_append {u : Unit} (h : escape? s = some (u, r)) (x : List Char) :
    escape? (s ++ x) = some (u, r ++ x) := by
  unfold escape? at h
  split at h
  case h_9 t =>
    obtain ⟨⟨code, rest⟩, read, same⟩ := Option.map_eq_some_iff.mp h
    obtain ⟨rfl, rfl⟩ := Prod.mk.inj same
    simp [escape?, hexFour?_append read x]
  case h_10 => cases h
  all_goals
    simp only [Option.some.injEq, Prod.mk.injEq] at h
    obtain ⟨rfl, rfl⟩ := h
    rfl

theorem units?_append {fuel more : Nat} {us : List Unit} (h : units? fuel s = some (us, r))
    (le : fuel ≤ more) (x : List Char) : units? more (s ++ x) = some (us, r ++ x) := by
  induction fuel generalizing s us more with
  | zero => simp [units?] at h
  | succ fuel ih =>
    obtain ⟨more, rfl⟩ : ∃ m, more = m + 1 := ⟨more - 1, by omega⟩
    cases s with
    | nil => simp [units?] at h
    | cons c t =>
      unfold units? at h
      rw [List.cons_append]
      unfold units?
      by_cases quote : c = '"'
      · simp only [if_pos quote, Option.some.injEq, Prod.mk.injEq] at h ⊢
        obtain ⟨rfl, rfl⟩ := h
        exact ⟨rfl, rfl⟩
      · rw [if_neg quote] at h ⊢
        by_cases backslash : c = '\\'
        · simp only [if_pos backslash, Option.bind_eq_bind, Option.bind_eq_some_iff,
            Prod.exists] at h ⊢
          obtain ⟨u, t', escaped, vs, rest, read, same⟩ := h
          obtain ⟨rfl, rfl⟩ := Prod.mk.inj (Option.some.inj same)
          exact ⟨u, t' ++ x, escape?_append escaped x, vs, rest ++ x, ih read (by omega), rfl⟩
        · rw [if_neg backslash] at h ⊢
          by_cases control : c.toNat < 0x20
          · simp [control] at h
          · simp only [if_neg control, Option.bind_eq_bind, Option.bind_eq_some_iff,
              Prod.exists] at h ⊢
            obtain ⟨vs, rest, read, same⟩ := h
            obtain ⟨rfl, rfl⟩ := Prod.mk.inj (Option.some.inj same)
            exact ⟨vs, rest ++ x, ih read (by omega), rfl⟩

theorem string?_append {text : Option String} (h : string? s = some (text, r)) (x : List Char) :
    string? (s ++ x) = some (text, r ++ x) := by
  unfold string? at *
  obtain ⟨⟨us, rest⟩, read, same⟩ := Option.map_eq_some_iff.mp h
  obtain ⟨rfl, rfl⟩ := Prod.mk.inj same
  rw [units?_append read (by simp) x]
  rfl

theorem word?_append {word : List Char} (h : word? word s = some r) (x : List Char) :
    word? word (s ++ x) = some (r ++ x) := by
  unfold word? at *
  by_cases here : word.isPrefixOf s
  · obtain ⟨t, rfl⟩ := List.isPrefixOf_iff_prefix.mp here
    simp only [if_pos here, Option.some.injEq] at h
    subst h
    simp
  · simp [here] at h

end Text

inductive ValueAt (fuel : Nat) : List Char → Json → List Char → Prop where
  | string {t r : List Char} {text : Option String} : string? t = some (text, r) →
      ValueAt fuel ('"' :: t) (.string text) r
  | emptyArray {t r : List Char} : skipSpace t = ']' :: r → ValueAt fuel ('[' :: t) (.array []) r
  | array {t r : List Char} {items : List Json} : (skipSpace t).head? ≠ some ']' →
      items? fuel t = some (items, r) → ValueAt fuel ('[' :: t) (.array items) r
  | emptyObject {t r : List Char} : skipSpace t = '\x7d' :: r →
      ValueAt fuel ('\x7b' :: t) (.object []) r
  | object {t r : List Char} {members : List (Option String × Json)} :
      (skipSpace t).head? ≠ some '\x7d' →
      members? fuel t = some (members, r) → ValueAt fuel ('\x7b' :: t) (.object members) r
  | yes {t r : List Char} : word? ['r', 'u', 'e'] t = some r →
      ValueAt fuel ('t' :: t) (.bool true) r
  | no {t r : List Char} : word? ['a', 'l', 's', 'e'] t = some r →
      ValueAt fuel ('f' :: t) (.bool false) r
  | null {t r : List Char} : word? ['u', 'l', 'l'] t = some r → ValueAt fuel ('n' :: t) .null r
  | number {c : Char} {t r : List Char} {n : Number} : c ∉ ['"', '[', '\x7b', 't', 'f', 'n'] →
      number? (c :: t) = some (n, r) → ValueAt fuel (c :: t) (.number n) r

theorem value?_succ_eq_some_iff {fuel : Nat} {s r : List Char} {v : Json} :
    value? (fuel + 1) s = some (v, r) ↔ ValueAt fuel (skipSpace s) v r := by
  unfold value?
  constructor
  · intro h
    split at h
    case h_1 => cases h
    case h_2 t eq =>
      obtain ⟨⟨text, rest⟩, read, same⟩ := Option.map_eq_some_iff.mp h
      obtain ⟨rfl, rfl⟩ := Prod.mk.inj same
      exact eq ▸ .string read
    case h_3 t eq =>
      split at h
      · rename_i close
        obtain ⟨rfl, rfl⟩ := Prod.mk.inj (Option.some.inj h)
        exact eq ▸ .emptyArray close
      · rename_i no_close
        obtain ⟨⟨items, rest⟩, read, same⟩ := Option.map_eq_some_iff.mp h
        obtain ⟨rfl, rfl⟩ := Prod.mk.inj same
        exact eq ▸ .array (fun close => no_close _ (List.eq_cons_of_mem_head? close)) read
    case h_4 t eq =>
      split at h
      · rename_i close
        obtain ⟨rfl, rfl⟩ := Prod.mk.inj (Option.some.inj h)
        exact eq ▸ .emptyObject close
      · rename_i no_close
        obtain ⟨⟨members, rest⟩, read, same⟩ := Option.map_eq_some_iff.mp h
        obtain ⟨rfl, rfl⟩ := Prod.mk.inj same
        exact eq ▸ .object (fun close => no_close _ (List.eq_cons_of_mem_head? close)) read
    case h_5 t eq =>
      obtain ⟨rest, read, same⟩ := Option.map_eq_some_iff.mp h
      obtain ⟨rfl, rfl⟩ := Prod.mk.inj same
      exact eq ▸ .yes read
    case h_6 t eq =>
      obtain ⟨rest, read, same⟩ := Option.map_eq_some_iff.mp h
      obtain ⟨rfl, rfl⟩ := Prod.mk.inj same
      exact eq ▸ .no read
    case h_7 t eq =>
      obtain ⟨rest, read, same⟩ := Option.map_eq_some_iff.mp h
      obtain ⟨rfl, rfl⟩ := Prod.mk.inj same
      exact eq ▸ .null read
    case h_8 nil quote bracket brace t f n =>
      obtain ⟨⟨number, rest⟩, read, same⟩ := Option.map_eq_some_iff.mp h
      obtain ⟨rfl, rfl⟩ := Prod.mk.inj same
      obtain ⟨c, u, eq⟩ := List.exists_cons_of_ne_nil nil
      rw [eq] at read ⊢
      refine .number ?_ read
      simp only [List.mem_cons, List.not_mem_nil, or_false, not_or]
      exact ⟨fun h => quote u (h ▸ eq), fun h => bracket u (h ▸ eq), fun h => brace u (h ▸ eq),
        fun h => t u (h ▸ eq), fun h => f u (h ▸ eq), fun h => n u (h ▸ eq)⟩
  · intro h
    cases eq : skipSpace s with
    | nil => rw [eq] at h; cases h
    | cons c t =>
      rw [eq] at h
      cases h with
      | string read => simp [read]
      | emptyArray close => simp [close]
      | array no_close read =>
        have apart : ∀ u, skipSpace t ≠ ']' :: u := fun u close => no_close (by rw [close]; rfl)
        simp [read]
      | emptyObject close => simp [close]
      | object no_close read =>
        have apart : ∀ u, skipSpace t ≠ '\x7d' :: u := fun u close => no_close (by rw [close]; rfl)
        simp [read]
      | yes read => simp [read]
      | no read => simp [read]
      | null read => simp [read]
      | number other read =>
        simp only [List.mem_cons, List.not_mem_nil, or_false, not_or] at other
        split <;> simp_all

theorem items?_succ_eq_some_iff {fuel : Nat} {s r : List Char} {items : List Json} :
    items? (fuel + 1) s = some (items, r) ↔ ∃ item s', value? fuel s = some (item, s') ∧
      ((∃ t rest, skipSpace s' = ',' :: t ∧ items? fuel t = some (rest, r) ∧ items = item :: rest) ∨
        (skipSpace s' = ']' :: r ∧ items = [item])) := by
  rw [items?]
  simp only [Option.bind_eq_bind, Option.bind_eq_some_iff, Prod.exists]
  constructor
  · rintro ⟨item, s', read, h⟩
    refine ⟨item, s', read, ?_⟩
    split at h
    · rename_i t comma
      obtain ⟨⟨rest, r'⟩, tail, same⟩ := Option.bind_eq_some_iff.mp h
      obtain ⟨rfl, rfl⟩ := Prod.mk.inj (Option.some.inj same)
      exact Or.inl ⟨t, rest, comma, tail, rfl⟩
    · rename_i t close
      obtain ⟨rfl, rfl⟩ := Prod.mk.inj (Option.some.inj h)
      exact Or.inr ⟨close, rfl⟩
    · cases h
  · rintro ⟨item, s', read, ⟨t, rest, comma, tail, rfl⟩ | ⟨close, rfl⟩⟩
    · exact ⟨item, s', read, by simp [comma, tail]⟩
    · exact ⟨item, s', read, by simp [close]⟩

theorem members?_succ_eq_some_iff {fuel : Nat} {s r : List Char} {members : Members} :
    members? (fuel + 1) s = some (members, r) ↔ ∃ t name t₁ t₂ value t₃, skipSpace s = '"' :: t ∧
      string? t = some (name, t₁) ∧ skipSpace t₁ = ':' :: t₂ ∧ value? fuel t₂ = some (value, t₃) ∧
      ((∃ t₄ rest, skipSpace t₃ = ',' :: t₄ ∧
          members? fuel t₄ = some (rest, r) ∧ members = (name, value) :: rest) ∨
        (skipSpace t₃ = '\x7d' :: r ∧ members = [(name, value)])) := by
  rw [members?]
  constructor
  · intro h
    split at h
    · rename_i t quote
      obtain ⟨⟨name, t₁⟩, named, h⟩ := Option.bind_eq_some_iff.mp h
      dsimp only at h
      split at h
      · rename_i t₂ colon
        obtain ⟨⟨value, t₃⟩, read, h⟩ := Option.bind_eq_some_iff.mp h
        refine ⟨t, name, t₁, t₂, value, t₃, quote, named, colon, read, ?_⟩
        dsimp only at h
        split at h
        · rename_i t₄ comma
          obtain ⟨⟨rest, r'⟩, tail, same⟩ := Option.bind_eq_some_iff.mp h
          obtain ⟨rfl, rfl⟩ := Prod.mk.inj (Option.some.inj same)
          exact Or.inl ⟨t₄, rest, comma, tail, rfl⟩
        · rename_i close
          obtain ⟨rfl, rfl⟩ := Prod.mk.inj (Option.some.inj h)
          exact Or.inr ⟨close, rfl⟩
        · cases h
      · cases h
    · cases h
  · rintro ⟨t, name, t₁, t₂, value, t₃, quote, named, colon, read,
      ⟨t₄, rest, comma, tail, rfl⟩ | ⟨close, rfl⟩⟩
    · simp [quote, named, colon, read, comma, tail]
    · simp [quote, named, colon, read, close]

theorem value?_spaces_append {a : List Char} (h : IsSpaces a) (fuel : Nat) (s : List Char) :
    value? fuel (a ++ s) = value? fuel s := by
  cases fuel with
  | zero => rfl
  | succ fuel => rw [value?, value?, skipSpace_spaces_append h]

theorem items?_spaces_append {a : List Char} (h : IsSpaces a) (fuel : Nat) (s : List Char) :
    items? fuel (a ++ s) = items? fuel s := by
  cases fuel with
  | zero => rfl
  | succ fuel => rw [items?, items?, value?_spaces_append h]

def BeginsValue (c : Char) : Prop := c ∈ ['"', '[', '\x7b', 't', 'f', 'n', '-'] ∨ c.isDigit

instance (c : Char) : Decidable (BeginsValue c) := inferInstanceAs (Decidable (_ ∨ _))

theorem beginsValue_of_number? {c : Char} {t r : List Char} {n : Number}
    (h : number? (c :: t) = some (n, r)) :
    BeginsValue c := by
  obtain ⟨s₁, -, whole, -⟩ := number?_eq_some_iff.mp h
  obtain ⟨found, some_digit, -⟩ := whole?_eq_some_iff.mp whole
  by_cases negative : c = '-'
  · exact Or.inl (by simp [negative])
  · have same : minus (c :: t) = (false, c :: t) := by unfold minus; split <;> simp_all
    rw [same] at found
    right
    by_contra not_digit
    have empty : [] = n.whole := by simpa [digits, not_digit] using congrArg Prod.fst found
    exact some_digit empty.symm

theorem beginsValue_of_value? {fuel : Nat} {s r : List Char} {v : Json}
    (h : value? fuel s = some (v, r)) :
    ∃ c t, skipSpace s = c :: t ∧ BeginsValue c := by
  cases fuel with
  | zero => simp [value?] at h
  | succ fuel =>
    rw [value?_succ_eq_some_iff] at h
    generalize skipSpace s = t at h
    cases h with
    | number _ read => exact ⟨_, _, rfl, beginsValue_of_number? read⟩
    | _ => exact ⟨_, _, rfl, Or.inl (by decide)⟩

theorem beginsValue_of_items? {fuel : Nat} {s r : List Char} {items : List Json}
    (h : items? fuel s = some (items, r)) : ∃ c t, skipSpace s = c :: t ∧ BeginsValue c := by
  cases fuel with
  | zero => simp [items?] at h
  | succ fuel =>
    obtain ⟨item, s', read, -⟩ := items?_succ_eq_some_iff.mp h
    exact beginsValue_of_value? read

theorem exists_skipSpace_of_members? {fuel : Nat} {s r : List Char} {members : Members}
    (h : members? fuel s = some (members, r)) : ∃ t, skipSpace s = '"' :: t := by
  cases fuel with
  | zero => simp [members?] at h
  | succ fuel =>
    obtain ⟨t, -, -, -, -, -, quote, -⟩ := members?_succ_eq_some_iff.mp h
    exact ⟨t, quote⟩

/-- Where items can be read there is no closing bracket, and where members can, no closing brace. -/
theorem head?_ne_of_items? {fuel : Nat} {s r : List Char} {items : List Json}
    (h : items? fuel s = some (items, r)) :
    (skipSpace s).head? ≠ some ']' := by
  obtain ⟨c, t, head, begins⟩ := beginsValue_of_items? h
  rw [head, List.head?_cons, ne_eq, Option.some.injEq]
  rintro rfl
  revert begins
  decide

theorem head?_ne_of_members? {fuel : Nat} {s r : List Char} {members : Members}
    (h : members? fuel s = some (members, r)) : (skipSpace s).head? ≠ some '\x7d' := by
  obtain ⟨t, head⟩ := exists_skipSpace_of_members? h
  simp [head]

/-- A value that no further text can make longer: any but a number that the text ends on. -/
def IsClosed : Json → List Char → Prop
  | .number _, r => r ≠ []
  | _, _ => True

theorem isClosed_of_ne_nil {v : Json} {r : List Char} (h : r ≠ []) : IsClosed v r := by
  cases v <;> first | exact h | trivial

theorem skipSpace_append_of_eq_cons {s t : List Char} {c : Char} (h : skipSpace s = c :: t)
    (x : List Char) :
    skipSpace (s ++ x) = c :: (t ++ x) := by
  rw [skipSpace_append (by simp [h]), h, List.cons_append]

theorem ne_nil_of_skipSpace_eq_cons {s t : List Char} {c : Char} (h : skipSpace s = c :: t) :
    s ≠ [] := by
  rintro rfl
  cases h

/-- What a value, items or members are read from may go on, and the fuel be more: they are read the
same. -/
theorem read_append (fuel : Nat) :
    (∀ ⦃s r v⦄, value? fuel s = some (v, r) → ∀ x, x = [] ∨ IsClosed v r → ∀ more, fuel ≤ more →
      value? more (s ++ x) = some (v, r ++ x)) ∧
    (∀ ⦃s r items⦄, items? fuel s = some (items, r) → ∀ x more, fuel ≤ more →
      items? more (s ++ x) = some (items, r ++ x)) ∧
    (∀ ⦃s r members⦄, members? fuel s = some (members, r) → ∀ x more, fuel ≤ more →
      members? more (s ++ x) = some (members, r ++ x)) := by
  induction fuel with
  | zero => simp [value?, items?, members?]
  | succ fuel ih =>
    obtain ⟨values, items, members⟩ := ih
    refine ⟨?_, ?_, ?_⟩
    · intro s r v h x closed more le
      obtain ⟨more, rfl⟩ : ∃ m, more = m + 1 := ⟨more - 1, by omega⟩
      rw [value?_succ_eq_some_iff] at h ⊢
      generalize eq : skipSpace s = head at h
      cases h with
      | string read => exact skipSpace_append_of_eq_cons eq x ▸ .string (string?_append read x)
      | emptyArray close =>
        exact skipSpace_append_of_eq_cons eq x ▸ .emptyArray (skipSpace_append_of_eq_cons close x)
      | array no_close read =>
        -- the first item stands there, so no text behind can close the array
        obtain ⟨c, u, head, -⟩ := beginsValue_of_items? read
        refine skipSpace_append_of_eq_cons eq x ▸ .array ?_ (items read x more (by omega))
        rw [skipSpace_append_of_eq_cons head x]
        rwa [head] at no_close
      | emptyObject close =>
        exact skipSpace_append_of_eq_cons eq x ▸ .emptyObject (skipSpace_append_of_eq_cons close x)
      | object no_close read =>
        obtain ⟨u, head⟩ := exists_skipSpace_of_members? read
        refine skipSpace_append_of_eq_cons eq x ▸ .object ?_ (members read x more (by omega))
        rw [skipSpace_append_of_eq_cons head x]
        rwa [head] at no_close
      | yes read => exact skipSpace_append_of_eq_cons eq x ▸ .yes (word?_append read x)
      | no read => exact skipSpace_append_of_eq_cons eq x ▸ .no (word?_append read x)
      | null read => exact skipSpace_append_of_eq_cons eq x ▸ .null (word?_append read x)
      | number other read =>
        -- nothing follows, or the number has stopped before the end
        refine skipSpace_append_of_eq_cons eq x ▸ .number other ?_
        rcases closed with rfl | rest
        · simpa using read
        · exact settles_number? read rest x
    · intro s r l h x more le
      obtain ⟨more, rfl⟩ : ∃ m, more = m + 1 := ⟨more - 1, by omega⟩
      rw [items?_succ_eq_some_iff] at h ⊢
      obtain ⟨item, s', read, ⟨t, rest, comma, tail, rfl⟩ | ⟨close, rfl⟩⟩ := h
      · have closed : IsClosed item s' := isClosed_of_ne_nil (ne_nil_of_skipSpace_eq_cons comma)
        exact ⟨item, s' ++ x, values read x (Or.inr closed) more (by omega), Or.inl
          ⟨t ++ x, rest, skipSpace_append_of_eq_cons comma x, items tail x more (by omega), rfl⟩⟩
      · have closed : IsClosed item s' := isClosed_of_ne_nil (ne_nil_of_skipSpace_eq_cons close)
        exact ⟨item, s' ++ x, values read x (Or.inr closed) more (by omega), Or.inr
          ⟨skipSpace_append_of_eq_cons close x, rfl⟩⟩
    · intro s r l h x more le
      obtain ⟨more, rfl⟩ : ∃ m, more = m + 1 := ⟨more - 1, by omega⟩
      rw [members?_succ_eq_some_iff] at h ⊢
      obtain ⟨t, name, t₁, t₂, value, t₃, quote, named, colon, read, h⟩ := h
      refine ⟨t ++ x, name, t₁ ++ x, t₂ ++ x, value, t₃ ++ x, skipSpace_append_of_eq_cons quote x,
        string?_append named x, skipSpace_append_of_eq_cons colon x, ?_, ?_⟩
      · have some_rest : t₃ ≠ [] := by
          rcases h with ⟨t₄, rest, comma, -, -⟩ | ⟨close, -⟩
          · exact ne_nil_of_skipSpace_eq_cons comma
          · exact ne_nil_of_skipSpace_eq_cons close
        exact values read x (Or.inr (isClosed_of_ne_nil some_rest)) more (by omega)
      · rcases h with ⟨t₄, rest, comma, tail, rfl⟩ | ⟨close, rfl⟩
        · exact Or.inl ⟨t₄ ++ x, rest, skipSpace_append_of_eq_cons comma x,
            members tail x more (by omega), rfl⟩
        · exact Or.inr ⟨skipSpace_append_of_eq_cons close x, rfl⟩

theorem value?_unique {fuel more : Nat} {s r r' : List Char} {v v' : Json}
    (h : value? fuel s = some (v, r)) (h' : value? more s = some (v', r')) : v = v' ∧ r = r' := by
  have here := (read_append fuel).1 h [] (Or.inl rfl) (max fuel more) (by omega)
  have there := (read_append more).1 h' [] (Or.inl rfl) (max fuel more) (by omega)
  simpa using here.symm.trans there

theorem read?_eq_some_iff {s : List Char} {v : Json} :
    read? s = some v ↔ ∃ r, value? (s.length + 1) s = some (v, r) ∧ IsSpaces r := by
  unfold read?
  constructor
  · intro h
    split at h
    · rename_i value r found
      split at h
      · rename_i spaces
        obtain rfl := Option.some.inj h
        exact ⟨r, found, skipSpace_eq_nil_iff.mp spaces⟩
      · cases h
    · cases h
  · rintro ⟨r, found, spaces⟩
    rw [found]
    exact if_pos (skipSpace_eq_nil_iff.mpr spaces)

end InFlight.Json
