import InFlight.Json.Writer
import InFlight.Proofs.Decimal
import InFlight.Proofs.Json.Reader
/-!
What is written as JSON is read back, in either layout: every text as a string, and every number
that is spelt as JSON spells numbers.
-/
namespace InFlight.Json

section Number

variable {n : Number} {ds x : List Char} {c : Char}

/-- The text does not begin as a number may go on. -/
def EndsNumber (x : List Char) : Prop := ∀ c, x.head? = some c → isNumeric c = false

/-- Digits stand wherever there must be some, and the whole part has no zero too many. -/
structure Number.IsSpelt (n : Number) : Prop where
  isWhole : IsWhole n.whole
  whole : ∀ c ∈ n.whole, c.isDigit
  fraction : ∀ ds, n.fraction = some ds → ds ≠ [] ∧ ∀ c ∈ ds, c.isDigit
  exponent : ∀ below ds, n.exponent = some (below, ds) → ds ≠ [] ∧ ∀ c ∈ ds, c.isDigit

namespace Number

def signText (negative : Bool) : List Char := if negative then ['-'] else []

def fractionText : Option (List Char) → List Char
  | none => []
  | some ds => '.' :: ds

def exponentText : Option (Bool × List Char) → List Char
  | none => []
  | some (below, ds) => 'e' :: (if below then '-' else '+') :: ds

theorem text_eq (n : Number) : n.text =
    signText n.negative ++ (n.whole ++ (fractionText n.fraction ++ exponentText n.exponent)) := by
  simp only [text, List.append_assoc]
  rfl

end Number

open Number

theorem digits_append_of_stop (digit : ∀ c ∈ ds, c.isDigit)
    (stop : ∀ c, x.head? = some c → c.isDigit = false) :
    digits (ds ++ x) = (ds, x) := by
  unfold digits
  rw [List.takeWhile_append_of_pos digit, List.dropWhile_append_of_pos digit]
  cases x with
  | nil => simp
  | cons c t => simp [stop c rfl]

theorem isDigit_eq_false_of_not_isNumeric (h : isNumeric c = false) : c.isDigit = false := by
  simp only [isNumeric, Bool.or_eq_false_iff] at h
  exact h.1.1.1.1.1

theorem EndsNumber.head?_ne (h : EndsNumber x) (numeric : isNumeric c) : x.head? ≠ some c := by
  intro head
  rw [h c head] at numeric
  cases numeric

theorem head_exponentText (stop : EndsNumber x) {e : Option (Bool × List Char)}
    (h : (exponentText e ++ x).head? = some c) : c = 'e' ∨ isNumeric c = false := by
  cases e with
  | none => exact Or.inr (stop c h)
  | some e => exact Or.inl (Option.some.inj h).symm

theorem head_fractionText (stop : EndsNumber x) {f : Option (List Char)}
    {e : Option (Bool × List Char)} (h : (fractionText f ++ (exponentText e ++ x)).head? = some c) :
    c.isDigit = false := by
  cases f with
  | none =>
    rcases head_exponentText stop h with rfl | other
    · rfl
    · exact isDigit_eq_false_of_not_isNumeric other
  | some ds =>
    obtain rfl := Option.some.inj h
    rfl

theorem exponent?_exponentText (h : n.IsSpelt) (stop : EndsNumber x) :
    exponent? (exponentText n.exponent ++ x) = some (n.exponent, x) := by
  rw [exponent?_eq_some_iff]
  cases there : n.exponent with
  | none => exact Or.inr ⟨stop.head?_ne (by decide), stop.head?_ne (by decide), rfl, rfl⟩
  | some e =>
    obtain ⟨below, ds⟩ := e
    obtain ⟨some_digit, digit⟩ := h.exponent below ds there
    have signed : sign ((if below then '-' else '+') :: ds ++ x) = (below, ds ++ x) := by
      cases below <;> rfl
    refine Or.inl ⟨'e', (if below then '-' else '+') :: ds ++ x, ds, rfl, Or.inl rfl, ?_,
      some_digit, ?_⟩
    · rw [signed]
      exact digits_append_of_stop digit fun c hc => isDigit_eq_false_of_not_isNumeric (stop c hc)
    · rw [signed]

theorem fraction?_fractionText (h : n.IsSpelt) (stop : EndsNumber x) :
    fraction? (fractionText n.fraction ++ (exponentText n.exponent ++ x)) =
      some (n.fraction, exponentText n.exponent ++ x) := by
  rw [fraction?_eq_some_iff]
  cases there : n.fraction with
  | none =>
    refine Or.inr ⟨fun point => ?_, rfl, rfl⟩
    rcases head_exponentText stop point with wrong | wrong
    · exact absurd wrong (by decide)
    · exact absurd wrong (by decide)
  | some ds =>
    obtain ⟨some_digit, digit⟩ := h.fraction ds there
    exact Or.inl ⟨_, ds, rfl, digits_append_of_stop digit fun c hc =>
      head_fractionText (f := none) stop hc, some_digit, rfl⟩

/-- A number is read from its text, whatever follows that a number cannot go on with. -/
theorem number?_text_append (h : n.IsSpelt) (stop : EndsNumber x) :
    number? (n.text ++ x) = some (n, x) := by
  obtain ⟨first, rest, opening⟩ := List.exists_cons_of_ne_nil h.isWhole.1
  have signed : minus (n.text ++ x) =
      (n.negative, n.whole ++ (fractionText n.fraction ++ (exponentText n.exponent ++ x))) := by
    rw [text_eq, List.append_assoc, List.append_assoc, List.append_assoc]
    cases n.negative with
    | true => rfl
    | false =>
      have digit : first.isDigit := h.whole first (by rw [opening]; exact List.mem_cons_self)
      rw [opening]
      unfold minus signText
      split
      · rename_i same
        obtain rfl := (List.cons.inj same).1
        exact absurd digit (by decide)
      · rfl
  refine number?_eq_some_iff.mpr ⟨_, _, ?_, fraction?_fractionText h stop,
    exponent?_exponentText h stop, ?_⟩
  · rw [signed]
    exact whole?_eq_some_iff.mpr ⟨digits_append_of_stop h.whole fun c hc =>
      head_fractionText stop hc, h.isWhole⟩
  · rw [signed]

theorem isNumeric_of_isDigit (h : c.isDigit) : isNumeric c := by simp [isNumeric, h]

theorem isNumeric_of_mem_text (h : n.IsSpelt) (hc : c ∈ n.text) : isNumeric c := by
  rw [text_eq] at hc
  rcases List.mem_append.mp hc with hc | hc
  · unfold signText at hc
    split at hc
    · rw [List.mem_singleton.mp hc]
      rfl
    · cases hc
  rcases List.mem_append.mp hc with hc | hc
  · exact isNumeric_of_isDigit (h.whole c hc)
  rcases List.mem_append.mp hc with hc | hc
  · cases there : n.fraction with
    | none =>
      rw [there] at hc
      cases hc
    | some ds =>
      rw [there] at hc
      rcases List.mem_cons.mp hc with rfl | hc
      · rfl
      · exact isNumeric_of_isDigit ((h.fraction ds there).2 c hc)
  · cases there : n.exponent with
    | none =>
      rw [there] at hc
      cases hc
    | some e =>
      obtain ⟨below, ds⟩ := e
      rw [there] at hc
      rcases List.mem_cons.mp hc with rfl | hc
      · rfl
      rcases List.mem_cons.mp hc with rfl | hc
      · cases below <;> rfl
      · exact isNumeric_of_isDigit ((h.exponent below ds there).2 c hc)

/-- The digits of a natural number begin with a zero only where there is no other. -/
theorem isWhole_toDigits (n : Nat) : IsWhole (Nat.toDigits 10 n) := by
  refine ⟨by simp, fun c t zero => ?_⟩
  have digit : ∀ d ∈ c :: t, d.isDigit := fun d hd =>
    Nat.isDigit_of_mem_toDigits (by decide) (by decide) (zero ▸ List.mem_cons_of_mem _ hd)
  have value : Decimal.ofDigits 10 (c :: t) = n := by
    rw [← Decimal.ofDigits_toDigits n, zero]
    rfl
  have small := Decimal.ofDigits_lt digit
  rw [value] at small
  have short := (Nat.length_toDigits_le_iff (b := 10) (by decide) (Nat.succ_pos _)).mpr small
  rw [zero, List.length_cons] at short
  exact absurd short (Nat.not_succ_le_self _)

theorem Number.whole_ofInt (n : Int) : (ofInt n).whole = Nat.toDigits 10 n.natAbs := by simp [ofInt]

theorem Number.isSpelt_ofInt (n : Int) : (ofInt n).IsSpelt := by
  constructor
  · rw [whole_ofInt]
    exact isWhole_toDigits n.natAbs
  · intro c hc
    rw [whole_ofInt] at hc
    exact Nat.isDigit_of_mem_toDigits (by decide) (by decide) hc
  · intro ds there
    cases there
  · intro below ds there
    cases there

theorem Number.int?_ofInt (n : Int) : (ofInt n).int? = some n := by
  have magnitude : Decimal.ofDigits 10 (ofInt n).whole = n.natAbs := by
    rw [whole_ofInt, Decimal.ofDigits_toDigits]
  have value : (ofInt n).int? = if (ofInt n).negative then
      if Decimal.ofDigits 10 (ofInt n).whole = 0 then none
        else some (-(Decimal.ofDigits 10 (ofInt n).whole : Int))
      else some (Decimal.ofDigits 10 (ofInt n).whole : Int) := rfl
  have negative : (ofInt n).negative = decide (n < 0) := rfl
  rw [value, magnitude, negative]
  by_cases below : n < 0
  · rw [if_pos (decide_eq_true below), if_neg (by omega)]
    congr 1
    omega
  · rw [if_neg (by simpa using below)]
    congr 1
    omega

end Number

section String

variable {s t x : List Char} {c : Char} {u : Unit}

theorem read?_control :
    ∀ n < 0x20, Decimal.read? 16 ['0', '0', hexDigit (n / 16), hexDigit (n % 16)] = some n := by
  decide

theorem not_control_hexDigit :
    ∀ n < 0x20, 0x20 ≤ (hexDigit (n / 16)).toNat ∧ 0x20 ≤ (hexDigit (n % 16)).toNat := by
  decide

def NoControl (s : List Char) : Prop := ∀ c ∈ s, 0x20 ≤ c.toNat

instance (s : List Char) : Decidable (NoControl s) :=
  List.decidableBAll (fun c : Char => 0x20 ≤ c.toNat) s

theorem NoControl.append (hs : NoControl s) (ht : NoControl t) : NoControl (s ++ t) :=
  List.forall_mem_append.mpr ⟨hs, ht⟩

theorem NoControl.cons (plain : 0x20 ≤ c.toNat) (hs : NoControl s) : NoControl (c :: s) :=
  List.forall_mem_cons.mpr ⟨plain, hs⟩

/-- A character stands for itself, or has an escape that it is read back from. -/
theorem escape_cases (c : Char) : (escape c = [c] ∧ c ≠ '"' ∧ c ≠ '\\' ∧ 0x20 ≤ c.toNat) ∨
    ∃ s, escape c = '\\' :: s ∧ NoControl s ∧ ∀ t, escape? (s ++ t) = some (.char c, t) := by
  by_cases short : c ∈ ['"', '\\', '\x08', '\x0c', '\n', '\r', '\t']
  · simp only [List.mem_cons, List.not_mem_nil, or_false] at short
    rcases short with rfl | rfl | rfl | rfl | rfl | rfl | rfl <;>
        exact Or.inr ⟨_, rfl, by decide, fun t => rfl⟩
  · simp only [List.mem_cons, List.not_mem_nil, or_false, not_or] at short
    obtain ⟨quote, backslash, others⟩ := short
    by_cases control : c.toNat < 0x20
    · have code : unitOf c.toNat = .char c := by
        unfold unitOf
        rw [if_neg (by omega), Char.ofNat_toNat]
      refine Or.inr ⟨['u', '0', '0', hexDigit (c.toNat / 16), hexDigit (c.toNat % 16)], ?_,
        ?_, fun t => ?_⟩
      · simp [escape, quote, backslash, others, control]
      · obtain ⟨high, low⟩ := not_control_hexDigit c.toNat control
        simp [NoControl, high, low]
      · simp [escape?, hexFour?, read?_control c.toNat control, code]
    · refine Or.inl ⟨?_, quote, backslash, Nat.not_lt.mp control⟩
      simp [escape, quote, backslash, others, control]

theorem units?_backslash (h : escape? s = some (u, t)) (fuel : Nat) :
    units? (fuel + 1) ('\\' :: s) = (units? fuel t).map fun p => (u :: p.1, p.2) := by
  cases rest : units? fuel t <;> simp [units?, h, rest]

theorem units?_plain (quote : c ≠ '"') (backslash : c ≠ '\\') (plain : 0x20 ≤ c.toNat) (fuel : Nat)
    (t : List Char) :
    units? (fuel + 1) (c :: t) = (units? fuel t).map fun p => (.char c :: p.1, p.2) := by
  have no_control : ¬ c.toNat < 0x20 := by omega
  cases rest : units? fuel t <;> simp [units?, quote, backslash, no_control, rest]

theorem units?_escape (fuel : Nat) (c : Char) (t : List Char) :
    units? (fuel + 1) (escape c ++ t) = (units? fuel t).map fun p => (.char c :: p.1, p.2) := by
  rcases escape_cases c with ⟨same, quote, backslash, plain⟩ | ⟨s, same, -, read⟩
  · rw [same]
    exact units?_plain quote backslash plain fuel t
  · rw [same]
    exact units?_backslash (read t) fuel

theorem units?_flatMap_escape {fuel : Nat} (cs x : List Char) (enough : cs.length < fuel) :
    units? fuel (cs.flatMap escape ++ '"' :: x) = some (cs.map .char, x) := by
  induction cs generalizing fuel with
  | nil =>
    obtain ⟨fuel, rfl⟩ : ∃ n, fuel = n + 1 := ⟨fuel - 1, by omega⟩
    rfl
  | cons c cs ih =>
    obtain ⟨fuel, rfl⟩ : ∃ n, fuel = n + 1 := ⟨fuel - 1, by omega⟩
    rw [List.length_cons] at enough
    rw [List.flatMap_cons, List.append_assoc, units?_escape, ih (by omega)]
    rfl

theorem joinUnits?_map_char (cs : List Char) : joinUnits? (cs.map .char) = some cs := by
  induction cs with
  | nil => rfl
  | cons c cs ih => rw [List.map_cons, joinUnits?, ih, Option.map_some]

theorem length_le_flatMap_escape (cs : List Char) : cs.length ≤ (cs.flatMap escape).length := by
  induction cs with
  | nil => exact Nat.le_refl 0
  | cons c cs ih =>
    have one : 1 ≤ (escape c).length := by
      rcases escape_cases c with ⟨same, -⟩ | ⟨s, same, -⟩ <;> simp [same]
    rw [List.flatMap_cons, List.length_append, List.length_cons]
    omega

theorem string?_quote (text : String) (x : List Char) :
    string? (text.toList.flatMap escape ++ '"' :: x) = some (some text, x) := by
  have enough := length_le_flatMap_escape text.toList
  unfold string?
  rw [units?_flatMap_escape _ _ (by rw [List.length_append, List.length_cons]; omega)]
  simp [joinUnits?_map_char]

theorem quote_append (text : String) (x : List Char) :
    quote text ++ x = '"' :: (text.toList.flatMap escape ++ '"' :: x) := by
  simp [quote]

theorem noControl_escape (c : Char) : NoControl (escape c) := by
  rcases escape_cases c with ⟨same, -, -, plain⟩ | ⟨s, same, plain, -⟩
  · rw [same]
    exact List.forall_mem_singleton.mpr plain
  · rw [same]
    exact plain.cons (by decide)

theorem noControl_quote (text : String) : NoControl (quote text) := by
  refine .cons (by decide) (.append ?_ (by decide))
  intro c hc
  obtain ⟨d, -, hc⟩ := List.mem_flatMap.mp hc
  exact noControl_escape d c hc

end String

inductive Writable : Json → Prop where
  | null : Writable .null
  | bool (b : Bool) : Writable (.bool b)
  | number {n : Number} : n.IsSpelt → Writable (.number n)
  | string (text : String) : Writable (.string (some text))
  | array {items : List Json} : (∀ j ∈ items, Writable j) → Writable (.array items)
  | object {members : Members} : (∀ m ∈ members, m.1.isSome) → (∀ m ∈ members, Writable m.2) →
      Writable (.object members)

section Value

variable {l : Layout} {close x : List Char} {fuel : Nat}

/-- A value is read from its text in any layout, before any text that does not go on with a
number. -/
def ReadsBack (j : Json) : Prop :=
  ∀ (l : Layout) (x : List Char) (fuel : Nat), EndsNumber x → (write l j).length < fuel →
    value? fuel (write l j ++ x) = some (j, x)

theorem isSpaces_newline (l : Layout) : IsSpaces l.newline := by
  cases l with
  | none => exact List.forall_mem_nil _
  | some depth =>
    refine List.forall_mem_cons.mpr ⟨rfl, fun c hc => ?_⟩
    rw [List.eq_of_mem_replicate hc]
    rfl

theorem isNumeric_eq_false_of_isSpace {c : Char} (h : isSpace c) : isNumeric c = false := by
  simp only [isSpace, Bool.or_eq_true, beq_iff_eq] at h
  rcases h with ((rfl | rfl) | rfl) | rfl <;> decide

theorem endsNumber_cons {c : Char} (other : isNumeric c = false) (x : List Char) :
    EndsNumber (c :: x) := by
  intro d hd
  obtain rfl := Option.some.inj hd
  exact other

theorem endsNumber_spaces_append (spaces : IsSpaces close) {c : Char} (other : isNumeric c = false)
    (x : List Char) :
    EndsNumber (close ++ c :: x) := by
  cases close with
  | nil => exact endsNumber_cons other x
  | cons b close =>
    exact endsNumber_cons (isNumeric_eq_false_of_isSpace (spaces b List.mem_cons_self)) _

/-- A value stands right behind its colon, or a space behind it. -/
theorem exists_skipSpace_colon (l : Layout) (x : List Char) :
    ∃ t, skipSpace (l.colon ++ x) = ':' :: t ∧ ∀ fuel, value? fuel t = value? fuel x := by
  cases l with
  | none => exact ⟨x, skipSpace_cons_of_not (by decide), fun _ => rfl⟩
  | some depth =>
    have space : IsSpaces [' '] := by simp [IsSpaces, isSpace]
    exact ⟨[' '] ++ x, skipSpace_cons_of_not (by decide), fun fuel =>
      value?_spaces_append space fuel x⟩

theorem write_array_append (l : Layout) (item : Json) (items : List Json) (x : List Char) :
    write l (.array (item :: items)) ++ x = '[' :: (l.inner.newline ++ (write l.inner item ++
      (writeItems l.inner items ++ (l.newline ++ ']' :: x)))) := by
  simp [write]

theorem writeItems_cons_append (l : Layout) (item : Json) (items : List Json) (x : List Char) :
    writeItems l (item :: items) ++ x = ',' ::
    (l.newline ++ (write l item ++ (writeItems l items ++ x))) := by
  simp [writeItems]

theorem write_object_append (l : Layout) (name : String) (value : Json) (members : Members)
    (x : List Char) :
    write l (.object ((some name, value) :: members)) ++ x = '\x7b' ::
    (l.inner.newline ++ (quote name ++
      (l.inner.colon ++
        (write l.inner value ++ (writeMembers l.inner members ++
          (l.newline ++ '\x7d' :: x)))))) := by
  have colon : l.colon = l.inner.colon := by cases l <;> rfl
  simp [write, quote?, colon]

theorem writeMembers_cons_append (l : Layout) (name : String) (value : Json) (members : Members)
    (x : List Char) :
    writeMembers l ((some name, value) :: members) ++ x = ',' ::
    (l.newline ++ (quote name ++ (l.colon ++
      (write l value ++ (writeMembers l members ++ x))))) := by
  simp [writeMembers, quote?]

theorem items?_write {item : Json} {items : List Json} (first : ReadsBack item)
    (others : ∀ j ∈ items, ReadsBack j) (spaces : IsSpaces close)
    (enough : (write l item).length + (writeItems l items).length + 1 < fuel) :
    items? fuel (write l item ++ (writeItems l items ++ (close ++ ']' :: x))) =
      some (item :: items, x) := by
  obtain ⟨fuel, rfl⟩ : ∃ n, fuel = n + 1 := ⟨fuel - 1, by omega⟩
  -- over the items: each one is parted from the next by a comma, which no number goes on with and
  -- which pays its fuel
  induction items generalizing item fuel with
  | nil =>
    have ends : EndsNumber (close ++ ']' :: x) := endsNumber_spaces_append spaces (by decide) x
    refine items?_succ_eq_some_iff.mpr ⟨item, close ++ ']' :: x, first l _ fuel ends (by omega),
      Or.inr ⟨?_, rfl⟩⟩
    rw [skipSpace_spaces_append spaces, skipSpace_cons_of_not (by decide)]
  | cons next items ih =>
    obtain ⟨second, rest⟩ := List.forall_mem_cons.mp others
    simp only [writeItems, List.length_append, List.length_cons] at enough
    obtain ⟨fuel, rfl⟩ : ∃ n, fuel = n + 1 := ⟨fuel - 1, by omega⟩
    have tail := ih second rest fuel (by omega)
    rw [writeItems_cons_append]
    refine items?_succ_eq_some_iff.mpr ⟨item, _, first l _ _ ?_ (by omega),
      Or.inl ⟨_, next :: items, rfl, ?_, rfl⟩⟩
    · exact endsNumber_cons (by decide) _
    · rw [items?_spaces_append (isSpaces_newline l)]
      exact tail

theorem members?_first {name : String} {value : Json} {members : Members} {rest : List Char}
    (reads : ReadsBack value) (ends : EndsNumber rest) (enough : (write l value).length < fuel)
    (next : (∃ t others, skipSpace rest = ',' :: t ∧ members? fuel t = some (others, x) ∧
        members = (some name, value) :: others) ∨
      (skipSpace rest = '\x7d' :: x ∧ members = [(some name, value)])) :
    members? (fuel + 1) (l.newline ++ (quote name ++ (l.colon ++ (write l value ++ rest)))) =
      some (members, x) := by
  obtain ⟨t, colon, same⟩ := exists_skipSpace_colon l (write l value ++ rest)
  refine members?_succ_eq_some_iff.mpr ⟨_, some name, _, t, value, rest, ?_, string?_quote name _,
    colon, ?_, next⟩
  · rw [skipSpace_spaces_append (isSpaces_newline l), quote_append,
      skipSpace_cons_of_not (by decide)]
  · rw [same]
    exact reads l rest fuel ends enough

theorem members?_write {name : String} {value : Json} {members : Members}
    (named : ∀ m ∈ members, m.1.isSome) (first : ReadsBack value)
    (others : ∀ m ∈ members, ReadsBack m.2) (spaces : IsSpaces close)
    (enough : (write l value).length + (writeMembers l members).length + 1 < fuel) :
    members? fuel (l.newline ++ (quote name ++ (l.colon ++ (write l value ++
      (writeMembers l members ++ (close ++ '\x7d' :: x)))))) =
      some ((some name, value) :: members, x) := by
  obtain ⟨fuel, rfl⟩ : ∃ n, fuel = n + 1 := ⟨fuel - 1, by omega⟩
  induction members generalizing name value fuel with
  | nil =>
    refine members?_first first (endsNumber_spaces_append spaces (by decide) x) (by omega)
      (Or.inr ⟨?_, rfl⟩)
    rw [writeMembers, List.nil_append, skipSpace_spaces_append spaces,
      skipSpace_cons_of_not (by decide)]
  | cons m members ih =>
    obtain ⟨other, next⟩ := m
    obtain ⟨is_text, rest_named⟩ := List.forall_mem_cons.mp named
    obtain ⟨other, rfl⟩ := Option.isSome_iff_exists.mp is_text
    obtain ⟨second, rest⟩ := List.forall_mem_cons.mp others
    dsimp only at second
    simp only [writeMembers, List.length_append, List.length_cons] at enough
    obtain ⟨fuel, rfl⟩ : ∃ n, fuel = n + 1 := ⟨fuel - 1, by omega⟩
    have tail := @ih other next rest_named second rest fuel (by omega)
    rw [writeMembers_cons_append]
    exact members?_first first (endsNumber_cons (by decide) _) (by omega)
      (Or.inl ⟨_, _, rfl, tail, rfl⟩)

theorem ReadsBack.array {items : List Json} (reads : ∀ j ∈ items, ReadsBack j) :
    ReadsBack (.array items) := by
  intro l x fuel _ enough
  obtain ⟨fuel, rfl⟩ : ∃ n, fuel = n + 1 := ⟨fuel - 1, by omega⟩
  rw [value?_succ_eq_some_iff]
  cases items with
  | nil =>
    rw [write, List.cons_append, skipSpace_cons_of_not (by decide)]
    exact .emptyArray rfl
  | cons item items =>
    obtain ⟨first, others⟩ := List.forall_mem_cons.mp reads
    have length := congrArg List.length (write_array_append l item items [])
    have found : items? fuel (l.inner.newline ++ (write l.inner item ++ (writeItems l.inner items ++
        (l.newline ++ ']' :: x)))) = some (item :: items, x) := by
      rw [items?_spaces_append (isSpaces_newline _)]
      refine items?_write first others (isSpaces_newline l) ?_
      simp only [List.length_append, List.length_cons, List.length_nil] at length
      omega
    rw [write_array_append, skipSpace_cons_of_not (by decide)]
    exact .array (head?_ne_of_items? found) found

theorem ReadsBack.object {members : Members} (named : ∀ m ∈ members, m.1.isSome)
    (reads : ∀ m ∈ members, ReadsBack m.2) :
    ReadsBack (.object members) := by
  intro l x fuel _ enough
  obtain ⟨fuel, rfl⟩ : ∃ n, fuel = n + 1 := ⟨fuel - 1, by omega⟩
  rw [value?_succ_eq_some_iff]
  cases members with
  | nil =>
    rw [write, List.cons_append, skipSpace_cons_of_not (by decide)]
    exact .emptyObject rfl
  | cons m members =>
    obtain ⟨name, value⟩ := m
    obtain ⟨is_text, rest_named⟩ := List.forall_mem_cons.mp named
    obtain ⟨name, rfl⟩ := Option.isSome_iff_exists.mp is_text
    obtain ⟨first, others⟩ := List.forall_mem_cons.mp reads
    have length := congrArg List.length (write_object_append l name value members [])
    have found :
        members? fuel (l.inner.newline ++ (quote name ++ (l.inner.colon ++ (write l.inner value ++
          (writeMembers l.inner members ++ (l.newline ++ '\x7d' :: x)))))) =
          some ((some name, value) :: members, x) := by
      refine members?_write rest_named first others (isSpaces_newline l) ?_
      simp only [List.length_append, List.length_cons, List.length_nil] at length
      omega
    rw [write_object_append, skipSpace_cons_of_not (by decide)]
    exact .object (head?_ne_of_members? found) found

theorem word?_append_self (word x : List Char) : word? word (word ++ x) = some x := by
  simp [word?, List.isPrefixOf_iff_prefix]

theorem ReadsBack.number {n : Number} (h : n.IsSpelt) : ReadsBack (.number n) := by
  intro l x fuel ends enough
  obtain ⟨fuel, rfl⟩ : ∃ n, fuel = n + 1 := ⟨fuel - 1, by omega⟩
  obtain ⟨c, t, same⟩ : ∃ c t, n.text = c :: t := by
    apply List.exists_cons_of_ne_nil
    rw [Number.text_eq]
    simp [h.isWhole.1]
  have numeric : isNumeric c := isNumeric_of_mem_text h (same ▸ List.mem_cons_self)
  have solid : isSpace c = false := by
    cases space : isSpace c with
    | false => rfl
    | true => simp [isNumeric_eq_false_of_isSpace space] at numeric
  have other : c ∉ ['"', '[', '\x7b', 't', 'f', 'n'] := by
    intro listed
    simp only [List.mem_cons, List.not_mem_nil, or_false] at listed
    rcases listed with rfl | rfl | rfl | rfl | rfl | rfl <;> exact absurd numeric (by decide)
  have read := number?_text_append h ends
  rw [same] at read
  rw [value?_succ_eq_some_iff, write, same, List.cons_append, skipSpace_cons_of_not solid]
  exact .number other read

theorem Writable.readsBack {j : Json} (h : Writable j) : ReadsBack j := by
  induction h with
  | null =>
    intro l x fuel _ enough
    obtain ⟨fuel, rfl⟩ : ∃ n, fuel = n + 1 := ⟨fuel - 1, by omega⟩
    exact value?_succ_eq_some_iff.mpr (.null (word?_append_self ['u', 'l', 'l'] x))
  | bool b =>
    intro l x fuel _ enough
    obtain ⟨fuel, rfl⟩ : ∃ n, fuel = n + 1 := ⟨fuel - 1, by omega⟩
    cases b with
    | true => exact value?_succ_eq_some_iff.mpr (.yes (word?_append_self ['r', 'u', 'e'] x))
    | false => exact value?_succ_eq_some_iff.mpr (.no (word?_append_self ['a', 'l', 's', 'e'] x))
  | number spelt => exact .number spelt
  | string text =>
    intro l x fuel _ enough
    obtain ⟨fuel, rfl⟩ : ∃ n, fuel = n + 1 := ⟨fuel - 1, by omega⟩
    rw [value?_succ_eq_some_iff, write, quote?, Option.getD_some, quote_append,
      skipSpace_cons_of_not (by decide)]
    exact .string (string?_quote text x)
  | array _ ih => exact .array ih
  | object named _ ih => exact .object named ih

theorem read?_write {j : Json} (h : Writable j) (l : Layout) : read? (write l j) = some j := by
  have ends : EndsNumber [] := by simp [EndsNumber]
  have found := h.readsBack l [] ((write l j).length + 1) ends (Nat.lt_succ_self _)
  rw [List.append_nil] at found
  exact read?_eq_some_iff.mpr ⟨[], found, List.forall_mem_nil _⟩

theorem exists_write_array (l : Layout) (items : List Json) :
    ∃ body, write l (.array items) = '[' :: (body ++ [']']) := by
  cases items with
  | nil => exact ⟨[], rfl⟩
  | cons item items =>
    exact ⟨l.inner.newline ++ write l.inner item ++ writeItems l.inner items ++ l.newline,
      by simp [write]⟩

theorem exists_write_object (l : Layout) (members : Members) :
    ∃ body, write l (.object members) = '\x7b' :: (body ++ ['\x7d']) := by
  cases members with
  | nil => exact ⟨[], rfl⟩
  | cons m members =>
    exact ⟨l.inner.newline ++ quote? m.1 ++ l.colon ++ write l.inner m.2 ++
      writeMembers l.inner members ++ l.newline, by simp [write]⟩

section OneLine

theorem not_control_of_isNumeric {c : Char} (h : isNumeric c) : 0x20 ≤ c.toNat := by
  simp only [isNumeric, Bool.or_eq_true, beq_iff_eq] at h
  rcases h with ((((digit | rfl) | rfl) | rfl) | rfl) | rfl
  · have low := (Char.isDigit_iff_toNat.mp digit).1
    simp at low
    omega
  all_goals decide

theorem noControl_writeItems {items : List Json} (each : ∀ j ∈ items, NoControl (write none j)) :
    NoControl (writeItems none items) := by
  induction items with
  | nil =>
    rw [writeItems]
    exact List.forall_mem_nil _
  | cons item items ih =>
    obtain ⟨here, behind⟩ := List.forall_mem_cons.mp each
    rw [writeItems, Layout.newline, List.nil_append]
    exact .cons (by decide) (.append here (ih behind))

theorem noControl_quote? (s : Option String) : NoControl (quote? s) := noControl_quote _

theorem noControl_writeMembers {members : Members}
    (each : ∀ m ∈ members, NoControl (write none m.2)) :
    NoControl (writeMembers none members) := by
  induction members with
  | nil =>
    rw [writeMembers]
    exact List.forall_mem_nil _
  | cons m members ih =>
    obtain ⟨here, behind⟩ := List.forall_mem_cons.mp each
    rw [writeMembers, Layout.newline, List.nil_append]
    have name : NoControl (quote? m.1 ++ [':']) := (noControl_quote? m.1).append (by decide)
    exact .cons (by decide) ((name.append here).append (ih behind))

/-- On one line no control characters are written, and so no line feed. -/
theorem Writable.noControl {j : Json} (h : Writable j) : NoControl (write none j) := by
  induction h with
  | null => exact (by decide : NoControl ['n', 'u', 'l', 'l'])
  | bool b =>
    cases b with
    | true => exact (by decide : NoControl ['t', 'r', 'u', 'e'])
    | false => exact (by decide : NoControl ['f', 'a', 'l', 's', 'e'])
  | number spelt => exact fun c hc => not_control_of_isNumeric (isNumeric_of_mem_text spelt hc)
  | string text => exact noControl_quote text
  | @array items _ ih =>
    cases items with
    | nil => exact (by decide : NoControl ['[', ']'])
    | cons item items =>
      obtain ⟨here, behind⟩ := List.forall_mem_cons.mp ih
      have text : write none (.array (item :: items)) = '[' ::
          (write none item ++ (writeItems none items ++ [']'])) := by
        simp [write, Layout.newline, Layout.inner]
      rw [text]
      exact .cons (by decide) (.append here ((noControl_writeItems behind).append (by decide)))
  | @object members _ _ ih =>
    cases members with
    | nil => exact (by decide : NoControl ['\x7b', '\x7d'])
    | cons m members =>
      obtain ⟨here, behind⟩ := List.forall_mem_cons.mp ih
      have text : write none (.object (m :: members)) = '\x7b' ::
          (quote? m.1 ++ (':' :: (write none m.2 ++
          (writeMembers none members ++ ['\x7d'])))) := by
        simp [write, Layout.newline, Layout.colon, Layout.inner]
      rw [text]
      have rest : NoControl (writeMembers none members ++ ['\x7d']) :=
        (noControl_writeMembers behind).append (by decide)
      exact .cons (by decide) ((noControl_quote? m.1).append (.cons (by decide) (here.append rest)))

end OneLine

end Value

end InFlight.Json
