import InFlight.Proofs.Json.Reader
import InFlight.Proofs.Text
/-!
Nothing that is read from JSON is larger than the text it is read from: neither a string, counted in
bytes, nor an array, counted in items.
-/
namespace InFlight.Json

open Text (byteSize byteSize_nil byteSize_cons byteSize_append byteSize_le_of_sublist)

inductive Within (most : Nat) : Json → Prop where
  | null : Within most .null
  | bool (b : Bool) : Within most (.bool b)
  | number (n : Number) : Within most (.number n)
  | string {s : Option String} : (∀ t, s = some t → t.utf8ByteSize ≤ most) → Within most (.string s)
  | array {items : List Json} : items.length ≤ most → (∀ j ∈ items, Within most j) →
      Within most (.array items)
  | object {members : Members} : (∀ m ∈ members, Within most m.2) → Within most (.object members)

section String

variable {s r : List Char}

/-- The bytes of a unit; a surrogate is half of a character of four. -/
def Unit.size : Unit → Nat
  | .char c => c.utf8Size
  | .surrogate _ => 2

theorem size_joinUnits?_le {us : List Unit} {text : List Char} (h : joinUnits? us = some text) :
    byteSize text ≤ (us.map Unit.size).sum := by
  induction us using joinUnits?.induct generalizing text with
  | case1 =>
    obtain rfl := Option.some.inj h
    simp
  | case2 c us ih =>
    obtain ⟨rest, joined, rfl⟩ := Option.map_eq_some_iff.mp h
    have := ih joined
    simp only [byteSize_cons, List.map_cons, List.sum_cons, Unit.size]
    omega
  | case3 high low us pair ih =>
    rw [joinUnits?, if_pos pair] at h
    obtain ⟨rest, joined, rfl⟩ := Option.map_eq_some_iff.mp h
    have := ih joined
    have four := (Char.ofNat (0x10000 + (high - 0xD800) * 0x400 + (low - 0xDC00))).utf8Size_le_four
    simp only [byteSize_cons, List.map_cons, List.sum_cons, Unit.size]
    omega
  | case4 high low us pair => simp [joinUnits?, pair] at h
  | case5 code us no_pair =>
    rw [joinUnits?] at h
    · cases h
    · exact no_pair

theorem size_escape?_le {u : Unit} (h : escape? s = some (u, r)) :
    u.size + byteSize r ≤ byteSize s := by
  unfold escape? at h
  split at h
  case h_9 t =>
    obtain ⟨⟨code, rest⟩, read, same⟩ := Option.map_eq_some_iff.mp h
    obtain ⟨rfl, rfl⟩ := Prod.mk.inj same
    unfold hexFour? at read
    split at read
    · rename_i a b c d rest'
      obtain ⟨n, digits, same⟩ := Option.map_eq_some_iff.mp read
      obtain ⟨rfl, rfl⟩ := Prod.mk.inj same
      have four : (unitOf n).size ≤ 4 := by
        unfold unitOf
        split
        · exact Nat.le_of_ble_eq_true rfl
        · exact Char.utf8Size_le_four _
      have bytes := Text.length_le_byteSize [a, b, c, d]
      simp only [byteSize_cons, byteSize_nil, List.length_cons, List.length_nil] at bytes ⊢
      omega
    · cases read
  case h_10 => cases h
  all_goals
    simp only [Option.some.injEq, Prod.mk.injEq] at h
    obtain ⟨rfl, rfl⟩ := h
    rw [byteSize_cons]
    exact Nat.add_le_add_right (by decide) _

theorem size_units?_le {fuel : Nat} {us : List Unit} (h : units? fuel s = some (us, r)) :
    (us.map Unit.size).sum + byteSize r ≤ byteSize s := by
  induction fuel generalizing s us with
  | zero => simp [units?] at h
  | succ fuel ih =>
    cases s with
    | nil => simp [units?] at h
    | cons c t =>
      rw [byteSize_cons]
      unfold units? at h
      by_cases quote : c = '"'
      · simp only [if_pos quote, Option.some.injEq, Prod.mk.injEq] at h
        obtain ⟨rfl, rfl⟩ := h
        simp
      · rw [if_neg quote] at h
        by_cases backslash : c = '\\'
        · simp only [if_pos backslash, Option.bind_eq_bind, Option.bind_eq_some_iff,
            Prod.exists] at h
          obtain ⟨u, t', escaped, vs, rest, read, same⟩ := h
          obtain ⟨rfl, rfl⟩ := Prod.mk.inj (Option.some.inj same)
          have unit := size_escape?_le escaped
          have others := ih read
          rw [List.map_cons, List.sum_cons]
          omega
        · rw [if_neg backslash] at h
          by_cases control : c.toNat < 0x20
          · simp [control] at h
          · simp only [if_neg control, Option.bind_eq_bind, Option.bind_eq_some_iff,
              Prod.exists] at h
            obtain ⟨vs, rest, read, same⟩ := h
            obtain ⟨rfl, rfl⟩ := Prod.mk.inj (Option.some.inj same)
            have others := ih read
            rw [List.map_cons, List.sum_cons, Unit.size]
            omega

theorem size_string?_le {text : Option String} (h : string? s = some (text, r)) :
    (∀ t, text = some t → t.utf8ByteSize ≤ byteSize s) ∧ byteSize r ≤ byteSize s := by
  obtain ⟨⟨us, rest⟩, read, same⟩ := Option.map_eq_some_iff.mp h
  obtain ⟨rfl, rfl⟩ := Prod.mk.inj same
  have bytes := size_units?_le read
  refine ⟨fun t found => ?_, by omega⟩
  obtain ⟨l, joined, rfl⟩ := Option.map_eq_some_iff.mp found
  have size := size_joinUnits?_le joined
  rw [Text.utf8ByteSize_eq_byteSize, String.toList_ofList]
  omega

end String

section Value

variable {s r : List Char} {most : Nat}

theorem size_skipSpace_le (s : List Char) : byteSize (skipSpace s) ≤ byteSize s :=
  byteSize_le_of_sublist (List.dropWhile_sublist _)

theorem size_lt_of_skipSpace_eq {c : Char} {t : List Char} (h : skipSpace s = c :: t) :
    byteSize t < byteSize s := by
  have skipped := size_skipSpace_le s
  have one := c.utf8Size_pos
  rw [h, byteSize_cons] at skipped
  omega

theorem size_word?_le {word : List Char} (h : word? word s = some r) : byteSize r ≤ byteSize s := by
  unfold word? at h
  split at h
  · obtain rfl := Option.some.inj h
    exact byteSize_le_of_sublist (List.drop_sublist _ _)
  · cases h

theorem size_le_of_isNumericBefore (h : IsNumericBefore s r) : byteSize r ≤ byteSize s := by
  obtain ⟨used, rfl, -⟩ := h
  rw [byteSize_append]
  omega

/-- What is read leaves no more text than there was, and fits the text it was read from. -/
theorem within_of_read (fuel : Nat) :
    (∀ ⦃s r v⦄, value? fuel s = some (v, r) → byteSize r ≤ byteSize s ∧ ∀ most, byteSize s ≤ most →
      Within most v) ∧
    (∀ ⦃s r items⦄, items? fuel s = some (items, r) → items.length + byteSize r ≤ byteSize s ∧
      ∀ most, byteSize s ≤ most → ∀ j ∈ items, Within most j) ∧
    (∀ ⦃s r members⦄, members? fuel s = some (members, r) → byteSize r ≤ byteSize s ∧
      ∀ most, byteSize s ≤ most → ∀ m ∈ members, Within most m.2) := by
  -- every item leaves a byte at least, its comma or the bracket, so items are counted by bytes
  induction fuel with
  | zero => simp [value?, items?, members?]
  | succ fuel ih =>
    obtain ⟨values, items, members⟩ := ih
    refine ⟨?_, ?_, ?_⟩
    · intro s r v h
      rw [value?_succ_eq_some_iff] at h
      generalize eq : skipSpace s = head at h
      cases h with
      | string read =>
        obtain ⟨short, left⟩ := size_string?_le read
        have opened := size_lt_of_skipSpace_eq eq
        exact ⟨by omega, fun most le => .string fun t same =>
          Nat.le_trans (short t same) (by omega)⟩
      | emptyArray close =>
        have opened := size_lt_of_skipSpace_eq eq
        have closed := size_lt_of_skipSpace_eq close
        exact ⟨by omega, fun most le => .array (Nat.zero_le _) (by simp)⟩
      | array no_close read =>
        have opened := size_lt_of_skipSpace_eq eq
        obtain ⟨left, within⟩ := items read
        exact ⟨by omega, fun most le => .array (by omega) (within most (by omega))⟩
      | emptyObject close =>
        have opened := size_lt_of_skipSpace_eq eq
        have closed := size_lt_of_skipSpace_eq close
        exact ⟨by omega, fun most le => .object (by simp)⟩
      | object no_close read =>
        have opened := size_lt_of_skipSpace_eq eq
        obtain ⟨left, within⟩ := members read
        exact ⟨by omega, fun most le => .object (within most (by omega))⟩
      | yes read | no read | null read =>
        have opened := size_lt_of_skipSpace_eq eq
        have left := size_word?_le read
        exact ⟨by omega, fun most le => by constructor⟩
      | number other read =>
        have left := size_le_of_isNumericBefore (isNumericBefore_number? read)
        have skipped := size_skipSpace_le s
        rw [eq] at skipped
        exact ⟨by omega, fun most le => .number _⟩
    · intro s r l h
      obtain ⟨item, s', read, h⟩ := items?_succ_eq_some_iff.mp h
      obtain ⟨left, within⟩ := values read
      rcases h with ⟨t, rest, comma, tail, rfl⟩ | ⟨close, rfl⟩
      · obtain ⟨behind, others⟩ := items tail
        have shorter := size_lt_of_skipSpace_eq comma
        refine ⟨by rw [List.length_cons]; omega, fun most le =>
          List.forall_mem_cons.mpr ⟨within most le, ?_⟩⟩
        exact others most (by omega)
      · have shorter := size_lt_of_skipSpace_eq close
        exact ⟨by rw [List.length_singleton]; omega, fun most le => by simpa using within most le⟩
    · intro s r l h
      obtain ⟨t, name, t₁, t₂, value, t₃, quote, named, colon, read, h⟩ :=
        members?_succ_eq_some_iff.mp h
      have opened := size_lt_of_skipSpace_eq quote
      have name_left := (size_string?_le named).2
      have parted := size_lt_of_skipSpace_eq colon
      obtain ⟨left, within⟩ := values read
      rcases h with ⟨t₄, rest, comma, tail, rfl⟩ | ⟨close, rfl⟩
      · obtain ⟨behind, others⟩ := members tail
        have shorter := size_lt_of_skipSpace_eq comma
        refine ⟨by omega, fun most le => List.forall_mem_cons.mpr ⟨within most (by omega), ?_⟩⟩
        exact others most (by omega)
      · have shorter := size_lt_of_skipSpace_eq close
        exact ⟨by omega, fun most le => by simpa using within most (by omega)⟩

theorem within_of_read? {v : Json} (h : read? s = some v) (le : byteSize s ≤ most) :
    Within most v := by
  obtain ⟨r, found, -⟩ := read?_eq_some_iff.mp h
  exact ((within_of_read _).1 found).2 most le

end Value

end InFlight.Json
