import InFlight.Event.Json
import InFlight.Proofs.Cache.Layout
import InFlight.Proofs.Json.Extent
/-!
An event that is read from JSON can be stored: its integers are words, its instants have texts, and
its texts are no longer than the text it was read from.
-/
namespace InFlight

namespace Json

section Field

variable {α : Type} {spellings : List String} {decode : Json → Option α} {members : Members}
  {items : List Json}
  {default a : α} {place : Nat} {holds : α → Prop}

theorem mem_of_mem_valuesUnder {j : Json} (h : j ∈ valuesUnder spellings members) :
    ∃ m ∈ members, m.2 = j := by
  obtain ⟨m, among, same⟩ := List.mem_map.mp h
  exact ⟨m, List.mem_of_mem_filter among, same⟩

/-- What holds of everything that a value decodes to holds of a field. -/
theorem holds_of_required? (h : required? spellings decode members = some a)
    (each : ∀ m ∈ members, ∀ a, decode m.2 = some a → holds a) : holds a := by
  unfold required? at h
  split at h
  · rename_i j only
    obtain ⟨m, among, rfl⟩ :=
      mem_of_mem_valuesUnder (show j ∈ valuesUnder spellings members by simp [only])
    exact each m among a h
  · cases h

theorem holds_of_optional? (h : optional? spellings default decode members = some a)
    (absent : holds default) (each : ∀ m ∈ members, ∀ a, decode m.2 = some a → holds a) :
    holds a := by
  unfold optional? at h
  split at h
  · exact Option.some.inj h ▸ absent
  · rename_i j only
    obtain ⟨m, among, rfl⟩ :=
      mem_of_mem_valuesUnder (show j ∈ valuesUnder spellings members by simp [only])
    exact each m among a h
  · cases h

theorem holds_of_requiredItem? (h : requiredItem? place decode items = some a)
    (each : ∀ j ∈ items, ∀ a, decode j = some a → holds a) : holds a := by
  obtain ⟨j, there, decoded⟩ := Option.bind_eq_some_iff.mp h
  exact each j (List.mem_of_getElem? there) a decoded

theorem holds_of_optionalItem? (h : optionalItem? place default decode items = some a)
    (absent : holds default) (each : ∀ j ∈ items, ∀ a, decode j = some a → holds a) : holds a := by
  unfold optionalItem? at h
  split at h
  · exact Option.some.inj h ▸ absent
  · rename_i j there
    exact each j (List.mem_of_getElem? there) a h

end Field

theorem size_le_of_text? {most : Nat} {j : Json} {s : String} (within : Within most j)
    (h : text? j = some s) :
    s.utf8ByteSize ≤ most := by
  cases within with
  | string short => exact short s h
  | _ => cases h

theorem le_of_integer? {low high i : Int} {j : Json} (h : integer? low high j = some i) :
    low ≤ i ∧ i ≤ high := by
  unfold integer? at h
  split at h
  · simpa using (Option.filter_eq_some_iff.mp h).2
  · cases h

theorem isSigned64_of_signed? {j : Json} {i : Int} (h : signed? j = some i) :
    Word.IsSigned64 i := le_of_integer? h

theorem isWord_of_unsigned? {j : Json} {n : Nat} (h : unsigned? j = some n) : Cache.IsWord n := by
  obtain ⟨i, read, rfl⟩ := Option.map_eq_some_iff.mp h
  have bounds := le_of_integer? read
  simp only [Cache.IsWord, Word.count64] at bounds ⊢
  omega

end Json

namespace Event

open Json Cache

theorem isNameable_of_ofJson? {j : Json} {t : Instant} (h : Instant.ofJson? j = some t) :
    Timestamp.IsNameable t := by
  obtain ⟨s, -, read⟩ := Option.bind_eq_some_iff.mp h
  exact Timestamp.isNameable_of_read? read

theorem isStorable_of_ofJson? {most : Nat} {j : Json} {e : Event} (h : ofJson? j = some e)
    (within : Within most j) (fits : IsWord most) : IsStorable e := by
  have text (j : Json) (within : Within most j) (s : String) (h : text? j = some s) : IsShort s :=
    Nat.lt_of_le_of_lt (size_le_of_text? within h) fits
  have zero : IsWord 0 := by decide
  cases within with
  | object each =>
    simp only [ofJson?, ofMembers?] at h
    split at h
    · simp only [Option.bind_eq_bind, Option.bind_eq_some_iff, Option.some.injEq] at h
      obtain ⟨sender, h₁, receiver, h₂, category, h₃, size, h₄, start, h₅, finish, h₆,
        localRate, h₇, globalRate, h₈, id, h₉, rfl⟩ := h
      exact
        { sender := holds_of_required? h₁ fun m among => text m.2 (each m among)
          receiver := holds_of_required? h₂ fun m among => text m.2 (each m among)
          category := holds_of_required? h₃ fun m among => text m.2 (each m among)
          size := holds_of_required? h₄ fun _ _ _ => isSigned64_of_signed?
          start := holds_of_required? h₅ fun _ _ _ => isNameable_of_ofJson?
          finish := holds_of_required? h₆ fun _ _ _ => isNameable_of_ofJson?
          localRate := holds_of_optional? h₇ (by decide) fun _ _ _ => isSigned64_of_signed?
          globalRate := holds_of_optional? h₈ (by decide) fun _ _ _ => isSigned64_of_signed?
          id := holds_of_optional? h₉ zero fun _ _ _ => isWord_of_unsigned? }
    · cases h
  | array _ each =>
    simp only [ofJson?, ofItems?] at h
    split at h
    · simp only [Option.bind_eq_bind, Option.bind_eq_some_iff, Option.some.injEq] at h
      obtain ⟨sender, h₁, receiver, h₂, category, h₃, size, h₄, start, h₅, finish, h₆,
        localRate, h₇, globalRate, h₈, id, h₉, rfl⟩ := h
      exact
        { sender := holds_of_requiredItem? h₁ fun j among => text j (each j among)
          receiver := holds_of_requiredItem? h₂ fun j among => text j (each j among)
          category := holds_of_requiredItem? h₃ fun j among => text j (each j among)
          size := holds_of_requiredItem? h₄ fun _ _ _ => isSigned64_of_signed?
          start := holds_of_requiredItem? h₅ fun _ _ _ => isNameable_of_ofJson?
          finish := holds_of_requiredItem? h₆ fun _ _ _ => isNameable_of_ofJson?
          localRate := holds_of_optionalItem? h₇ (by decide) fun _ _ _ => isSigned64_of_signed?
          globalRate := holds_of_optionalItem? h₈ (by decide) fun _ _ _ => isSigned64_of_signed?
          id := holds_of_optionalItem? h₉ zero fun _ _ _ => isWord_of_unsigned? }
    · cases h
  | _ => cases h

end Event

end InFlight
