import InFlight.Proofs.Event.RoundTrip
import Mathlib.Data.List.Count
/-!
What an object says of an event hangs on the fields that its members spell, and on nothing else: not
on their order, nor on the spellings, nor on members that spell no field.
-/
namespace InFlight

namespace Json

variable {j : Json}

def IsInteger (j : Json) (i : Int) : Prop := ∃ n, j = .number n ∧ n.int? = some i

theorem text?_eq_some_iff {s : String} : text? j = some s ↔ j = .string (some s) := by
  cases j <;> simp [text?]

theorem integer?_eq_some_iff {low high i : Int} :
    integer? low high j = some i ↔ IsInteger j i ∧ low ≤ i ∧ i ≤ high := by
  cases j <;> simp [integer?, IsInteger, Option.filter_eq_some_iff]

theorem unsigned?_eq_some_iff {n : Nat} :
    unsigned? j = some n ↔ IsInteger j n ∧ Cache.IsWord n := by
  constructor
  · intro h
    refine ⟨?_, isWord_of_unsigned? h⟩
    obtain ⟨i, read, rfl⟩ := Option.map_eq_some_iff.mp h
    obtain ⟨integer, low, -⟩ := integer?_eq_some_iff.mp read
    rwa [Int.toNat_of_nonneg low]
  · rintro ⟨integer, word⟩
    have high : (n : Int) ≤ (Word.count64 - 1 : Nat) := by
      simp only [Cache.IsWord, Word.count64] at word ⊢
      omega
    exact Option.map_eq_some_iff.mpr ⟨n,
      integer?_eq_some_iff.mpr ⟨integer, Int.natCast_nonneg n, high⟩, rfl⟩

end Json

namespace Event

open Json

def empty : Event := ⟨"", "", "", 0, .ofNanos 0, .ofNanos 0, 0, 0, 0⟩

inductive Field where
  | sender
  | receiver
  | category
  | size
  | start
  | finish
  | localRate
  | globalRate
  | id
  deriving DecidableEq, Repr

namespace Field

def spellings : Field → List String
  | sender => ["From", "from"]
  | receiver => ["To", "to"]
  | category => ["Object", "object"]
  | size => ["Size", "size"]
  | start => ["Start", "start"]
  | finish => ["End", "end"]
  | localRate => ["LocalBandwidth", "localBandwidth"]
  | globalRate => ["GlobalBandwidth", "globalBandwidth"]
  | id => ["ID", "Id", "id"]

def isOptional : Field → Bool
  | localRate | globalRate | id => true
  | sender | receiver | category | size | start | finish => false

/-- A value of the type and in the range of the field, and one that tells what the event has
there. -/
def Tells (e : Event) : Field → Json → Prop
  | sender, j => j = .string (some e.sender)
  | receiver, j => j = .string (some e.receiver)
  | category, j => j = .string (some e.category)
  | size, j => IsInteger j e.size ∧ Word.IsSigned64 e.size
  | start, j => ∃ s : String, j = .string (some s) ∧ Timestamp.read? s.toList = some e.start
  | finish, j => ∃ s : String, j = .string (some s) ∧ Timestamp.read? s.toList = some e.finish
  | localRate, j => IsInteger j e.localRate ∧ Word.IsSigned64 e.localRate
  | globalRate, j => IsInteger j e.globalRate ∧ Word.IsSigned64 e.globalRate
  | id, j => IsInteger j e.id ∧ Cache.IsWord e.id

/-- The event has a zero there, as it does where a field is left out that may be. -/
def IsZero (e : Event) : Field → Prop
  | localRate => e.localRate = 0
  | globalRate => e.globalRate = 0
  | id => e.id = 0
  | sender | receiver | category | size | start | finish => False

theorem isOptional_of_isZero {f : Field} {e : Event} (h : f.IsZero e) : f.isOptional := by
  cases f <;> simp_all [IsZero, isOptional]

theorem isZero_empty {f : Field} (h : f.isOptional) : f.IsZero empty := by
  cases f <;> simp_all [IsZero, isOptional, empty]

def all : List Field := [sender, receiver, category, size, start, finish, localRate, globalRate, id]

def ofName? (name : String) : Option Field := all.find? (name ∈ ·.spellings)

theorem mem_all (f : Field) : f ∈ all := by cases f <;> decide

theorem eq_of_mem_spellings {f g : Field} {name : String} (hf : name ∈ f.spellings)
    (hg : name ∈ g.spellings) :
    f = g := by
  have apart : ∀ f ∈ all, ∀ g ∈ all, ∀ name ∈ f.spellings, name ∈ g.spellings → f = g := by
    decide +kernel
  exact apart f (mem_all f) g (mem_all g) name hf hg

theorem ofName?_eq_some_iff {name : String} {f : Field} :
    ofName? name = some f ↔ name ∈ f.spellings := by
  constructor
  · intro h
    simpa using List.find?_some h
  · intro h
    obtain ⟨g, found⟩ : ∃ g, ofName? name = some g :=
      Option.isSome_iff_exists.mp (List.find?_isSome.mpr ⟨f, mem_all f, by simpa using h⟩)
    have spells : name ∈ g.spellings := by simpa using List.find?_some found
    rw [found, eq_of_mem_spellings spells h]

end Field

def fieldsOf (members : Members) : List (Field × Json) :=
  members.filterMap fun m => (m.1.bind Field.ofName?).map fun f => (f, m.2)

def Field.count (f : Field) (members : Members) : Nat := ((fieldsOf members).map Prod.fst).count f

section Members

variable {members others : Members} {f : Field} {e : Event} {j : Json}

theorem valuesUnder_eq (f : Field) (members : Members) :
    valuesUnder f.spellings members = ((fieldsOf members).filter (·.1 = f)).map Prod.snd := by
  induction members with
  | nil => rfl
  | cons m members ih =>
    obtain ⟨name, j⟩ := m
    unfold valuesUnder fieldsOf at *
    cases spelt : name.bind Field.ofName? with
    | none =>
      have other : name.any (· ∈ f.spellings) = false := by
        cases name with
        | none => rfl
        | some name =>
          have unspelt : name ∉ f.spellings := by
            rw [← Field.ofName?_eq_some_iff]
            simp_all
          simpa using unspelt
      rw [List.filter_cons_of_neg (by simp [other]), ih, List.filterMap_cons]
      simp [spelt]
    | some g =>
      obtain ⟨name, rfl, found⟩ := Option.bind_eq_some_iff.mp spelt
      have same : name ∈ f.spellings ↔ g = f := by
        rw [← Field.ofName?_eq_some_iff, found, Option.some.injEq]
      by_cases this : g = f
      · simp_all
      · simp_all

theorem mem_valuesUnder : j ∈ valuesUnder f.spellings members ↔ (f, j) ∈ fieldsOf members := by
  simp [valuesUnder_eq]

theorem length_valuesUnder : (valuesUnder f.spellings members).length = f.count members := by
  rw [valuesUnder_eq, List.length_map, Field.count, List.count, List.countP_map,
    List.countP_eq_length_filter]
  rfl

theorem Field.count_pos (there : (f, j) ∈ fieldsOf members) : 0 < f.count members :=
  List.count_pos_iff.mpr (List.mem_map_of_mem there)

/-- What the members say of a field of the event, and how often. -/
def Field.Agrees (f : Field) (e : Event) (members : Members) : Prop :=
  f.count members = 1 ∧ (∀ j, (f, j) ∈ fieldsOf members → f.Tells e j) ∨
    f.count members = 0 ∧ f.IsZero e

theorem required?_eq_some_iff {α : Type} {decode : Json → Option α} {a : α} :
    required? f.spellings decode members = some a ↔
      f.count members = 1 ∧ ∀ j, (f, j) ∈ fieldsOf members → decode j = some a := by
  simp only [← length_valuesUnder, ← mem_valuesUnder, required?]
  rcases valuesUnder f.spellings members with _ | ⟨j, _ | ⟨k, rest⟩⟩ <;> simp

theorem optional?_eq_some_iff {α : Type} {decode : Json → Option α} {default a : α} :
    optional? f.spellings default decode members = some a ↔
      f.count members = 1 ∧ (∀ j, (f, j) ∈ fieldsOf members → decode j = some a) ∨
        f.count members = 0 ∧ a = default := by
  simp only [← length_valuesUnder, ← mem_valuesUnder, optional?]
  rcases valuesUnder f.spellings members with _ | ⟨j, _ | ⟨k, rest⟩⟩ <;> simp [eq_comm]

theorem ofJson?_instant_eq_some_iff {t : Instant} :
    Instant.ofJson? j = some t ↔ ∃ s : String, j = .string (some s) ∧
      Timestamp.read? s.toList = some t := by
  simp only [Instant.ofJson?, Option.bind_eq_some_iff, text?_eq_some_iff]

theorem ofMembers?_eq_some_iff (names : namesAreText members) :
    ofMembers? members = some e ↔ ∀ f : Field, f.Agrees e members := by
  have fields : ofMembers? members = some e ↔
      required? Field.sender.spellings text? members = some e.sender ∧
      required? Field.receiver.spellings text? members = some e.receiver ∧
      required? Field.category.spellings text? members = some e.category ∧
      required? Field.size.spellings signed? members = some e.size ∧
      required? Field.start.spellings Instant.ofJson? members = some e.start ∧
      required? Field.finish.spellings Instant.ofJson? members = some e.finish ∧
      optional? Field.localRate.spellings 0 signed? members = some e.localRate ∧
      optional? Field.globalRate.spellings 0 signed? members = some e.globalRate ∧
      optional? Field.id.spellings 0 unsigned? members = some e.id := by
    simp only [ofMembers?, names, if_true, Option.bind_eq_bind, Option.bind_eq_some_iff,
      Option.some.injEq]
    constructor
    · rintro ⟨sender, h₁, receiver, h₂, category, h₃, size, h₄, start, h₅, finish, h₆,
        localRate, h₇, globalRate, h₈, id, h₉, rfl⟩
      exact ⟨h₁, h₂, h₃, h₄, h₅, h₆, h₇, h₈, h₉⟩
    · rintro ⟨h₁, h₂, h₃, h₄, h₅, h₆, h₇, h₈, h₉⟩
      exact ⟨_, h₁, _, h₂, _, h₃, _, h₄, _, h₅, _, h₆, _, h₇, _, h₈, _, h₉, rfl⟩
  rw [fields]
  simp only [required?_eq_some_iff, optional?_eq_some_iff, text?_eq_some_iff, signed?,
    integer?_eq_some_iff, unsigned?_eq_some_iff, ofJson?_instant_eq_some_iff]
  constructor
  · rintro ⟨h₁, h₂, h₃, h₄, h₅, h₆, h₇, h₈, h₉⟩ (_ | _)
    · exact Or.inl h₁
    · exact Or.inl h₂
    · exact Or.inl h₃
    · exact Or.inl h₄
    · exact Or.inl h₅
    · exact Or.inl h₆
    · exact h₇
    · exact h₈
    · exact h₉
  · intro h
    exact ⟨(h .sender).resolve_right And.right, (h .receiver).resolve_right And.right,
      (h .category).resolve_right And.right, (h .size).resolve_right And.right,
      (h .start).resolve_right And.right,
      (h .finish).resolve_right And.right, h .localRate, h .globalRate, h .id⟩

/-- The fields can be read one by one: what each of them may say, an event tells as a whole. -/
theorem exists_agrees_iff : (∃ e, ∀ f : Field, f.Agrees e members) ↔
    ∀ f : Field, (f.count members = 1 ∨ f.isOptional ∧ f.count members = 0) ∧
      ∀ j, (f, j) ∈ fieldsOf members → ∃ e, f.Tells e j := by
  constructor
  · rintro ⟨e, agrees⟩ f
    rcases agrees f with ⟨once, tells⟩ | ⟨never, zero⟩
    · exact ⟨Or.inl once, fun j there => ⟨e, tells j there⟩⟩
    · refine ⟨Or.inr ⟨Field.isOptional_of_isZero zero, never⟩, fun j there => ?_⟩
      have spelt := Field.count_pos there
      omega
  · intro h
    have each (f : Field) : ∃ e, f.Agrees e members := by
      obtain ⟨once | ⟨optional, never⟩, readable⟩ := h f
      · obtain ⟨j, only⟩ : ∃ j, valuesUnder f.spellings members = [j] :=
          List.length_eq_one_iff.mp (length_valuesUnder.trans once)
        obtain ⟨e, tells⟩ := readable j (mem_valuesUnder.mp (by simp [only]))
        refine ⟨e, Or.inl ⟨once, fun k there => ?_⟩⟩
        have same : k ∈ valuesUnder f.spellings members := mem_valuesUnder.mpr there
        rw [only, List.mem_singleton] at same
        exact same ▸ tells
      · exact ⟨empty, Or.inr ⟨never, Field.isZero_empty optional⟩⟩
    choose part agrees using each
    refine ⟨⟨(part .sender).sender, (part .receiver).receiver, (part .category).category,
      (part .size).size, (part .start).start, (part .finish).finish, (part .localRate).localRate,
      (part .globalRate).globalRate,
      (part .id).id⟩, fun f => ?_⟩
    cases f <;> exact agrees _

theorem Field.Agrees.of_perm (same : (fieldsOf members).Perm (fieldsOf others))
    (h : f.Agrees e members) :
    f.Agrees e others := by
  have count : f.count others = f.count members := ((same.map Prod.fst).count_eq f).symm
  unfold Field.Agrees at *
  rw [count]
  exact h.imp_left fun ⟨once, tells⟩ => ⟨once, fun j there => tells j (same.mem_iff.mpr there)⟩

/-- Members that spell the same fields with the same values are the same event, or both none. -/
theorem ofMembers?_of_perm (names : namesAreText members) (names' : namesAreText others)
    (same : (fieldsOf members).Perm (fieldsOf others)) :
    ofMembers? others = ofMembers? members := by
  ext e
  rw [ofMembers?_eq_some_iff names, ofMembers?_eq_some_iff names']
  exact ⟨fun h f => (h f).of_perm same.symm, fun h f => (h f).of_perm same⟩

end Members

section Text

variable {s : List Char} {members : Members}

theorem read?_of_object (object : Json.read? s = some (.object members)) :
    read? s = ofMembers? members := by
  rw [read?, object, Option.bind_some, ofJson?]

/-- An object whose member names are texts is read as an event if and only if it spells each field
once that must be there and each other field once or not at all, with values that the fields can
have. The event has those values, and zeros for the fields left out. Any other object that spells
the same fields with the same values is read alike, in whatever order and spellings and with
whatever other members, and an object that spells a field twice is no event. -/
theorem read?_of_fields (object : Json.read? s = some (.object members))
    (names : namesAreText members) :
    ((read? s).isSome ↔ ∀ f : Field, (f.count members = 1 ∨ f.isOptional ∧ f.count members = 0) ∧
      ∀ j, (f, j) ∈ fieldsOf members → ∃ e, f.Tells e j) ∧
    (∀ e, read? s = some e → ∀ f : Field,
      (∀ j, (f, j) ∈ fieldsOf members → f.Tells e j) ∧ (f.count members = 0 → f.IsZero e)) ∧
    (∀ s' others, Json.read? s' = some (.object others) → namesAreText others →
      (fieldsOf members).Perm (fieldsOf others) → read? s' = read? s) ∧
    ∀ f : Field, 2 ≤ f.count members → read? s = none := by
  rw [read?_of_object object]
  refine ⟨?_, ?_, ?_, ?_⟩
  · rw [Option.isSome_iff_exists, ← exists_agrees_iff]
    simp only [ofMembers?_eq_some_iff names]
  · intro e read f
    rcases (ofMembers?_eq_some_iff names).mp read f with ⟨once, tells⟩ | ⟨never, zero⟩
    · exact ⟨tells, fun never => by omega⟩
    · refine ⟨fun j there => ?_, fun _ => zero⟩
      have spelt := Field.count_pos there
      omega
  · intro s' others object' names' same
    rw [read?_of_object object', ofMembers?_of_perm names names' same]
  · intro f twice
    refine Option.eq_none_iff_forall_ne_some.mpr fun e read => ?_
    rcases (ofMembers?_eq_some_iff names).mp read f with ⟨once, -⟩ | ⟨never, -⟩
    · omega
    · omega

end Text

def transfer : Event :=
  { sender := "root", receiver := "org", category := "block", size := 32,
    start := .ofNanos 1556712000000000000,
    finish := .ofNanos 1556712001000000000, localRate := 0, globalRate := 0, id := 7 }

def plainMembers : List (String × Json) :=
  [("From", ofText "root"), ("To", ofText "org"), ("Object", ofText "block"), ("Size", ofInt 32),
   ("Start", ofText "2019-05-01T12:00:00Z"), ("End", ofText "2019-05-01T12:00:01Z"),
     ("ID", ofInt 7)]

/-- The same from the last field to the first, in other spellings, and with a member that spells no
field, whatever the object in it spells. -/
def mixedMembers : List (String × Json) :=
  [("id", ofInt 7), ("end", ofText "2019-05-01T12:00:01Z"),
    ("Start", ofText "2019-05-01T12:00:00Z"), ("size", ofInt 32),
    ("FROM", .array [.null, objectOf [("from", ofInt 0)]]), ("object", ofText "block"),
    ("To", ofText "org"), ("from", ofText "root")]

theorem namesAreText_map (members : List (String × Json)) :
    namesAreText (members.map fun m => (some m.1, m.2)) := by
  simp [namesAreText]

/-- The transfer is read from both, and from neither with its sender added in the other spelling. -/
theorem read?_of_fields_mixedMembers :
    Json.read? (write none (objectOf mixedMembers)) = some (objectOf mixedMembers) ∧
      read? (write none (objectOf mixedMembers)) = some transfer ∧ Field.localRate.IsZero transfer ∧
      read? (write none (objectOf (("From", ofText "root") :: mixedMembers))) = none := by
  have writable_plain : ∀ m ∈ plainMembers, Writable m.2 := by
    simp [plainMembers, ofText, writable_ofInt, Writable.string]
  have nested : Writable (.array [.null, objectOf [("from", ofInt 0)]]) := by
    have inner : Writable (objectOf [("from", ofInt 0)]) :=
      writable_objectOf (by simp [writable_ofInt])
    exact Writable.array (by simp [inner, Writable.null])
  have writable_mixed : ∀ m ∈ mixedMembers, Writable m.2 := by
    simp [mixedMembers, ofText, writable_ofInt, Writable.string, nested]
  have twice_sender : ∀ m ∈ ("From", ofText "root") :: mixedMembers, Writable m.2 :=
    List.forall_mem_cons.mpr ⟨Writable.string "root", writable_mixed⟩
  have plain := Json.read?_write (writable_objectOf writable_plain) none
  have mixed := Json.read?_write (writable_objectOf writable_mixed) none
  have twice := Json.read?_write (writable_objectOf twice_sender) none
  have decoded : read? (write none (objectOf plainMembers)) = some transfer := by
    rw [read?_of_object plain]
    decide +kernel
  have reversed : fieldsOf (plainMembers.map fun m => (some m.1, m.2)) =
      (fieldsOf (mixedMembers.map fun m => (some m.1, m.2))).reverse := rfl
  obtain ⟨-, values, alike, -⟩ := read?_of_fields mixed (namesAreText_map mixedMembers)
  have same := alike _ _ plain (namesAreText_map plainMembers)
    (by rw [reversed]; exact (List.reverse_perm _).symm)
  rw [decoded] at same
  obtain ⟨-, -, -, refused⟩ := read?_of_fields twice (namesAreText_map _)
  exact ⟨mixed, same.symm, (values transfer same.symm .localRate).2 (by decide +kernel),
    refused .sender (by decide +kernel)⟩

end Event

end InFlight
