import InFlight.Yaml.Kind
/-!
Records that a mapping holds. A record is refused for a key that is none of its names, and a field
is found under its name wherever it stands among the others.
-/
namespace InFlight.Yaml.Node

def HasOther (names : List String) (entries : List (Node × Node)) : Prop :=
  ∃ e ∈ entries, ∀ name ∈ names, e.1.text? ≠ some name

instance (names : List String) (entries : List (Node × Node)) :
    Decidable (HasOther names entries) :=
  inferInstanceAs (Decidable (∃ e ∈ entries, ∀ name ∈ names, e.1.text? ≠ some name))

variable {names : List String} {tag : Option String} {before after : List (Node × Node)}
  {key value : Node}
  {name other : String} {fields : Fields}

theorem fields?_around_eq_some_iff :
    (mapping tag (before ++ (key, value) :: after)).fields? = some fields ↔
    ∃ name, key.text? = some name ∧ ∃ b a, (mapping tag before).fields? = some b ∧
      (mapping tag after).fields? = some a ∧ fields = b ++ (name, value) :: a := by
  simp only [fields?, List.mapM_append, List.mapM_cons, Option.bind_eq_bind,
    Option.bind_eq_some_iff, Option.map_eq_some_iff, Option.pure_def, Option.some.injEq]
  constructor
  · rintro ⟨b, first, _, ⟨_, ⟨name, named, rfl⟩, a, last, rfl⟩, rfl⟩
    exact ⟨name, named, b, a, first, last, rfl⟩
  · rintro ⟨name, named, b, a, first, last, rfl⟩
    exact ⟨b, first, _, ⟨_, ⟨name, named, rfl⟩, a, last, rfl⟩, rfl⟩

theorem record?_eq_some_iff {n : Node} : n.record? names = some fields ↔
    n.fields? = some fields ∧ (∀ f ∈ fields, f.1 ∈ names) ∧ (fields.map (·.1)).Nodup := by
  unfold record?
  cases n.fields? with
  | none => simp
  | some found =>
    simp only [Option.bind_eq_bind, Option.bind_some, Option.ite_none_right_eq_some,
      Option.some.injEq, List.all_eq_true, List.contains_iff_mem]
    constructor
    · rintro ⟨own, rfl⟩
      exact ⟨rfl, own⟩
    · rintro ⟨rfl, own⟩
      exact ⟨own, rfl⟩

theorem record?_eq_none_of_hasOther {entries : List (Node × Node)} (h : HasOther names entries) :
    (mapping tag entries).record? names = none := by
  obtain ⟨e, among, foreign⟩ := h
  obtain ⟨before, after, rfl⟩ := List.append_of_mem among
  rw [Option.eq_none_iff_forall_ne_some]
  intro fields accepted
  obtain ⟨found, own, -⟩ := record?_eq_some_iff.mp accepted
  obtain ⟨name, named, b, a, -, -, rfl⟩ := fields?_around_eq_some_iff.mp found
  exact foreign name (own (name, e.2) (by simp)) named

structure Surround (names : List String) (tag : Option String) (before after : List (Node × Node))
    (name : String) (b a : Fields) : Prop where
  before_eq : (mapping tag before).fields? = some b
  after_eq : (mapping tag after).fields? = some a
  own : ∀ other ∈ b.map (·.1) ++ name :: a.map (·.1), other ∈ names
  unique : (b.map (·.1) ++ name :: a.map (·.1)).Nodup

theorem record?_around_eq_some_iff (named : key.text? = some name) :
    (mapping tag (before ++ (key, value) :: after)).record? names = some fields ↔
      ∃ b a, Surround names tag before after name b a ∧ fields = b ++ (name, value) :: a := by
  rw [record?_eq_some_iff, fields?_around_eq_some_iff]
  constructor
  · rintro ⟨⟨name', named', b, a, first, last, rfl⟩, own, unique⟩
    obtain rfl := Option.some.inj (named.symm.trans named')
    rw [List.map_append, List.map_cons] at unique
    refine ⟨b, a, ⟨first, last, ?_, unique⟩, rfl⟩
    rw [← List.map_cons (f := (·.1)) (a := (name, value)), ← List.map_append, List.forall_mem_map]
    exact own
  · rintro ⟨b, a, around, rfl⟩
    refine ⟨⟨name, named, b, a, around.before_eq, around.after_eq, rfl⟩, ?_, ?_⟩
    · rw [← List.forall_mem_map (P := (· ∈ names)), List.map_append, List.map_cons]
      exact around.own
    · rw [List.map_append, List.map_cons]
      exact around.unique

section Get

variable {α : Type} {default : α} {decode : Node → Option α} {b a : Fields}

theorem Surround.get?_self (around : Surround names tag before after name b a) :
    Fields.get? (b ++ (name, value) :: a) name default decode = decode value := by
  have found : (b ++ (name, value) :: a).lookup name = some value := by
    rw [List.lookup_eq_some_iff]
    refine ⟨b, a, rfl, fun p among => ?_⟩
    have apart := (List.nodup_append.mp around.unique).2.2 _ (List.mem_map_of_mem among) _
      List.mem_cons_self
    exact bne_iff_ne.mpr apart.symm
  rw [Fields.get?, found]

theorem Fields.get?_around_of_ne (apart : other ≠ name) :
    Fields.get? (b ++ (name, value) :: a) other default decode =
      Fields.get? (b ++ a) other default decode := by
  have found : (b ++ (name, value) :: a).lookup other = (b ++ a).lookup other := by
    rw [List.lookup_append, List.lookup_append, List.lookup_cons, beq_eq_false_iff_ne.mpr apart]
  rw [get?, get?, found]

/-- A field of a record is what its value is decoded to. -/
theorem get?_of_record? {entries : List (Node × Node)}
    (accepted : (mapping tag entries).record? names = some fields) (among : (key, value) ∈ entries)
    (named : key.text? = some name) :
    fields.get? name default decode = decode value := by
  obtain ⟨before, after, rfl⟩ := List.append_of_mem among
  obtain ⟨b, a, around, rfl⟩ := (record?_around_eq_some_iff named).mp accepted
  exact around.get?_self

end Get

end InFlight.Yaml.Node
