/-!
Finite maps from names, kept in ascending order of the names. Two maps are equal exactly when they
hold the same values under the same names.
-/
namespace InFlight

structure NameMap (β : Type) where
  entries : List (String × β)
  ordered : entries.Pairwise fun a b => a.1 < b.1

namespace NameMap

variable {β γ : Type}

theorem ext_entries {m n : NameMap β} (h : m.entries = n.entries) : m = n := by
  cases m; cases n; simp_all

instance [DecidableEq β] : DecidableEq (NameMap β) := fun m n =>
  decidable_of_iff (m.entries = n.entries) ⟨ext_entries, fun h => h ▸ rfl⟩

instance [Repr β] : Repr (NameMap β) := ⟨fun m n => reprPrec m.entries n⟩

def empty : NameMap β := ⟨[], List.Pairwise.nil⟩

instance : Inhabited (NameMap β) := ⟨empty⟩

def size (m : NameMap β) : Nat := m.entries.length
def keys (m : NameMap β) : List String := m.entries.map (·.1)
def values (m : NameMap β) : List β := m.entries.map (·.2)
def get? (m : NameMap β) (name : String) : Option β := m.entries.lookup name

def upsertEntry (name : String) (f : Option β → β) : List (String × β) → List (String × β)
  | [] => [(name, f none)]
  | (key, value) :: r =>
    if name < key then (name, f none) :: (key, value) :: r
    else if name = key then (key, f (some value)) :: r
    else (key, value) :: upsertEntry name f r

theorem mem_upsertEntry {name : String} {f : Option β → β} {l : List (String × β)} {e : String × β}
    (h : e ∈ upsertEntry name f l) : e.1 = name ∨ e ∈ l := by
  induction l with
  | nil => simp_all [upsertEntry]
  | cons head r ih => grind [upsertEntry]

theorem upsertEntry_ordered (name : String) (f : Option β → β) {l : List (String × β)}
    (h : l.Pairwise fun a b => a.1 < b.1) :
    (upsertEntry name f l).Pairwise fun a b => a.1 < b.1 := by
  induction l with
  | nil => simp [upsertEntry]
  | cons head r ih =>
    obtain ⟨key, value⟩ := head
    rw [List.pairwise_cons] at h
    unfold upsertEntry
    split
    · simp only [List.pairwise_cons]
      grind
    · split
      · rw [List.pairwise_cons]
        grind
      · rw [List.pairwise_cons]
        refine ⟨fun e he => ?_, ih h.2⟩
        have := mem_upsertEntry he
        grind

def upsert (m : NameMap β) (name : String) (f : Option β → β) : NameMap β :=
  ⟨upsertEntry name f m.entries, upsertEntry_ordered name f m.ordered⟩

def insert (m : NameMap β) (name : String) (value : β) : NameMap β := m.upsert name fun _ => value

/-- Inserts from the left, so the last value of a name stays. -/
def ofList (l : List (String × β)) : NameMap β := l.foldl (fun m e => m.insert e.1 e.2) empty

theorem map_ordered (f : String → β → γ) {l : List (String × β)}
    (h : l.Pairwise fun a b => a.1 < b.1) :
    (l.map fun e => (e.1, f e.1 e.2)).Pairwise fun a b => a.1 < b.1 := by
  rw [List.pairwise_map]; exact h

def mapWithName (f : String → β → γ) (m : NameMap β) : NameMap γ :=
  ⟨m.entries.map fun e => (e.1, f e.1 e.2), map_ordered f m.ordered⟩

@[simp] theorem entries_empty : (empty : NameMap β).entries = [] := rfl
@[simp] theorem get?_empty (name : String) : (empty : NameMap β).get? name = none := rfl

theorem lookup_upsertEntry (name other : String) (f : Option β → β) {l : List (String × β)}
    (h : l.Pairwise fun a b => a.1 < b.1) :
    (upsertEntry name f l).lookup other =
      if other = name then some (f (l.lookup name)) else l.lookup other := by
  induction l with
  | nil => by_cases eq : other = name <;> simp [upsertEntry, List.lookup_cons, eq, beq_false_of_ne]
  | cons head r ih =>
    obtain ⟨key, value⟩ := head
    rw [List.pairwise_cons] at h
    have absent : ∀ n : String, (∀ e ∈ r, n < e.1) → r.lookup n = none := by
      intro n hn
      rw [List.lookup_eq_none_iff]
      intro e he
      have := hn e he
      simp only [ne_eq, bne_iff_ne]
      rintro rfl
      exact String.lt_irrefl _ this
    unfold upsertEntry
    split
    · rename_i lt
      have := absent name (fun e he => String.lt_trans lt (h.1 e he))
      grind
    · split
      · grind
      · have := ih h.2
        grind

theorem get?_upsert (m : NameMap β) (name other : String) (f : Option β → β) :
    (m.upsert name f).get? other = if other = name then some (f (m.get? name)) else m.get? other :=
  lookup_upsertEntry name other f m.ordered

theorem get?_insert (m : NameMap β) (name other : String) (value : β) :
    (m.insert name value).get? other = if other = name then some value else m.get? other :=
  get?_upsert m name other _

end NameMap

abbrev NameSet := NameMap PUnit

namespace NameSet

def insert (s : NameSet) (name : String) : NameSet := NameMap.insert s name ⟨⟩
def ofList (names : List String) : NameSet := names.foldl NameSet.insert NameMap.empty
def toList (s : NameSet) : List String := NameMap.keys s

end NameSet

end InFlight
