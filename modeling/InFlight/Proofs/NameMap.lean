import InFlight.NameMap
import Mathlib.Tactic.ByContra
/-!
What a map holds that is built by putting items under their names one after another: under each name
what the items of that name come to, in their order.
-/
namespace InFlight

namespace NameMap

variable {ι β γ : Type}

/-- Only the items of a name bear on what stands under it. -/
theorem get?_foldl_upsert (key : ι → String) (f : ι → Option β → β) (items : List ι) (m : NameMap β)
    (name : String) :
    (items.foldl (fun m x => m.upsert (key x) (f x)) m).get? name =
      (items.filter fun x => key x = name).foldl (fun old x => some (f x old)) (m.get? name) := by
  induction items generalizing m with
  | nil => rfl
  | cons x items ih =>
    rw [List.foldl_cons, ih, get?_upsert]
    by_cases same : key x = name
    · rw [if_pos same.symm, List.filter_cons_of_pos (by simpa using same), List.foldl_cons, same]
    · rw [if_neg (Ne.symm same), List.filter_cons_of_neg (by simpa using same)]

theorem isSome_get?_foldl_upsert (key : ι → String) (f : ι → Option β → β) (items : List ι)
    (name : String) :
    ((items.foldl (fun m x => m.upsert (key x) (f x)) empty).get? name).isSome ↔
      name ∈ items.map key := by
  have fold_isSome : ∀ (l : List ι) (old : Option β),
      (l.foldl (fun old x => some (f x old)) old).isSome ↔ old.isSome ∨ l ≠ [] := by
    intro l
    induction l with
    | nil => simp
    | cons x l ih =>
      intro old
      rw [List.foldl_cons, ih]
      simp
  rw [get?_foldl_upsert, fold_isSome, get?_empty]
  simp only [Option.isSome_none, Bool.false_eq_true, false_or, ne_eq, List.filter_eq_nil_iff,
    decide_eq_true_eq, List.mem_map]
  constructor
  · intro some_same
    by_contra absent
    exact some_same fun x hx same => absent ⟨x, hx, same⟩
  · rintro ⟨x, hx, same⟩ none_same
    exact none_same x hx same

theorem mem_entries_iff (m : NameMap β) (name : String) (value : β) :
    (name, value) ∈ m.entries ↔ m.get? name = some value := by
  obtain ⟨entries, ordered⟩ := m
  unfold get?
  dsimp only
  induction entries with
  | nil => simp
  | cons head rest ih =>
    obtain ⟨key, here⟩ := head
    have after := (List.pairwise_cons.mp ordered).1
    rw [List.mem_cons, ih ordered.of_cons, List.lookup_cons]
    by_cases same : name = key
    · subst same
      have absent : rest.lookup name = none := by
        rw [List.lookup_eq_none_iff]
        intro e he
        have := after e he
        simp only [ne_eq, bne_iff_ne]
        intro eq
        exact String.lt_irrefl _ (eq ▸ this)
      simp [absent, eq_comm]
    · simp [same, beq_false_of_ne same]

theorem get?_mapWithName (f : String → β → γ) (m : NameMap β) (name : String) :
    (m.mapWithName f).get? name = (m.get? name).map (f name) := by
  obtain ⟨entries, ordered⟩ := m
  unfold get? mapWithName
  dsimp only
  induction entries with
  | nil => rfl
  | cons head rest ih =>
    obtain ⟨key, here⟩ := head
    rw [List.map_cons, List.lookup_cons, List.lookup_cons, ih ordered.of_cons]
    by_cases same : name = key
    · subst same
      simp
    · simp [beq_false_of_ne same]

/-- Ascending names leave one way to hold the same values. -/
theorem ext_get? {m n : NameMap β} (h : ∀ name, m.get? name = n.get? name) : m = n := by
  apply ext_entries
  apply List.Perm.eq_of_pairwise _ m.ordered n.ordered
  · have once : ∀ o : NameMap β, o.entries.Nodup := by
      intro o
      apply o.ordered.imp
      rintro a b lt rfl
      exact String.lt_irrefl _ lt
    rw [List.perm_ext_iff_of_nodup (once m) (once n)]
    rintro ⟨name, value⟩
    rw [mem_entries_iff, mem_entries_iff, h]
  · intro a b _ _ lt gt
    exact absurd (String.lt_trans lt gt) (String.lt_irrefl _)

theorem mem_keys_iff (m : NameMap β) (name : String) : name ∈ m.keys ↔ (m.get? name).isSome := by
  rw [Option.isSome_iff_exists, keys, List.mem_map]
  constructor
  · rintro ⟨⟨key, value⟩, held, rfl⟩
    exact ⟨value, (mem_entries_iff m key value).mp held⟩
  · rintro ⟨value, held⟩
    exact ⟨(name, value), (mem_entries_iff m name value).mpr held, rfl⟩

theorem pairwise_keys (m : NameMap β) : m.keys.Pairwise fun a b => a < b :=
  List.pairwise_map.mpr m.ordered

theorem nodup_keys (m : NameMap β) : m.keys.Nodup := by
  apply m.pairwise_keys.imp
  rintro a _ lt rfl
  exact String.lt_irrefl _ lt

theorem keys_mapWithName (f : String → β → γ) (m : NameMap β) :
    (m.mapWithName f).keys = m.keys := by
  rw [keys, keys, mapWithName, List.map_map]
  rfl

theorem upsertEntry_of_lt {name : String} (f : Option β → β) {l : List (String × β)}
    (h : ∀ e ∈ l, e.1 < name) :
    upsertEntry name f l = l ++ [(name, f none)] := by
  induction l with
  | nil => rfl
  | cons head rest ih =>
    obtain ⟨key, value⟩ := head
    obtain ⟨lt, others⟩ := List.forall_mem_cons.mp h
    have after : ¬ name < key := fun gt => String.lt_irrefl _ (String.lt_trans lt gt)
    have other : name ≠ key := fun same => String.lt_irrefl _ (same ▸ lt)
    simp [upsertEntry, after, other, ih others]

theorem entries_foldl_insert {m : NameMap β} {l : List (String × β)}
    (h : (m.entries ++ l).Pairwise fun a b => a.1 < b.1) :
    (l.foldl (fun m e => m.insert e.1 e.2) m).entries = m.entries ++ l := by
  induction l generalizing m with
  | nil => exact (List.append_nil _).symm
  | cons e l ih =>
    have before : ∀ a ∈ m.entries, a.1 < e.1 := fun a ha =>
      (List.pairwise_append.mp h).2.2 a ha e List.mem_cons_self
    have inserted : (m.insert e.1 e.2).entries = m.entries ++ [e] := upsertEntry_of_lt _ before
    have moved : m.entries ++ e :: l = m.entries ++ [e] ++ l := by simp
    rw [moved] at h ⊢
    rw [List.foldl_cons, ih (inserted ▸ h), inserted]

/-- A map is filled again by its own entries. -/
theorem ofList_entries (m : NameMap β) : ofList m.entries = m := by
  apply ext_entries
  have filled := entries_foldl_insert (m := empty) (l := m.entries) m.ordered
  exact filled

end NameMap

theorem NameSet.get?_ofList (names : List String) (name : String) :
    (NameSet.ofList names).get? name = if name ∈ names then some ⟨⟩ else none := by
  have held := NameMap.isSome_get?_foldl_upsert id (fun _ _ => PUnit.unit) names name
  rw [List.map_id] at held
  change ((NameSet.ofList names).get? name).isSome ↔ _ at held
  by_cases mem : name ∈ names
  · rw [if_pos mem]
    exact Option.eq_some_iff_get_eq.mpr ⟨held.mpr mem, rfl⟩
  · rw [if_neg mem, ← Option.not_isSome_iff_eq_none, held]
    exact mem

theorem NameSet.mem_ofList (names : List String) (name : String) :
    name ∈ (NameSet.ofList names).toList ↔ name ∈ names := by
  rw [toList, NameMap.mem_keys_iff, get?_ofList]
  by_cases mem : name ∈ names <;> simp [mem]

theorem NameSet.ofList_toList (s : NameSet) : ofList s.toList = s := by
  apply NameMap.ext_get?
  intro name
  have held : name ∈ s.toList ↔ (NameMap.get? s name).isSome := NameMap.mem_keys_iff s name
  rw [get?_ofList]
  simp only [held]
  cases NameMap.get? s name <;> rfl

/-- A set does not know the order in which it was filled, nor how often. -/
theorem NameSet.ofList_eq_ofList {names others : List String}
    (h : ∀ name, name ∈ names ↔ name ∈ others) : ofList names = ofList others := by
  apply NameMap.ext_get?
  intro name
  simp only [get?_ofList, h]

end InFlight
