import InFlight.Proofs.Counts.Balance
/-!
Counts that pass their endpoints in batches, as a sweep passes those of one window after another.
What they hold in the end is known from the endpoints alone: under each category its starts less its
finishes, and a place for every category that was listed at first or met since, in ascending order.
-/
namespace InFlight

namespace Endpoint

def starts (category : String) (points : List Endpoint) : Nat :=
  points.countP fun p => p.category = category && p.isStart

def finishes (category : String) (points : List Endpoint) : Nat :=
  points.countP fun p => p.category = category && !p.isStart

theorem balance_eq_sub (category : String) (points : List Endpoint) :
    balance category points = starts category points - finishes category points := by
  unfold starts finishes
  induction points with
  | nil => rfl
  | cons p points ih =>
    rw [balance_cons, ih, List.countP_cons, List.countP_cons]
    by_cases same : p.category = category
    · cases start : p.isStart <;> simp [same, start, delta] <;> omega
    · simp [same, Ne.symm same]

end Endpoint

namespace NameMap

theorem entries_eq_map_keys {β : Type} (m : NameMap β) {f : String → β}
    (held : ∀ name value, m.get? name = some value → f name = value) :
    m.entries = m.keys.map fun name => (name, f name) := by
  have same : ∀ e ∈ m.entries, (e.1, f e.1) = e := by
    rintro ⟨name, value⟩ mem
    exact Prod.ext rfl (held name value ((mem_entries_iff m name value).mp mem))
  rw [keys, List.map_map]
  exact (List.map_congr_left same).trans (List.map_id _) |>.symm

end NameMap

namespace Counts

variable {c d : Counts} {categories : List String} {name : String}

theorem get?_eq_ite (c : Counts) (name : String) :
    c.get? name = if name ∈ c.keys then some (c.count name) else none := by
  unfold count
  cases held : c.get? name with
  | none => simp [NameMap.mem_keys_iff, held]
  | some n => simp [NameMap.mem_keys_iff, held]

theorem count_eq_zero_of_not_mem (absent : name ∉ c.keys) : c.count name = 0 := by
  have nothing := get?_eq_ite c name
  rw [if_neg absent] at nothing
  rw [count, nothing]
  rfl

/-- Counts are the same that have places for the same categories and the same number under each. -/
theorem ext_count (keys : ∀ name, name ∈ c.keys ↔ name ∈ d.keys)
    (counts : ∀ name, c.count name = d.count name) :
    c = d := by
  apply NameMap.ext_get?
  intro name
  rw [get?_eq_ite, get?_eq_ite, counts]
  simp only [keys]

theorem entries_eq_map_count (c : Counts) :
    c.entries = c.keys.map fun name => (name, c.count name) := by
  apply c.entries_eq_map_keys
  intro name n held
  rw [count, held]
  rfl

theorem mem_keys_zeroed : name ∈ (zeroed categories).keys ↔ name ∈ categories := by
  have held := NameMap.isSome_get?_foldl_upsert id (fun _ _ => (0 : Int)) categories name
  rw [List.map_id] at held
  exact (NameMap.mem_keys_iff _ name).trans held

theorem mem_keys_step (c : Counts) (p : Endpoint) :
    name ∈ (c.step p).keys ↔ name = p.category ∨ name ∈ c.keys := by
  rw [NameMap.mem_keys_iff, NameMap.mem_keys_iff, step, NameMap.get?_upsert]
  by_cases same : name = p.category
  · simp [same]
  · simp [same]

theorem mem_keys_advance (c : Counts) (points : List Endpoint) :
    name ∈ (c.advance points).keys ↔ name ∈ c.keys ∨ name ∈ points.map Endpoint.category := by
  induction points generalizing c with
  | nil => simp
  | cons p points ih =>
    change name ∈ ((c.step p).advance points).keys ↔ _
    rw [ih, mem_keys_step, List.map_cons, List.mem_cons, or_assoc, or_left_comm]

/-- The counts behind all endpoints of some batches, where the categories of a list start from
zero. -/
def overBatches (categories : List String) (batches : List (List Endpoint)) : Counts :=
  batches.foldl advance (zeroed categories)

theorem foldl_advance (c : Counts) (batches : List (List Endpoint)) :
    batches.foldl advance c = c.advance batches.flatten := by
  induction batches generalizing c with
  | nil => rfl
  | cons points batches ih => rw [List.foldl_cons, ih, List.flatten_cons, advance_append]

section OverBatches

variable {batches : List (List Endpoint)}

theorem count_overBatches (categories : List String) (batches : List (List Endpoint))
    (name : String) :
    (overBatches categories batches).count name =
      Endpoint.starts name batches.flatten - Endpoint.finishes name batches.flatten := by
  rw [overBatches, foldl_advance, count_advance, count_zeroed,
    Endpoint.balance_eq_sub, Int.zero_add]

theorem mem_keys_overBatches :
    name ∈ (overBatches categories batches).keys ↔
      name ∈ categories ∨ name ∈ batches.flatten.map Endpoint.category := by
  rw [overBatches, foldl_advance, mem_keys_advance, mem_keys_zeroed]

theorem overBatches_perm {others : List (List Endpoint)} (h : others.flatten.Perm batches.flatten) :
    overBatches categories others = overBatches categories batches := by
  apply ext_count
  · intro name
    rw [mem_keys_overBatches, mem_keys_overBatches, (h.map Endpoint.category).mem_iff]
  · intro name
    rw [count_overBatches, count_overBatches, Endpoint.starts, Endpoint.finishes,
      h.countP_eq, h.countP_eq]
    rfl

end OverBatches

/-- Under every name stand its starts less its finishes over all batches, in whatever batches and
order the endpoints come. The names listed at first and those of the endpoints are run through in
ascending order, each once with its count, and any other name counts nothing. -/
theorem overBatches_eq_starts_sub_finishes (categories : List String)
    (batches : List (List Endpoint)) :
    (∀ name, (overBatches categories batches).count name =
      Endpoint.starts name batches.flatten - Endpoint.finishes name batches.flatten) ∧
    (∀ others : List (List Endpoint), others.flatten.Perm batches.flatten →
      overBatches categories others = overBatches categories batches) ∧
    ((overBatches categories batches).entries =
      (overBatches categories batches).keys.map fun name =>
      (name, (overBatches categories batches).count name)) ∧
    ((overBatches categories batches).keys.Pairwise (· < ·) ∧
      ∀ name, name ∈ (overBatches categories batches).keys ↔
        name ∈ categories ∨ ∃ points ∈ batches, ∃ p ∈ points, p.category = name) ∧
    ∀ name, name ∉ categories → (∀ points ∈ batches, ∀ p ∈ points, p.category ≠ name) →
      (overBatches categories batches).get? name = none ∧
      (overBatches categories batches).count name = 0 := by
  have keys : ∀ name, name ∈ (overBatches categories batches).keys ↔
      name ∈ categories ∨ ∃ points ∈ batches, ∃ p ∈ points, p.category = name := by
    intro name
    rw [mem_keys_overBatches]
    simp only [List.mem_map, List.mem_flatten]
    constructor
    · rintro (listed | ⟨p, ⟨points, hb, hp⟩, same⟩)
      · exact Or.inl listed
      · exact Or.inr ⟨points, hb, p, hp, same⟩
    · rintro (listed | ⟨points, hb, p, hp, same⟩)
      · exact Or.inl listed
      · exact Or.inr ⟨p, ⟨points, hb, hp⟩, same⟩
  refine ⟨count_overBatches categories batches, fun others => overBatches_perm,
    entries_eq_map_count _, ⟨NameMap.pairwise_keys _, keys⟩, ?_⟩
  intro name unlisted unseen
  have absent : name ∉ (overBatches categories batches).keys := by
    rw [keys]
    rintro (listed | ⟨points, hb, p, hp, same⟩)
    · exact unlisted listed
    · exact unseen points hb p hp same
  rw [get?_eq_ite, if_neg absent]
  exact ⟨rfl, count_eq_zero_of_not_mem absent⟩

def startOf (category : String) : Endpoint := ⟨category, .ofNanos 0, true, 0, 10, 5, 1⟩
def finishOf (category : String) : Endpoint := { startOf category with isStart := false }

theorem overBatches_eq_starts_sub_finishes_unlisted :
    let batches := [[startOf "nonce", finishOf "block"], [],
      [finishOf "block", startOf "nonce", startOf "block"]]
    (overBatches ["vote", "block", "vote"] batches).entries =
        [("block", -1), ("nonce", 2), ("vote", 0)] ∧
      (overBatches ["vote", "block", "vote"] batches).count "block" = 1 - 2 ∧
      overBatches ["vote", "block", "vote"] batches.reverse =
        overBatches ["vote", "block", "vote"] batches ∧
      (overBatches ["vote", "block", "vote"] batches).count "ping" = 0 := by
  intro batches
  obtain ⟨counts, anyOrder, -, -, others⟩ :=
    overBatches_eq_starts_sub_finishes ["vote", "block", "vote"] batches
  refine ⟨by decide +kernel, counts "block", anyOrder batches.reverse (by decide), ?_⟩
  exact (others "ping" (by decide) (by decide)).2

end Counts

end InFlight
