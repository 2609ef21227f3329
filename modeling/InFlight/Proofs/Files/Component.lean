import InFlight.Proofs.Files.Extension
/-!
What a path is made of. A name is a path of one component, which is neither the directory nor its
parent; put behind a path it is one component more.
-/
namespace InFlight.Path

inductive Component where
  | root
  | current
  | parent
  | normal (name : List Char)
  deriving DecidableEq, Repr

/-- Pieces behind the head of a path that are empty or a dot mean nothing. -/
def component? (piece : List Char) : Option Component :=
  if isTrivial piece then none else if isParent piece then some .parent else some (.normal piece)

def head? : List Char → Option Component
  | '/' :: _ => some .root
  | ['.'] => some .current
  | '.' :: '/' :: _ => some .current
  | _ => none

def components (path : List Char) : List Component :=
  (head? path).toList ++ (pieces (path.drop (headLength path))).filterMap component?

def IsName (name : List Char) : Prop := components name = [.normal name]

instance (name : List Char) : Decidable (IsName name) := inferInstanceAs (Decidable (_ = _))

section Component

variable {name piece base : List Char}

theorem component?_eq_normal_iff : component? piece = some (.normal name) ↔
    piece = name ∧ isTrivial piece = false ∧ isParent piece = false := by
  unfold component?
  split
  · simp_all
  · split
    · simp_all
    · simp_all

theorem component?_of_isPlain (h : IsPlain name) : component? name = some (.normal name) :=
  component?_eq_normal_iff.mpr ⟨rfl, h.counts, h.noParent⟩

theorem isPlain_iff : IsPlain name ↔ '/' ∉ name ∧ name ≠ [] ∧ name ≠ ['.'] ∧ name ≠ ['.', '.'] := by
  constructor
  · intro h
    have counts := h.counts
    have noParent := h.noParent
    simp only [isTrivial, isParent, Bool.or_eq_false_iff, beq_eq_false_iff_ne] at counts noParent
    exact ⟨h.slashless, counts.1, counts.2, noParent⟩
  · rintro ⟨slashless, some_text, here, parent⟩
    exact ⟨slashless, by simp [isTrivial, some_text, here], by simp [isParent, parent]⟩

/-- What is longer than two dots is neither the directory nor its parent. -/
theorem isPlain_of_two_lt_length (slashless : '/' ∉ name) (long : 2 < name.length) :
    IsPlain name := by
  refine isPlain_iff.mpr ⟨slashless, ?_, ?_, ?_⟩ <;> rintro rfl <;> simp at long

theorem headLength_le (path : List Char) : headLength path ≤ path.length := by
  unfold headLength
  split <;> simp

theorem filterMap_pieces_of_slashless (slashless : '/' ∉ name) :
    (pieces name).filterMap component? = (component? name).toList := by
  rw [pieces_of_not_mem slashless]
  cases component : component? name <;> simp [component]

theorem components_of_slashless (slashless : '/' ∉ name) (here : name ≠ ['.']) :
    components name = (component? name).toList := by
  have no_head : head? name = none := by
    unfold head?
    split <;> simp_all
  have no_length : headLength name = 0 := by
    unfold headLength
    split <;> simp_all
  unfold components
  rw [no_head, no_length, List.drop_zero, filterMap_pieces_of_slashless slashless]
  rfl

/-- The names of paths are the names that files can have. -/
theorem isName_iff : IsName name ↔ IsPlain name := by
  unfold IsName
  constructor
  · intro h
    unfold components at h
    cases head : head? name with
    | some c =>
      have first : c = .normal name := by
        rw [head] at h
        exact (List.cons.inj h).1
      unfold head? at head
      split at head <;> simp_all
    | none =>
      rw [head] at h
      have there : Component.normal name ∈ (pieces (name.drop (headLength name))).filterMap
          component? := by
        rw [← List.nil_append (List.filterMap _ _)]
        exact h ▸ List.mem_singleton_self _
      obtain ⟨piece, among, same⟩ := List.mem_filterMap.mp there
      obtain ⟨rfl, counts, noParent⟩ := component?_eq_normal_iff.mp same
      exact ⟨slash_not_mem_of_mem_pieces among, counts, noParent⟩
  · intro h
    obtain ⟨slashless, -, here, -⟩ := isPlain_iff.mp h
    rw [components_of_slashless slashless here, component?_of_isPlain h]
    rfl

/-- A slash behind some text leaves the head of it as it is. -/
theorem head_append_slash (some_text : base ≠ []) (r : List Char) :
    head? (base ++ '/' :: r) = head? base ∧ headLength (base ++ '/' :: r) = headLength base := by
  match base, some_text with
  | [c], _ =>
    unfold head? headLength
    constructor <;> split <;> simp_all
  | c :: d :: t, _ =>
    unfold head? headLength
    constructor <;> split <;> simp_all

theorem components_append_slash (some_text : base ≠ []) (r : List Char) :
    components (base ++ '/' :: r) = components base ++ (pieces r).filterMap component? := by
  obtain ⟨head, length⟩ := head_append_slash some_text r
  unfold components
  rw [head, length, List.drop_append_of_le_length (headLength_le base), pieces_append_slash,
    List.filterMap_append, List.append_assoc]

theorem components_of_slash (r : List Char) :
    components ('/' :: r) = .root :: (pieces r).filterMap component? := rfl

/-- What is joined to a path is the last component of it. Only a dot is a component where nothing
stands before it. -/
theorem components_join (slashless : '/' ∉ name) (behind : base ≠ [] ∨ name ≠ ['.']) :
    components (join base name) = components base ++ (component? name).toList := by
  have relative : name.head? ≠ some '/' := fun head => slashless (List.mem_of_mem_head? head)
  have nothing : (pieces []).filterMap component? = [] := rfl
  unfold join
  rw [if_neg relative]
  split
  · rename_i bare
    rcases bare with rfl | slash
    · exact components_of_slashless slashless (behind.resolve_left fun some_base => some_base rfl)
    · obtain ⟨dir, rfl⟩ := List.getLast?_eq_some_iff.mp slash
      rw [List.append_assoc, List.singleton_append]
      by_cases whole : dir = []
      · rw [whole, List.nil_append, List.nil_append, components_of_slash,
          components_of_slash, nothing, filterMap_pieces_of_slashless slashless]
        rfl
      · rw [components_append_slash whole, components_append_slash whole, nothing, List.append_nil,
          filterMap_pieces_of_slashless slashless]
  · rename_i bare
    rw [components_append_slash (fun empty => bare (Or.inl empty)),
      filterMap_pieces_of_slashless slashless]

end Component

end InFlight.Path
