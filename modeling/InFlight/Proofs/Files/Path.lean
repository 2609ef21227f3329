import InFlight.Files.Path
import Mathlib.Data.List.Basic
import Mathlib.Data.List.TakeWhile
/-!
The name of a path is its last piece that means anything, and another name put in its place is the
last piece of all.
-/
namespace InFlight.Path

section Pieces

theorem pieces_ne_nil (s : List Char) : pieces s ≠ [] := by
  cases s with
  | nil => simp [pieces]
  | cons c r =>
    simp only [pieces]
    split
    · simp
    · split <;> simp

theorem pieces_append_slash (s r : List Char) : pieces (s ++ '/' :: r) = pieces s ++ pieces r := by
  induction s with
  | nil => simp [pieces]
  | cons c t ih =>
    by_cases slash : c = '/'
    · simp [pieces, slash, ih]
    · obtain ⟨piece, rest, split⟩ := List.exists_cons_of_ne_nil (pieces_ne_nil t)
      simp [pieces, slash, ih, split]

theorem pieces_of_not_mem {name : List Char} (h : '/' ∉ name) : pieces name = [name] := by
  induction name with
  | nil => rfl
  | cons c t ih =>
    rw [List.mem_cons, not_or] at h
    simp [pieces, ih h.2, Ne.symm h.1]

theorem pieces_of_slash (s : List Char) : pieces ('/' :: s) = [] :: pieces s :=
  pieces_append_slash [] s

theorem slash_not_mem_of_mem_pieces {s piece : List Char} (h : piece ∈ pieces s) : '/' ∉ piece := by
  induction s generalizing piece with
  | nil => simp_all [pieces]
  | cons c t ih =>
    obtain ⟨first, rest, split⟩ := List.exists_cons_of_ne_nil (pieces_ne_nil t)
    rw [split] at ih
    by_cases slash : c = '/'
    · subst slash
      rw [pieces_of_slash, split] at h
      rcases List.mem_cons.mp h with rfl | among
      · simp
      · exact ih among
    · simp only [pieces, if_neg slash, split] at h
      rcases List.mem_cons.mp h with rfl | among
      · rw [List.mem_cons, not_or]
        exact ⟨Ne.symm slash, ih List.mem_cons_self⟩
      · exact ih (List.mem_cons_of_mem first among)

end Pieces

section Name

variable {path name : List Char}

theorem fileName?_eq_some_iff : fileName? path = some name ↔
    ∃ rest, bodyReversed path = name :: rest ∧ isParent name = false := by
  unfold fileName?
  split
  · rename_i piece rest body
    cases parent : isParent piece with
    | true =>
      simp only [if_true, body, List.cons.injEq]
      refine iff_of_false nofun ?_
      rintro ⟨_, ⟨rfl, -⟩, plain⟩
      rw [parent] at plain
      cases plain
    | false =>
      simp only [Bool.false_eq_true, if_false, body, List.cons.injEq, Option.some.injEq]
      constructor
      · rintro rfl
        exact ⟨rest, ⟨rfl, rfl⟩, parent⟩
      · rintro ⟨_, ⟨rfl, -⟩, -⟩
        rfl
  · rename_i body
    simp [body]

/-- The pieces of a path and those of its body end alike; before that the body has pieces that mean
nothing. -/
theorem exists_pieces_eq_append (path : List Char) :
    ∃ front lead body, pieces path = front ++ body ∧
    pieces (path.drop (headLength path)) = lead ++ body ∧ ∀ b ∈ lead, isTrivial b := by
  unfold headLength
  split
  · rename_i r
    exact ⟨[[]], [], pieces r, pieces_of_slash r, rfl, by simp⟩
  · exact ⟨[['.']], [[]], [], rfl, rfl, by simp [isTrivial]⟩
  · rename_i r
    have dot : pieces ('.' :: '/' :: r) = pieces ['.'] ++ pieces r := pieces_append_slash ['.'] r
    exact ⟨[['.']], [[]], pieces r, dot, pieces_of_slash r, by simp [isTrivial]⟩
  · exact ⟨[], [], pieces path, rfl, rfl, by simp⟩

theorem exists_pieces_of_fileName? (h : fileName? path = some name) :
    ∃ front back, pieces path = front ++ name :: back ∧ (∀ b ∈ back, isTrivial b) ∧
      isTrivial name = false ∧
      isParent name = false := by
  obtain ⟨rest, reversed, plain⟩ := fileName?_eq_some_iff.mp h
  obtain ⟨front, lead, body, whole, split, trivial_lead⟩ := exists_pieces_eq_append path
  have name_counts : isTrivial name = false := by
    have first := List.head?_dropWhile_not isTrivial (pieces (path.drop (headLength path))).reverse
    rw [← bodyReversed, reversed] at first
    exact first
  obtain ⟨back, trivial_back, ends⟩ : ∃ back, (∀ b ∈ back, isTrivial b) ∧
      lead ++ body = rest.reverse ++ name :: back := by
    have parts := List.takeWhile_append_dropWhile (p := isTrivial)
      (l := (pieces (path.drop (headLength path))).reverse)
    rw [← bodyReversed, reversed] at parts
    refine ⟨((pieces (path.drop (headLength path))).reverse.takeWhile isTrivial).reverse, ?_, ?_⟩
    · intro b hb
      exact List.mem_takeWhile_imp (List.mem_reverse.mp hb)
    · rw [← split]
      simpa using (congrArg List.reverse parts).symm
  rcases List.append_eq_append_iff.mp ends with ⟨between, -, same⟩ | ⟨between, same, shared⟩
  · exact ⟨front ++ between, back, by rw [whole, same, List.append_assoc], trivial_back,
      name_counts, plain⟩
  · cases between with
    | nil =>
      exact ⟨front, back, by rw [whole, ← List.nil_append body, ← shared], trivial_back,
        name_counts, plain⟩
    | cons b between =>
      obtain rfl := (List.cons.inj shared).1
      simp [trivial_lead name (by simp [same])] at name_counts

theorem slash_not_mem_of_fileName? (h : fileName? path = some name) : '/' ∉ name := by
  obtain ⟨front, back, split, -⟩ := exists_pieces_of_fileName? h
  exact slash_not_mem_of_mem_pieces (show name ∈ pieces path by simp [split])

/-- A name without slashes becomes the last piece. -/
theorem exists_pieces_join {base : List Char} (slashless : '/' ∉ name) :
    ∃ front, pieces (join base name) = front ++ [name] := by
  have relative : name.head? ≠ some '/' := fun head => slashless (List.mem_of_mem_head? head)
  unfold join
  rw [if_neg relative]
  split
  · rename_i bare
    rcases bare with rfl | slash
    · exact ⟨[], by rw [List.nil_append, pieces_of_not_mem slashless]; rfl⟩
    · obtain ⟨dir, rfl⟩ := List.getLast?_eq_some_iff.mp slash
      refine ⟨pieces dir, ?_⟩
      rw [List.append_assoc, List.singleton_append, pieces_append_slash,
        pieces_of_not_mem slashless]
  · refine ⟨pieces base, ?_⟩
    rw [pieces_append_slash, pieces_of_not_mem slashless]

theorem exists_pieces_withFileName (slashless : '/' ∉ name) (path : List Char) :
    ∃ front, pieces (withFileName path name) = front ++ [name] := by
  unfold withFileName
  split
  · exact exists_pieces_join slashless
  · exact exists_pieces_join slashless

structure IsPlain (name : List Char) : Prop where
  slashless : '/' ∉ name
  counts : isTrivial name = false
  noParent : isParent name = false

end Name

end InFlight.Path
