import InFlight.Proofs.Files.Path
import Mathlib.Data.List.TakeDrop
/-!
Names and their extensions. A name with another extension is the name up to its last dot and the new
extension, save where nothing but a dot stands before the last dot: what is left of such a name is
the parent.
-/
namespace InFlight.Path

section Split

variable {name stem ext : List Char}

/-- A text with a dot in it is cut at the last one. -/
theorem exists_eq_append_dot (h : '.' ∈ name) :
    ∃ stem ext, '.' ∉ ext ∧ name = stem ++ '.' :: ext := by
  obtain ⟨behind, before, split, dotless⟩ := List.eq_append_cons_of_mem (List.mem_reverse.mpr h)
  refine ⟨before.reverse, behind.reverse, fun dot => dotless (List.mem_reverse.mp dot), ?_⟩
  simpa using congrArg List.reverse split

theorem ne_dot_of_mem_reverse (dotless : '.' ∉ ext) : ∀ c ∈ ext.reverse, decide (c ≠ '.') := by
  intro c hc
  rw [decide_eq_true_eq]
  rintro rfl
  exact dotless (List.mem_reverse.mp hc)

theorem span_ne_reverse (stem : List Char) (dotless : '.' ∉ ext) :
    (stem ++ '.' :: ext).reverse.span (· ≠ '.') = (ext.reverse, '.' :: stem.reverse) := by
  have behind := ne_dot_of_mem_reverse dotless
  have parts : (stem ++ '.' :: ext).reverse = ext.reverse ++ '.' :: stem.reverse := by simp
  rw [List.span_eq_takeWhile_dropWhile, parts, List.takeWhile_append_of_pos behind,
    List.dropWhile_append_of_pos behind]
  simp

theorem splitExtension?_append (some_stem : stem ≠ []) (dotless : '.' ∉ ext) :
    splitExtension? (stem ++ '.' :: ext) = some (stem, ext) := by
  unfold splitExtension?
  rw [span_ne_reverse stem dotless]
  obtain ⟨c, r, split⟩ := List.exists_cons_of_ne_nil (List.reverse_ne_nil_iff.mpr some_stem)
  have turned : (c :: r).reverse = stem := by rw [← split, List.reverse_reverse]
  rw [split]
  change some ((c :: r).reverse, ext.reverse.reverse) = _
  rw [turned, List.reverse_reverse]

theorem splitExtension?_of_dotless (dotless : '.' ∉ name) : splitExtension? name = none := by
  unfold splitExtension?
  rw [List.span_eq_takeWhile_dropWhile,
    List.dropWhile_eq_nil_iff.mpr (ne_dot_of_mem_reverse dotless)]

theorem splitExtension?_of_hidden (dotless : '.' ∉ ext) : splitExtension? ('.' :: ext) = none := by
  unfold splitExtension?
  rw [← List.nil_append ('.' :: ext), span_ne_reverse [] dotless]
  rfl

theorem splitExtension?_eq_some_iff : splitExtension? name = some (stem, ext) ↔
    stem ≠ [] ∧ '.' ∉ ext ∧ name = stem ++ '.' :: ext := by
  constructor
  · intro h
    by_cases dot : '.' ∈ name
    · obtain ⟨stem', ext', dotless, rfl⟩ := exists_eq_append_dot dot
      by_cases none_before : stem' = []
      · rw [none_before, List.nil_append, splitExtension?_of_hidden dotless] at h
        cases h
      · rw [splitExtension?_append none_before dotless, Option.some.injEq, Prod.mk.injEq] at h
        obtain ⟨rfl, rfl⟩ := h
        exact ⟨none_before, dotless, rfl⟩
    · rw [splitExtension?_of_dotless dot] at h
      cases h
  · rintro ⟨some_stem, dotless, rfl⟩
    exact splitExtension?_append some_stem dotless

theorem stem_append (some_stem : stem ≠ []) (dotless : '.' ∉ ext) :
    Path.stem (stem ++ '.' :: ext) = stem := by
  simp [Path.stem, splitExtension?_append some_stem dotless]

theorem stem_of_splitExtension?_eq_none (h : splitExtension? name = none) :
    Path.stem name = name := by
  simp [Path.stem, h]

theorem stem_prefix (name : List Char) : Path.stem name <+: name := by
  cases split : splitExtension? name with
  | none => simp [stem_of_splitExtension?_eq_none split]
  | some parts =>
    obtain ⟨before, old⟩ := parts
    obtain ⟨some_before, dotless, rfl⟩ := splitExtension?_eq_some_iff.mp split
    rw [stem_append some_before dotless]
    exact List.prefix_append _ _

end Split

section Plain

variable {name ext : List Char}

theorem headLength_of_slashless (slashless : '/' ∉ name) (counts : isTrivial name = false) :
    headLength name = 0 := by
  unfold headLength
  split
  · simp at slashless
  · simp [isTrivial] at counts
  · simp at slashless
  · rfl

theorem bodyReversed_of_slashless (slashless : '/' ∉ name) (counts : isTrivial name = false) :
    bodyReversed name = [name] := by
  unfold bodyReversed
  rw [headLength_of_slashless slashless counts, List.drop_zero, pieces_of_not_mem slashless]
  simp [counts]

theorem IsPlain.fileName? (h : IsPlain name) : fileName? name = some name :=
  fileName?_eq_some_iff.mpr ⟨[], bodyReversed_of_slashless h.slashless h.counts, h.noParent⟩

theorem IsPlain.beforeName (h : IsPlain name) : beforeName name = [] := by
  unfold Path.beforeName
  rw [headLength_of_slashless h.slashless h.counts, bodyReversed_of_slashless h.slashless h.counts]
  rfl

theorem IsPlain.extension? (h : IsPlain name) :
    extension? name = (splitExtension? name).map (·.2) := by
  unfold Path.extension?
  rw [h.fileName?, Option.bind_some]

theorem fileName?_parent : fileName? ['.', '.'] = none := by decide +kernel

/-- Two dots and a text without one. When that text is cut off as the extension, the parent is
left. -/
def LeavesParent (name : List Char) : Prop := ∃ old, '.' ∉ old ∧ name = '.' :: '.' :: old

theorem leavesParent_iff : LeavesParent name ↔ ∃ old, splitExtension? name = some (['.'], old) := by
  simp [LeavesParent, splitExtension?_eq_some_iff]

/-- The last extension of a plain name is replaced, and a name without one gets one; or nothing but
the parent is left of the name. -/
theorem IsPlain.withExtension (h : IsPlain name) (ext : List Char) :
    withExtension name ext = stem name ++ '.' :: ext ∧ ¬ LeavesParent name ∨
      withExtension name ext = ['.', '.'] ∧ LeavesParent name := by
  rw [leavesParent_iff]
  unfold Path.withExtension withoutExtension
  rw [h.extension?]
  cases split : splitExtension? name with
  | none =>
    left
    simp [h.fileName?, h.beforeName]
  | some parts =>
    obtain ⟨before, old⟩ := parts
    obtain ⟨some_before, dotless, rfl⟩ := splitExtension?_eq_some_iff.mp split
    have cut : (before ++ '.' :: old).take ((before ++ '.' :: old).length - old.length) =
        before ++ ['.'] := by
      have length : (before ++ '.' :: old).length - old.length = (before ++ ['.']).length := by
        simp
        omega
      rw [length, List.append_cons before '.' old, List.take_left]
    simp only [Option.map_some, cut]
    by_cases parent : isParent (before ++ ['.'])
    · right
      have same : before ++ ['.'] = ['.'] ++ ['.'] := by simpa [isParent] using parent
      obtain rfl := List.append_cancel_right same
      exact ⟨by rw [same, List.singleton_append, fileName?_parent], old, rfl⟩
    · left
      have plain : IsPlain (before ++ ['.']) := by
        refine ⟨?_, ?_, by simpa using parent⟩
        · have slashless := h.slashless
          simp_all
        · simp [isTrivial, some_before]
      have other : before ≠ ['.'] := by
        rintro rfl
        exact parent rfl
      simp [plain.fileName?, plain.beforeName, stem_append some_before List.not_mem_nil,
        stem_append some_before dotless, other]

/-- A name that does not have an extension is another one with it. -/
theorem stem_append_ne (h : IsPlain name) (dotless : '.' ∉ ext)
    (other : Path.extension? name ≠ some ext) :
    stem name ++ '.' :: ext ≠ name := by
  intro same
  rw [h.extension?] at other
  cases split : splitExtension? name with
  | none =>
    rw [stem_of_splitExtension?_eq_none split] at same
    simp at same
  | some parts =>
    obtain ⟨before, old⟩ := parts
    obtain ⟨some_before, dotless_old, rfl⟩ := splitExtension?_eq_some_iff.mp split
    rw [stem_append some_before dotless_old] at same
    rw [← same, splitExtension?_append some_before dotless] at other
    exact other rfl

end Plain

end InFlight.Path
