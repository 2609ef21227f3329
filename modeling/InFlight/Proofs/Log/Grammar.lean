import InFlight.Proofs.Log.Line
import Mathlib.Data.List.DropRight
/-!
What a line holds. Something is found on a line exactly when the line has the form of one with an
object, and it is then what the text from the first opening brace to the last closing brace says.
-/
namespace InFlight.Log

open Text

/-- The line is the object in a frame, and the object is a text on one line between two braces. -/
def Carries (line object : List Char) : Prop :=
  ∃ (f : Frame) (inside : List Char), '\n' ∉ inside ∧ object = '\x7b' :: (inside ++ ['\x7d']) ∧
    line = f.around object

def outermost (line : List Char) : List Char :=
  (line.dropWhile (· ≠ '\x7b')).rdropWhile (· ≠ '\x7d')

section Braces

variable {s object before behind : List Char}

theorem braced_iff : Braced object ↔
    ∃ inside, '\n' ∉ inside ∧ object = '\x7b' :: (inside ++ ['\x7d']) := by
  constructor
  · intro h
    obtain ⟨t, rfl⟩ := List.head?_eq_some_iff.mp h.opens
    obtain ⟨u, split⟩ := List.getLast?_eq_some_iff.mp h.closes
    cases u with
    | nil =>
      have wrong := (List.cons.inj split).1
      exact absurd wrong (by decide)
    | cons c inside =>
      obtain ⟨rfl, rfl⟩ := List.cons.inj split
      have oneLine := h.oneLine
      exact ⟨inside, by simp_all, rfl⟩
  · rintro ⟨inside, oneLine, rfl⟩
    refine ⟨rfl, ?_, by simpa using oneLine⟩
    rw [← List.cons_append, List.getLast?_concat]

theorem carries_iff {line : List Char} : Carries line object ↔ objectText? line = some object := by
  rw [objectText?_eq_some_iff, braced_iff]
  constructor
  · rintro ⟨f, inside, oneLine, same, around⟩
    exact ⟨⟨inside, oneLine, same⟩, f, around⟩
  · rintro ⟨⟨inside, oneLine, same⟩, f, around⟩
    exact ⟨f, inside, oneLine, same, around⟩

theorem outermost_append (h : Braced object) (unopened : '\x7b' ∉ before)
    (unclosed : '\x7d' ∉ behind) :
    outermost (before ++ object ++ behind) = object := by
  obtain ⟨inside, -, rfl⟩ := braced_iff.mp h
  have opening : (before ++ '\x7b' :: (inside ++ ['\x7d']) ++ behind).dropWhile (· ≠ '\x7b') =
      '\x7b' :: (inside ++ ['\x7d']) ++ behind := by
    rw [List.append_assoc, List.dropWhile_append_of_pos]
    · simp
    · intro c hc
      rw [decide_eq_true_eq]
      rintro rfl
      exact unopened hc
  unfold outermost
  rw [opening, List.rdropWhile, List.reverse_append, List.dropWhile_append_of_pos]
  · simp
  · intro c hc
    rw [decide_eq_true_eq]
    rintro rfl
    exact unclosed (List.mem_reverse.mp hc)

theorem mem_of_forall₂_fits {pattern : List Char} {c : Char} (h : List.Forall₂ Fits pattern s)
    (hc : c ∈ s) :
    isDecimal c ∨ c ∈ pattern := by
  induction h with
  | nil => cases hc
  | @cons place d pattern s fits _ ih =>
    rcases List.mem_cons.mp hc with rfl | hc
    · unfold Fits at fits
      split at fits
      · exact Or.inl fits
      · exact Or.inr (by simp [of_decide_eq_true fits])
    · exact (ih hc).imp_right (List.mem_cons_of_mem place)

/-- A stamp is made of digits, blanks and marks that are no braces. -/
theorem IsStamp.not_mem_brace (h : IsStamp s) : '\x7b' ∉ s := by
  obtain ⟨body, fraction, blanks, shape, digits, blank, -, rfl⟩ := h
  simp only [List.mem_append, not_or]
  refine ⟨⟨fun hc => ?_, fun hc => ?_⟩, blank.not_mem (by decide)⟩
  · exact absurd (mem_of_forall₂_fits shape hc) (by decide)
  · rcases digits with rfl | ⟨d, digits, rfl, decimal⟩
    · cases hc
    · rcases List.mem_cons.mp hc with point | among
      · exact absurd point (by decide)
      · exact absurd (decimal _ among) (by decide)

theorem Frame.outermost_around (f : Frame) (h : Braced object) :
    outermost (f.around object) = object := by
  have parts : f.around object = f.lead ++ f.stamp ++ object ++ (f.gap ++ f.comma ++ f.trail) := by
    simp [Frame.around]
  rw [parts]
  apply outermost_append h
  · have lead := f.lead_blank.not_mem (show isBlank '\x7b' = false by decide)
    rcases f.stamp_shape with none_there | stamp
    · simp [lead, none_there]
    · simp [lead, stamp.not_mem_brace]
  · have gap := f.gap_blank.not_mem (show isBlank '\x7d' = false by decide)
    have trail := f.trail_blank.not_mem (show isBlank '\x7d' = false by decide)
    rcases f.comma_shape with none_there | comma
    · simp [gap, trail, none_there]
    · simp [gap, trail, comma]

end Braces

section Line

variable {line object : List Char}

theorem readLine?_of_objectText? (h : objectText? line = some object) :
    (∀ e, readLine? line = some (.event e) ↔ Event.read? object = some e) ∧
      (readLine? line = some .malformed ↔ Event.read? object = none) := by
  unfold readLine?
  rw [h, Option.map_some]
  cases Event.read? object with
  | none => simp
  | some e => simp

/-- A line is read for an object if and only if it carries one. The object is then the text from the
first opening brace to the last closing brace, and what the line is read as is what that text is
read as. -/
theorem readLine?_carries (line : List Char) :
    ((readLine? line).isSome ↔ ∃ object, Carries line object) ∧
      ∀ object, Carries line object → object = outermost line ∧
        (∀ e, readLine? line = some (.event e) ↔ Event.read? object = some e) ∧
        (readLine? line = some .malformed ↔ Event.read? object = none) := by
  constructor
  · simp only [carries_iff, readLine?, Option.isSome_map, Option.isSome_iff_exists]
  · intro object carried
    have found := carries_iff.mp carried
    obtain ⟨braced, f, rfl⟩ := objectText?_eq_some_iff.mp found
    exact ⟨(f.outermost_around braced).symm, readLine?_of_objectText? found⟩

end Line

def bracesText : List Char :=
  ("\x7b\"From\":\"\x7dro,ot\x7b\",\"To\":\"2019/05/01 12:00:00 \x7b\"," ++
    "\"Object\":\"\x7d,\",\"Size\":32," ++
    "\"Start\":\"2019-05-01T12:00:00Z\",\"End\":\"2019-05-01T12:00:01Z\"\x7d").toList

/-- The object behind a stamp in Arabic digits and blanks that are no spaces, and before a comma
between line ends and a tab. -/
def foreignLine : List Char :=
  ['\u1680', '\n'] ++ "٢٠١٩/٠٥/٠١ ١٢:٠٠:٠٠.٥\u2003".toList ++ bracesText ++ ['\r', '\n'] ++
    [','] ++ ['\t']

def braces : Event :=
  { sender := "\x7dro,ot\x7b", receiver := "2019/05/01 12:00:00 \x7b",
    category := "\x7d,", size := 32,
    start := .ofNanos 1556712000000000000, finish := .ofNanos 1556712001000000000,
    localRate := 0, globalRate := 0, id := 0 }

theorem readLine?_carries_bracesText : Carries foreignLine bracesText ∧
    outermost foreignLine = bracesText ∧
    readLine? foreignLine = some (.event braces) := by
  obtain ⟨opens, closes, oneLine, reads⟩ : bracesText.head? = some '\x7b' ∧
      bracesText.getLast? = some '\x7d' ∧
      '\n' ∉ bracesText ∧ Event.read? bracesText = some braces := by decide +kernel
  obtain ⟨inside, inner, same⟩ := braced_iff.mp ⟨opens, closes, oneLine⟩
  have lead : IsBlanks ['\u1680', '\n'] := by simp [IsBlanks]; decide
  have stamp : IsStamp "٢٠١٩/٠٥/٠١ ١٢:٠٠:٠٠.٥\u2003".toList :=
    ⟨"٢٠١٩/٠٥/٠١ ١٢:٠٠:٠٠".toList, ".٥".toList, ['\u2003'], by simp [stampPattern]; decide,
      Or.inr ⟨'٥', [], by decide, by simp; decide⟩, by simp [IsBlanks]; decide, by
      decide, by decide⟩
  have gap : IsBlanks ['\r', '\n'] := by simp [IsBlanks]; decide
  have trail : IsBlanks ['\t'] := by simp [IsBlanks]; decide
  have carried : Carries foreignLine bracesText :=
    ⟨⟨_, _, _, [','], _, lead, Or.inr stamp, gap, Or.inr rfl, trail⟩, inside, inner, same, rfl⟩
  obtain ⟨whole, read, -⟩ := (readLine?_carries foreignLine).2 bracesText carried
  exact ⟨carried, whole.symm, (read braces).mpr reads⟩

end InFlight.Log
