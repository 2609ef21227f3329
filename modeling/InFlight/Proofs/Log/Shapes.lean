import InFlight.Log
import InFlight.Proofs.Json.Reader
import InFlight.Proofs.Log.Line
/-!
The shapes of a log: an array of events, lines that carry an event each, and such lines between
brackets. Whichever shape the texts of the events stand in, the same events are read.
-/
namespace InFlight.Log

open Text Json

structure Decodes (object : List Char) (event : Event) : Prop extends Braced object where
  reads : Event.read? object = some event

inductive LinesOf (mayPass : List Char → Prop) : List (List Char) → List Char → Prop where
  | nil : LinesOf mayPass [] []
  | carrying {f : Frame} {object ending : List Char} {objects : List (List Char)}
      {rest : List Char} :
      '\n' ∉ f.around object → IsEnding ending → LinesOf mayPass objects rest →
      LinesOf mayPass (object :: objects) (f.around object ++ ending ++ rest)
  | passing {line ending : List Char} {objects : List (List Char)} {rest : List Char} :
      '\n' ∉ line → mayPass line → IsEnding ending → LinesOf mayPass objects rest →
      LinesOf mayPass objects (line ++ ending ++ rest)

inductive ItemsOf : List (List Char) → List Char → Prop where
  | last {a object b : List Char} : IsSpaces a → IsSpaces b → ItemsOf [object] (a ++ object ++ b)
  | next {a object b : List Char} {objects : List (List Char)} {rest : List Char} :
      IsSpaces a → IsSpaces b →
      ItemsOf objects rest → ItemsOf (object :: objects) (a ++ object ++ b ++ ',' :: rest)

inductive Shape (objects : List (List Char)) : List Char → Prop where
  | array {a body b : List Char} : IsSpaces a →
      (objects = [] ∧ IsSpaces body ∨ ItemsOf objects body) → IsSpaces b →
      Shape objects (a ++ '[' :: (body ++ ']' :: b))
  | lines {body last : List Char} : LinesOf (readLine? · = none) objects body → '\n' ∉ last →
      readLine? last = none →
      (trimStart (body ++ last)).head? ≠ some '[' → Shape objects (body ++ last)
  | bracketed {opening body closing : List Char} : objects ≠ [] → IsEnding opening →
      LinesOf (fun _ => False) objects body → (closing = [] ∨ IsEnding closing) →
      Shape objects ('[' :: (opening ++ body ++ ']' :: closing))

section Lines

variable {line ending object text : List Char} {event : Event}

theorem readLine?_around (h : Decodes object event) (f : Frame) :
    readLine? (f.around object) = some (.event event) := by
  simp [readLine?, objectText?_around h.toBraced f, h.reads]

theorem readLine?_append_return (line : List Char) :
    readLine? (line ++ ['\r']) = readLine? line := by
  simp only [readLine?, objectText?_append_blank (show isBlank '\r' by decide)]

theorem readLine?_chompReturn (line : List Char) :
    readLine? (chompReturn line) = readLine? line := by
  rcases chompReturn_eq_self_or line with same | same
  · rw [same]
  · conv_rhs => rw [same]
    exact (readLine?_append_return _).symm

theorem entries_append_line (h : '\n' ∉ line) (ended : IsEnding ending) (rest : List Char) :
    entries (line ++ ending ++ rest) = (readLine? line).toList ++ entries rest := by
  have feed (line : List Char) (h : '\n' ∉ line) :
      entries (line ++ '\n' :: rest) = (readLine? line).toList ++ entries rest := by
    unfold entries
    rw [lines_append_feed h, List.filterMap_cons, readLine?_chompReturn]
    cases readLine? line <;> rfl
  rcases ended with rfl | rfl
  · simpa using feed line h
  · simpa [readLine?_append_return] using feed (line ++ ['\r']) (by simp [h])

theorem entries_of_not_mem (h : '\n' ∉ line) : entries line = (readLine? line).toList := by
  unfold entries
  rw [lines_of_not_mem h]
  split
  · rename_i empty
    subst empty
    rfl
  · rw [List.filterMap_cons]
    cases readLine? line <;> rfl

theorem entries_opening (ended : IsEnding ending) (rest : List Char) :
    entries ('[' :: (ending ++ rest)) = entries rest := by
  have passes : readLine? ['['] = none := by decide
  simpa [passes] using entries_append_line (show '\n' ∉ ['['] by decide) ended rest

theorem entries_closing (ended : ending = [] ∨ IsEnding ending) : entries (']' :: ending) = [] := by
  have passes : readLine? [']'] = none := by decide
  rcases ended with rfl | ended
  · rw [entries_of_not_mem (by decide), passes]
    rfl
  · have nothing : entries [] = [] := by decide
    simpa [passes, nothing] using entries_append_line (show '\n' ∉ [']'] by decide) ended []

theorem LinesOf.mono {p q : List Char → Prop} {objects : List (List Char)}
    (h : LinesOf p objects text) (le : ∀ line, p line → q line) : LinesOf q objects text := by
  induction h with
  | nil => exact .nil
  | carrying one_line ended _ ih => exact .carrying one_line ended ih
  | passing one_line passes ended _ ih => exact .passing one_line (le _ passes) ended ih

theorem LinesOf.entries_append {objects : List (List Char)} {events : List Event}
    (h : LinesOf (readLine? · = none) objects text) (decodes : List.Forall₂ Decodes objects events)
    (rest : List Char) : entries (text ++ rest) = events.map .event ++ entries rest := by
  induction h generalizing events with
  | nil =>
    cases decodes
    rfl
  | carrying one_line ended _ ih =>
    obtain ⟨event, events, first, others, rfl⟩ := List.forall₂_cons_left_iff.mp decodes
    rw [List.append_assoc, entries_append_line one_line ended, readLine?_around first, ih others]
    rfl
  | passing one_line passes ended _ ih =>
    rw [List.append_assoc, entries_append_line one_line ended, passes, ih decodes]
    rfl

theorem events_readLines {events : List Event} (h : entries text = events.map .event) :
    (readLines text).events = events := by
  simp [readLines, h, List.filterMap_map, Function.comp_def, Entry.event?]

end Lines

section Array

variable {object x : List Char} {event : Event}

theorem isBlank_of_isSpace {c : Char} (h : isSpace c) : isBlank c := by
  simp only [isSpace, Bool.or_eq_true, beq_iff_eq] at h
  rcases h with ((rfl | rfl) | rfl) | rfl <;> decide

theorem isSpace_eq_false_of_not_isBlank {c : Char} (h : isBlank c = false) : isSpace c = false := by
  cases space : isSpace c with
  | false => rfl
  | true => simp [isBlank_of_isSpace space] at h

theorem isSpace_eq_false_of_isDecimal {c : Char} (h : isDecimal c) : isSpace c = false :=
  isSpace_eq_false_of_not_isBlank (isBlank_eq_false_of_isDecimal h)

/-- The object is read as the same members wherever it stands. -/
theorem Decodes.exists_members (h : Decodes object event) : ∃ members r, IsSpaces r ∧
    Event.ofJson? (.object members) = some event ∧
    ∀ x fuel, object.length < fuel → value? fuel (object ++ x) =
      some (.object members, r ++ x) := by
  obtain ⟨v, read, decoded⟩ := Option.bind_eq_some_iff.mp h.reads
  obtain ⟨r, found, spaces⟩ := Json.read?_eq_some_iff.mp read
  obtain ⟨t, rfl⟩ := List.head?_eq_some_iff.mp h.opens
  have value_at := value?_succ_eq_some_iff.mp found
  rw [skipSpace_cons_of_not (by decide)] at value_at
  have stays (members : Members)
      (found : value? (List.length ('\x7b' :: t) + 1) ('\x7b' :: t) = some (.object members, r))
      (x : List Char) (fuel : Nat) (enough : List.length ('\x7b' :: t) < fuel) :
      value? fuel ('\x7b' :: t ++ x) = some (.object members, r ++ x) :=
    (read_append _).1 found x (Or.inr trivial) fuel enough
  cases value_at with
  | emptyObject close => exact ⟨[], r, spaces, decoded, stays [] found⟩
  | object no_close members => exact ⟨_, r, spaces, decoded, stays _ found⟩
  | number other => exact absurd other (by decide)

theorem items?_of_itemsOf {objects : List (List Char)} {events : List Event} {body : List Char}
    (h : ItemsOf objects body) (decodes : List.Forall₂ Decodes objects events)
    (x : List Char) {fuel : Nat} (enough : body.length + 1 < fuel) :
    ∃ items, items? fuel (body ++ ']' :: x) = some (items, x) ∧
      items.mapM Event.ofJson? = some events := by
  induction h generalizing events fuel with
  | @last a object b spaces more =>
    obtain ⟨event, _, first, others, rfl⟩ := List.forall₂_cons_left_iff.mp decodes
    obtain rfl := List.forall₂_nil_left_iff.mp others
    obtain ⟨fuel, rfl⟩ : ∃ n, fuel = n + 1 := ⟨fuel - 1, by omega⟩
    obtain ⟨members, r, blank, decoded, read⟩ := first.exists_members
    refine ⟨[.object members], items?_succ_eq_some_iff.mpr
      ⟨.object members, r ++ (b ++ ']' :: x), ?_, Or.inr ⟨?_, rfl⟩⟩, by simp [decoded]⟩
    · rw [List.append_assoc, List.append_assoc, value?_spaces_append spaces]
      simpa using read (b ++ ']' :: x) fuel (by simp at enough; omega)
    · rw [skipSpace_spaces_append blank, skipSpace_spaces_append more,
        skipSpace_cons_of_not (by decide)]
  | @next a object b objects rest spaces more _ ih =>
    obtain ⟨event, events, first, others, rfl⟩ := List.forall₂_cons_left_iff.mp decodes
    obtain ⟨fuel, rfl⟩ : ∃ n, fuel = n + 1 := ⟨fuel - 1, by omega⟩
    obtain ⟨members, r, blank, decoded, read⟩ := first.exists_members
    simp only [List.length_append, List.length_cons] at enough
    have enough_rest : rest.length + 1 < fuel := by omega
    obtain ⟨items, found, mapped⟩ := ih others enough_rest
    refine ⟨.object members :: items, items?_succ_eq_some_iff.mpr
      ⟨.object members, r ++ (b ++ ',' :: (rest ++ ']' :: x)), ?_,
        Or.inl ⟨rest ++ ']' :: x, items, ?_, found, rfl⟩⟩,
      by simp [decoded, mapped]⟩
    · simp only [List.append_assoc, List.cons_append]
      rw [value?_spaces_append spaces]
      exact read _ fuel (by omega)
    · rw [skipSpace_spaces_append blank, skipSpace_spaces_append more,
        skipSpace_cons_of_not (by decide)]

theorem readList?_of_array {objects : List (List Char)} {events : List Event} {a body b : List Char}
    (before : IsSpaces a) (holds : objects = [] ∧ IsSpaces body ∨ ItemsOf objects body)
    (behind : IsSpaces b) (decodes : List.Forall₂ Decodes objects events) :
    Event.readList? (a ++ '[' :: (body ++ ']' :: b)) = some events := by
  have read (items : List Json) (found : ValueAt (a ++ '[' :: (body ++ ']' :: b)).length
      ('[' :: (body ++ ']' :: b))
      (.array items) b) : Json.read? (a ++ '[' :: (body ++ ']' :: b)) = some (.array items) := by
    refine Json.read?_eq_some_iff.mpr ⟨b, ?_, behind⟩
    rw [value?_spaces_append before, value?_succ_eq_some_iff, skipSpace_cons_of_not (by decide)]
    exact found
  unfold Event.readList?
  rcases holds with ⟨rfl, spaces⟩ | holds
  · obtain rfl := List.forall₂_nil_left_iff.mp decodes
    have close : skipSpace (body ++ ']' :: b) = ']' :: b := by
      rw [skipSpace_spaces_append spaces, skipSpace_cons_of_not (by decide)]
    rw [read [] (.emptyArray close)]
    rfl
  · obtain ⟨items, found, mapped⟩ := items?_of_itemsOf holds decodes b
      (show body.length + 1 < (a ++ '[' :: (body ++ ']' :: b)).length by simp; omega)
    rw [read items (.array (head?_ne_of_items? found) found)]
    exact mapped

end Array

section Bracketed

variable {object a x r : List Char} {event : Event} {items : List Json} {fuel : Nat}

theorem isBlank_eq_false_of_beginsValue {c : Char} (h : BeginsValue c) : isBlank c = false := by
  rcases h with listed | digit
  · simp only [List.mem_cons, List.not_mem_nil, or_false] at listed
    rcases listed with rfl | rfl | rfl | rfl | rfl | rfl | rfl <;> decide
  · exact isBlank_eq_false_of_isDecimal (isDecimal_of_isDigit digit)

/-- Behind blanks that are not all spaces of JSON nothing can be read. -/
theorem skipSpace_blanks_append (h : IsBlanks a) {c : Char} (solid : isBlank c = false)
    (t : List Char) :
    (IsSpaces a ∧ skipSpace (a ++ c :: t) = c :: t) ∨
      ∃ d u, skipSpace (a ++ c :: t) = d :: u ∧ isBlank d := by
  induction a with
  | nil =>
    exact Or.inl ⟨by simp [IsSpaces], skipSpace_cons_of_not (isSpace_eq_false_of_not_isBlank solid)⟩
  | cons b a ih =>
    obtain ⟨blank, others⟩ := List.forall_mem_cons.mp h
    cases space : isSpace b with
    | false => exact Or.inr ⟨b, _, skipSpace_cons_of_not space, blank⟩
    | true =>
      have same : skipSpace (b :: a ++ c :: t) = skipSpace (a ++ c :: t) :=
        List.dropWhile_cons_of_pos space
      rw [same]
      exact (ih others).imp_left fun ⟨spaces, skipped⟩ =>
        ⟨List.forall_mem_cons.mpr ⟨space, spaces⟩, skipped⟩

theorem isNumericBefore_of_value? {c : Char} {t : List Char} {v : Json} (decimal : isDecimal c)
    (h : value? fuel (c :: t) = some (v, r)) : IsNumericBefore (c :: t) r := by
  cases fuel with
  | zero => simp [value?] at h
  | succ fuel =>
    rw [value?_succ_eq_some_iff, skipSpace_cons_of_not (isSpace_eq_false_of_isDecimal decimal)] at h
    cases h with
    | number _ read => exact isNumericBefore_number? read
    | _ => exact absurd decimal (by decide)

theorem IsStamp.exists_year {stamp : List Char} (h : IsStamp stamp) :
    ∃ year t, stamp = year ++ '/' :: t ∧ ∀ c ∈ year, isDecimal c := by
  obtain ⟨body, fraction, blanks, shape, -, -, -, rfl⟩ := h
  simp only [stampPattern, List.forall₂_cons_left_iff] at shape
  obtain ⟨y₁, _, h₁, ⟨y₂, _, h₂, ⟨y₃, _, h₃, ⟨y₄, _, h₄, ⟨slash, rest, h₅, -, rfl⟩, rfl⟩, rfl⟩,
      rfl⟩, rfl⟩ := shape
  obtain rfl : slash = '/' := by simpa [Fits] using h₅
  exact ⟨[y₁, y₂, y₃, y₄], rest ++ fraction ++ blanks, by simp, by simp_all [Fits]⟩

/-- A stamp is no item of an array: what is left of it behind a number begins with a digit or a
slash. -/
theorem items?_stamp_append {stamp : List Char} (h : IsStamp stamp) (fuel : Nat) (x : List Char) :
    items? fuel (stamp ++ x) = none := by
  refine Option.eq_none_iff_forall_ne_some.mpr fun ⟨items, r⟩ read => ?_
  cases fuel with
  | zero => simp [items?] at read
  | succ fuel =>
    obtain ⟨item, s, value, next⟩ := items?_succ_eq_some_iff.mp read
    obtain ⟨first, t, opening, decimal⟩ := h.exists_decimal
    obtain ⟨year, u, same, decimals⟩ := h.exists_year
    have before : IsNumericBefore (year ++ '/' :: (u ++ x)) s := by
      have := isNumericBefore_of_value? decimal (t := t ++ x)
        (by rwa [← List.cons_append, ← opening])
      rwa [← List.cons_append, ← opening, same, List.append_assoc, List.cons_append] at this
    obtain ⟨c, rest, rfl, mem⟩ := before.exists_cons (by decide)
    have c_shape : isDecimal c ∨ c = '/' := by
      rcases List.mem_append.mp mem with mem | mem
      · exact Or.inl (decimals c mem)
      · exact Or.inr (by simpa using mem)
    have not_space : isSpace c = false := by
      rcases c_shape with decimal | rfl
      · exact isSpace_eq_false_of_isDecimal decimal
      · decide
    rw [skipSpace_cons_of_not not_space] at next
    rcases next with ⟨_, _, comma, -⟩ | ⟨close, -⟩
    · obtain rfl := (List.cons.inj comma).1
      exact absurd c_shape (by decide)
    · obtain rfl := (List.cons.inj close).1
      exact absurd c_shape (by decide)

theorem Frame.around_eq (f : Frame) (object : List Char) :
    f.around object = f.lead ++ (f.stamp ++ (object ++ (f.gap ++ f.comma ++ f.trail))) := by
  simp [Frame.around]

/-- What stands behind the blanks before an object begins with a digit or a brace. -/
theorem Frame.exists_solid (f : Frame) (h : Braced object) (x : List Char) :
    ∃ c t, f.stamp ++ (object ++ x) = c :: t ∧ (isDecimal c ∨ c = '\x7b') ∧ isBlank c = false := by
  rcases f.stamp_shape with none_there | stamp
  · obtain ⟨t, rfl⟩ := List.head?_eq_some_iff.mp h.opens
    exact ⟨'\x7b', t ++ x, by simp [none_there], Or.inr rfl, by decide⟩
  · obtain ⟨c, t, opening, decimal⟩ := stamp.exists_decimal
    exact ⟨c, t ++ (object ++ x), by simp [opening], Or.inl decimal,
      isBlank_eq_false_of_isDecimal decimal⟩

/-- Items that begin with a line that carries an object: the line has no stamp, and the object is
the first item. -/
theorem exists_item_around (h : Decodes object event) (f : Frame) (blanks : IsBlanks a)
    (read : items? fuel (a ++ f.around object ++ x) = some (items, r)) :
    ∃ item, Event.ofJson? item = some event ∧
      ((∃ t rest more, skipSpace (f.gap ++ f.comma ++ f.trail ++ x) = ',' :: t ∧
          items? more t = some (rest, r) ∧ items = item :: rest) ∨
        (skipSpace (f.gap ++ f.comma ++ f.trail ++ x) = ']' :: r ∧ items = [item])) := by
  generalize behind : f.gap ++ f.comma ++ f.trail ++ x = z
  have parts : a ++ f.around object ++ x = (a ++ f.lead) ++ (f.stamp ++ (object ++ z)) := by
    rw [f.around_eq, ← behind]
    simp
  rw [parts] at read
  obtain ⟨c, t, opening, -, solid⟩ := f.exists_solid h.toBraced z
  rcases skipSpace_blanks_append (blanks.append f.lead_blank) solid t with
      ⟨spaces, -⟩ | ⟨d, u, skipped, blank⟩
  · rw [items?_spaces_append spaces] at read
    rcases f.stamp_shape with no_stamp | stamp
    · rw [no_stamp, List.nil_append] at read
      cases fuel with
      | zero => simp [items?] at read
      | succ fuel =>
        obtain ⟨item, s, value, next⟩ := items?_succ_eq_some_iff.mp read
        obtain ⟨members, r₀, blank, decoded, reads⟩ := h.exists_members
        obtain ⟨rfl, rfl⟩ := value?_unique value (reads z (object.length + 1) (by omega))
        rw [skipSpace_spaces_append blank] at next
        refine ⟨.object members, decoded, next.imp_left ?_⟩
        rintro ⟨t, rest, comma, tail, rfl⟩
        exact ⟨t, rest, fuel, comma, tail, rfl⟩
    · simp [items?_stamp_append stamp] at read
  · obtain ⟨e, v, head, begins⟩ := beginsValue_of_items? read
    rw [opening, skipped] at head
    obtain ⟨rfl, rfl⟩ := List.cons.inj head
    simp [isBlank_eq_false_of_beginsValue begins] at blank

/-- A comma or a closing bracket is the first solid character of a text if it is met behind spaces
only. -/
theorem eq_of_skipSpace_blanks_append {c d : Char} {t u : List Char} (blanks : IsBlanks a)
    (solid : isBlank c = false) (solid' : isBlank d = false)
    (h : skipSpace (a ++ c :: t) = d :: u) : d = c ∧ u = t := by
  rcases skipSpace_blanks_append blanks solid t with ⟨-, skipped⟩ | ⟨e, v, skipped, blank⟩
  · rw [skipped] at h
    obtain ⟨rfl, rfl⟩ := List.cons.inj h
    exact ⟨rfl, rfl⟩
  · rw [skipped] at h
    obtain ⟨rfl, rfl⟩ := List.cons.inj h
    simp [blank] at solid'

/-- A solid character first met behind lines of objects closes the array, or one of the lines begins
with it. -/
theorem LinesOf.first_solid {objects : List (List Char)} {events : List Event}
    {body u : List Char} {d : Char} (h : LinesOf (fun _ => False) objects body)
    (decodes : List.Forall₂ Decodes objects events) (blanks : IsBlanks a)
    (found : skipSpace (a ++ (body ++ ']' :: x)) = d :: u) (solid : isBlank d = false) :
    (objects = [] ∧ d = ']' ∧ u = x) ∨ isDecimal d ∨ d = '\x7b' := by
  cases h with
  | nil =>
    obtain ⟨rfl, rfl⟩ := eq_of_skipSpace_blanks_append blanks (by decide) solid found
    exact Or.inl ⟨rfl, rfl, rfl⟩
  | passing _ passes => exact passes.elim
  | @carrying f object ending objects rest _ ended lines =>
    obtain ⟨event, events, first, others, rfl⟩ := List.forall₂_cons_left_iff.mp decodes
    obtain ⟨c, t, opening, shape, solid_first⟩ :=
      f.exists_solid first.toBraced (f.gap ++ f.comma ++ f.trail ++ (ending ++ (rest ++ ']' :: x)))
    have parts : a ++ (f.around object ++ ending ++ rest ++ ']' :: x) =
        (a ++ f.lead) ++ c :: t := by
      rw [f.around_eq, ← opening]
      simp
    rw [parts] at found
    obtain ⟨rfl, -⟩ := eq_of_skipSpace_blanks_append (blanks.append f.lead_blank)
      solid_first solid found
    exact Or.inr shape

/-- Lines of objects up to a closing bracket, read as the items of an array, are those objects. -/
theorem LinesOf.mapM_items {objects : List (List Char)} {events : List Event} {body : List Char}
    (h : LinesOf (fun _ => False) objects body) (decodes : List.Forall₂ Decodes objects events)
    (blanks : IsBlanks a) (read : items? fuel (a ++ body ++ ']' :: x) = some (items, r)) :
    items.mapM Event.ofJson? = some events := by
  -- over the lines: what a line leaves behind its object or comma is blanks before the next one
  induction h generalizing a events fuel items with
  | nil =>
    obtain ⟨c, t, head, begins⟩ := beginsValue_of_items? read
    rw [List.append_nil] at head
    obtain ⟨rfl, -⟩ := eq_of_skipSpace_blanks_append blanks (by decide)
      (isBlank_eq_false_of_beginsValue begins) head
    exact absurd begins (by decide)
  | passing _ passes => exact passes.elim
  | @carrying f object ending objects rest _ ended lines ih =>
    obtain ⟨event, events, first, others, rfl⟩ := List.forall₂_cons_left_iff.mp decodes
    have parts : a ++ (f.around object ++ ending ++ rest) ++ ']' :: x =
        a ++ f.around object ++ (ending ++ (rest ++ ']' :: x)) := by simp
    rw [parts] at read
    obtain ⟨item, decoded, next⟩ := exists_item_around first f blanks read
    rcases f.comma_shape with no_comma | comma
    · -- without a comma only the bracket may follow, so this line is the last
      have inner : IsBlanks (f.gap ++ f.trail ++ ending) :=
        (f.gap_blank.append f.trail_blank).append ended.isBlanks
      have behind : f.gap ++ f.comma ++ f.trail ++ (ending ++ (rest ++ ']' :: x)) =
          f.gap ++ f.trail ++ ending ++ (rest ++ ']' :: x) := by simp [no_comma]
      rw [behind] at next
      rcases next with ⟨t, -, -, skipped, -⟩ | ⟨skipped, rfl⟩
      · rcases lines.first_solid others inner skipped (by decide) with ⟨-, wrong, -⟩ | wrong
        · exact absurd wrong (by decide)
        · exact absurd wrong (by decide)
      · rcases lines.first_solid others inner skipped (by decide) with ⟨rfl, -, -⟩ | wrong
        · obtain rfl := List.forall₂_nil_left_iff.mp others
          simp [decoded]
        · exact absurd wrong (by decide)
    · have behind : f.gap ++ f.comma ++ f.trail ++ (ending ++ (rest ++ ']' :: x)) =
          f.gap ++ ',' :: (f.trail ++ ending ++ rest ++ ']' :: x) := by simp [comma]
      rw [behind] at next
      rcases next with ⟨t, others_read, more, skipped, tail, rfl⟩ | ⟨skipped, -⟩
      · obtain ⟨-, rfl⟩ := eq_of_skipSpace_blanks_append f.gap_blank (by decide) (by decide) skipped
        have mapped := ih others (f.trail_blank.append ended.isBlanks) tail
        simp [decoded, mapped]
      · have wrong := (eq_of_skipSpace_blanks_append f.gap_blank (by decide) (by decide) skipped).1
        exact absurd wrong (by decide)

theorem readList?_of_bracketed {objects : List (List Char)} {events read : List Event}
    {opening body closing : List Char} (some_object : objects ≠ []) (opens : IsEnding opening)
    (lines : LinesOf (fun _ => False) objects body) (decodes : List.Forall₂ Decodes objects events)
    (h : Event.readList? ('[' :: (opening ++ body ++ ']' :: closing)) = some read) :
    read = events := by
  obtain ⟨v, value, decoded⟩ := Option.bind_eq_some_iff.mp h
  obtain ⟨r, found, -⟩ := Json.read?_eq_some_iff.mp value
  rw [value?_succ_eq_some_iff, skipSpace_cons_of_not (by decide)] at found
  cases found with
  | emptyArray close =>
    rw [List.append_assoc] at close
    rcases lines.first_solid decodes opens.isBlanks close (by decide) with ⟨empty, -⟩ | wrong
    · exact absurd empty some_object
    · exact absurd wrong (by decide)
  | array _ items =>
    have mapped := lines.mapM_items decodes opens.isBlanks items
    exact Option.some.inj (decoded.symm.trans mapped)
  | number other => exact absurd other (by decide)

end Bracketed

/-- Whichever shape a log has, the events that are read from it are those of its objects, in their
order. -/
theorem events?_read_of_shape {objects : List (List Char)} {events : List Event} {text : List Char}
    (decodes : List.Forall₂ Decodes objects events) (shape : Shape objects text) :
    (read text).events? = some events := by
  cases shape with
  | @array a body b before holds behind =>
    have bracket : format (a ++ '[' :: (body ++ ']' :: b)) = .jsonArray := by
      unfold format
      rw [trimStart_append_of_isBlanks fun c hc => isBlank_of_isSpace (before c hc)]
      rfl
    simp [read, bracket, readList?_of_array before holds behind decodes, Reading.events?]
  | @lines body last carrying one_line passes no_bracket =>
    have plain : format (body ++ last) = .eventLines := by simp [format, no_bracket]
    have found : entries (body ++ last) = events.map .event := by
      rw [carrying.entries_append decodes, entries_of_not_mem one_line, passes]
      simp
    simp [read, plain, Reading.events?, events_readLines found]
  | @bracketed opening body closing some_object opens carrying closes =>
    generalize same : '[' :: (opening ++ body ++ ']' :: closing) = text
    have bracket : format text = .jsonArray := by
      rw [← same]
      rfl
    have found : (readLines text).events = events := by
      refine events_readLines ?_
      have passing : LinesOf (readLine? · = none) objects body := carrying.mono fun _ => False.elim
      rw [← same, List.append_assoc, entries_opening opens, passing.entries_append decodes,
        entries_closing closes, List.append_nil]
    have some_event : events ≠ [] := by
      rintro rfl
      exact some_object (List.forall₂_nil_right_iff.mp decodes)
    unfold read
    rw [bracket]
    cases array : Event.readList? text with
    | none => simp [found, some_event, Reading.events?]
    | some events' =>
      rw [← same] at array
      simp [readList?_of_bracketed some_object opens carrying decodes array, Reading.events?]

def nonceText : List Char :=
  ("\x7b\"From\":\"root\",\"To\":\"org\",\"Object\":\"no,nce\",\"Size\":32," ++
    "\"Start\":\"2019-05-01T12:00:00Z\",\"End\":\"2019-05-01T12:00:01Z\"\x7d").toList

def nonce : Event :=
  { sender := "root", receiver := "org", category := "no,nce", size := 32,
    start := .ofNanos 1556712000000000000,
    finish := .ofNanos 1556712001000000000, localRate := 0, globalRate := 0, id := 0 }

def stamped : Frame :=
  { lead := [], stamp := "2019/05/01 12:00:00.5 ".toList, gap := [], comma := [','], trail := []
    lead_blank := isBlanks_nil
    stamp_shape := Or.inr ⟨"2019/05/01 12:00:00".toList, ".5".toList, [' '],
      by simp [stampPattern]; decide, Or.inr ⟨'5', [], by decide, by simp; decide⟩, by
      simp [IsBlanks]; decide, by decide, by decide⟩
    gap_blank := isBlanks_nil
    comma_shape := Or.inr rfl
    trail_blank := isBlanks_nil }

/-- Two transfers as the items of an array, on lines with a line between them that is none, and on
lines in brackets. -/
theorem events?_read_of_shape_stamped :
    List.Forall₂ Decodes [nonceText, nonceText] [nonce, nonce] ∧
      (read ('[' :: (nonceText ++ ',' :: (nonceText ++ [']'])))).events? = some [nonce, nonce] ∧
      (read (stamped.around nonceText ++ '\n' :: ("ready".toList ++ '\r' :: '\n' ::
        (stamped.around nonceText ++ ['\n'])))).events? = some [nonce, nonce] ∧
      (read ('[' :: '\r' :: '\n' :: (stamped.around nonceText ++ '\n' ::
        (stamped.around nonceText ++ ['\n', ']', '\n'])))).events? = some [nonce, nonce] := by
  obtain ⟨opens, closes, text_line, reads, one_line⟩ : nonceText.head? = some '\x7b' ∧
      nonceText.getLast? = some '\x7d' ∧ '\n' ∉ nonceText ∧ Event.read? nonceText = some nonce ∧
      '\n' ∉ stamped.around nonceText := by decide +kernel
  have decodes : Decodes nonceText nonce := ⟨⟨opens, closes, text_line⟩, reads⟩
  have both : List.Forall₂ Decodes [nonceText, nonceText] [nonce, nonce] :=
    .cons decodes (.cons decodes .nil)
  have no_spaces : IsSpaces [] := by simp [IsSpaces]
  have items : ItemsOf [nonceText, nonceText]
      ([] ++ nonceText ++ [] ++ ',' :: ([] ++ nonceText ++ [])) :=
    .next no_spaces no_spaces (.last no_spaces no_spaces)
  have last (mayPass : List Char → Prop) :
      LinesOf mayPass [nonceText] (stamped.around nonceText ++ ['\n'] ++ []) :=
    .carrying one_line (Or.inl rfl) .nil
  have between : LinesOf (readLine? · = none) [nonceText, nonceText]
      (stamped.around nonceText ++ ['\n'] ++
      ("ready".toList ++ ['\r', '\n'] ++ (stamped.around nonceText ++ ['\n'] ++ []))) :=
    .carrying one_line (Or.inl rfl) (.passing (by decide) (by decide) (Or.inr rfl) (last _))
  have no_bracket : (trimStart (stamped.around nonceText ++ ['\n'] ++
      ("ready".toList ++ ['\r', '\n'] ++ (stamped.around nonceText ++ ['\n'] ++ [])) ++ [])).head? ≠
      some '[' := by
    decide +kernel
  have rows : LinesOf (fun _ => False) [nonceText, nonceText]
      (stamped.around nonceText ++ ['\n'] ++ (stamped.around nonceText ++ ['\n'] ++ [])) :=
    .carrying one_line (Or.inl rfl) (last _)
  have array := events?_read_of_shape both (.array no_spaces (Or.inr items) no_spaces)
  have lines := events?_read_of_shape both (.lines between List.not_mem_nil rfl no_bracket)
  have bracketed :=
    events?_read_of_shape both (.bracketed (by decide) (Or.inr rfl) rows (Or.inr (Or.inl rfl)))
  exact ⟨both, by simpa using array, by simpa using lines, by simpa using bracketed⟩

end InFlight.Log
