import InFlight.Log.Line
import InFlight.Proofs.Text
import Mathlib.Data.List.Forall2
/-!
The grammar of a line with an object: blanks, perhaps a stamp, the object, and blanks with perhaps a
comma among them. The text of an object is found on a line exactly when the grammar puts it there.
-/
namespace InFlight.Log

open Text

/-- A character for a place of a pattern, where `d` stands for any decimal digit. -/
def Fits (place c : Char) : Prop := if place = 'd' then isDecimal c else c = place

instance (place c : Char) : Decidable (Fits place c) :=
  inferInstanceAs (Decidable (if place = 'd' then isDecimal c else c = place))

def stampPattern : List Char :=
  ['d', 'd', 'd', 'd', '/', 'd', 'd', '/', 'd', 'd', ' ', 'd', 'd', ':', 'd', 'd', ':', 'd', 'd']

def IsFraction (s : List Char) : Prop := s = [] ∨ ∃ c digits, s = '.' :: c :: digits ∧
    ∀ d ∈ c :: digits, isDecimal d

def IsStamp (s : List Char) : Prop :=
  ∃ body fraction blanks, List.Forall₂ Fits stampPattern body ∧ IsFraction fraction ∧
    IsBlanks blanks ∧ blanks ≠ [] ∧
    s = body ++ fraction ++ blanks

structure Frame where
  lead : List Char
  stamp : List Char
  gap : List Char
  comma : List Char
  trail : List Char
  lead_blank : IsBlanks lead
  stamp_shape : stamp = [] ∨ IsStamp stamp
  gap_blank : IsBlanks gap
  comma_shape : comma = [] ∨ comma = [',']
  trail_blank : IsBlanks trail

def Frame.around (f : Frame) (object : List Char) : List Char :=
  f.lead ++ f.stamp ++ object ++ f.gap ++ f.comma ++ f.trail

structure Braced (object : List Char) : Prop where
  opens : object.head? = some '\x7b'
  closes : object.getLast? = some '\x7d'
  oneLine : '\n' ∉ object

theorem Braced.two_le_length {object : List Char} (h : Braced object) : 2 ≤ object.length := by
  match object, h.opens, h.closes with
  | [c], opens, closes => simp_all
  | _ :: _ :: _, _, _ => simp

section Stamp

variable {s r : List Char}

theorem decimal?_eq_some_iff : decimal? s = some r ↔ ∃ c, isDecimal c ∧ s = c :: r := by
  cases s with
  | nil => simp [decimal?]
  | cons c t => simp [decimal?, and_comm]

theorem literal?_eq_some_iff {c : Char} : literal? c s = some r ↔ s = c :: r := by
  cases s with
  | nil => simp [literal?]
  | cons d t => simp [literal?]

def place? (place : Char) (s : List Char) : Option (List Char) :=
  if place = 'd' then decimal? s else literal? place s

theorem place?_eq_some_iff {place : Char} :
    place? place s = some r ↔ ∃ c, Fits place c ∧ s = c :: r := by
  unfold place? Fits
  split
  · exact decimal?_eq_some_iff
  · simp [literal?_eq_some_iff]

theorem foldlM_place?_eq_some_iff {pattern : List Char} :
    pattern.foldlM (fun s place => place? place s) s = some r ↔
    ∃ body, List.Forall₂ Fits pattern body ∧ s = body ++ r := by
  induction pattern generalizing s with
  | nil => simp
  | cons place pattern ih =>
    simp only [List.foldlM_cons, Option.bind_eq_bind, Option.bind_eq_some_iff,
      place?_eq_some_iff, ih]
    constructor
    · rintro ⟨_, ⟨c, fits, rfl⟩, body, shape, rfl⟩
      exact ⟨c :: body, .cons fits shape, rfl⟩
    · rintro ⟨_, whole, rfl⟩
      obtain ⟨c, body, fits, shape, rfl⟩ := List.forall₂_cons_left_iff.mp whole
      exact ⟨body ++ r, ⟨c, fits, rfl⟩, body, shape, rfl⟩

theorem stampBody?_eq_some_iff :
    stampBody? s = some r ↔ ∃ body, List.Forall₂ Fits stampPattern body ∧ s = body ++ r := by
  rw [← foldlM_place?_eq_some_iff]
  have steps : stampPattern.foldlM (fun s place => place? place s) s = stampBody? s := by
    simp [stampPattern, place?, stampBody?]
  rw [steps]

theorem exists_isFraction_of_stampFraction? (h : stampFraction? s = some r) :
    ∃ f, IsFraction f ∧ s = f ++ r := by
  unfold stampFraction? at h
  split at h
  · obtain ⟨t, dropped, rfl⟩ := Option.map_eq_some_iff.mp h
    obtain ⟨c, decimal, rfl⟩ := decimal?_eq_some_iff.mp dropped
    refine ⟨'.' :: c :: t.takeWhile isDecimal, Or.inr ⟨c, _, rfl, ?_⟩, ?_⟩
    · exact List.forall_mem_cons.mpr ⟨decimal, fun d hd => List.mem_takeWhile_imp hd⟩
    · simp
  · exact ⟨[], Or.inl rfl, by simpa using h⟩

theorem stampFraction?_append {f : List Char} {c : Char} (shape : IsFraction f) (blank : isBlank c)
    (r : List Char) :
    stampFraction? (f ++ c :: r) = some (f ++ c :: r |>.drop f.length) := by
  have no_digit : ¬ isDecimal c := fun digit => by
    simp [isBlank_eq_false_of_isDecimal digit] at blank
  rcases shape with rfl | ⟨d, digits, rfl, all⟩
  · have no_point : c ≠ '.' := by rintro rfl; revert blank; decide
    unfold stampFraction?
    split
    · simp_all
    · simp
  · obtain ⟨first, others⟩ := List.forall_mem_cons.mp all
    simp [stampFraction?, decimal?, first, List.dropWhile_append_of_pos others, no_digit]

/-- The stamp ends where the blanks behind it do. -/
theorem stamp?_eq_some_iff : stamp? s = some r ↔
    ∃ stamp, IsStamp stamp ∧ s = stamp ++ r ∧ trimStart r = r := by
  simp only [stamp?, Option.bind_eq_bind, Option.bind_eq_some_iff, stampBody?_eq_some_iff]
  constructor
  · rintro ⟨t, ⟨body, shape, rfl⟩, u, dropped, h⟩
    obtain ⟨fraction, digits, rfl⟩ := exists_isFraction_of_stampFraction? dropped
    split at h
    · rename_i c v
      split at h
      · rename_i blank
        obtain rfl := Option.some.inj h
        obtain ⟨blanks, rest, same⟩ := exists_isBlanks_append_trimStart v
        refine ⟨body ++ fraction ++ c :: blanks,
          ⟨body, fraction, c :: blanks, shape, digits, ?_, by simp, rfl⟩, ?_,
          trimStart_trimStart v⟩
        · exact List.forall_mem_cons.mpr ⟨blank, rest⟩
        · rw [List.append_assoc, List.append_assoc, List.cons_append, ← same]
      · cases h
    · cases h
  · rintro ⟨_, ⟨body, fraction, blanks, shape, digits, all, some_blank, rfl⟩, rfl, trimmed⟩
    obtain ⟨c, blanks, rfl⟩ := List.exists_cons_of_ne_nil some_blank
    obtain ⟨blank, others⟩ := List.forall_mem_cons.mp all
    refine ⟨fraction ++ c :: (blanks ++ r), ⟨body, shape, by simp⟩, c :: (blanks ++ r), ?_, ?_⟩
    · simpa using stampFraction?_append digits blank (blanks ++ r)
    · simp [blank, trimStart_append_of_isBlanks others, trimmed]

theorem IsStamp.exists_decimal (h : IsStamp s) : ∃ c t, s = c :: t ∧ isDecimal c := by
  obtain ⟨body, fraction, blanks, shape, -, -, -, rfl⟩ := h
  obtain ⟨c, body, fits, -, rfl⟩ := List.forall₂_cons_left_iff.mp shape
  exact ⟨c, _, rfl, by simpa [Fits] using fits⟩

end Stamp

section Object

variable {line object r : List Char}

theorem fromBrace?_eq_some_iff : fromBrace? line = some r ↔ ∃ lead stamp, IsBlanks lead ∧
    (stamp = [] ∨ IsStamp stamp) ∧
    line = lead ++ stamp ++ r ∧ r.head? = some '\x7b' := by
  have solid : isBlank '\x7b' = false := by decide
  unfold fromBrace?
  constructor
  · intro h
    obtain ⟨lead, blanks, same⟩ := exists_isBlanks_append_trimStart line
    split at h
    · rename_i t brace
      obtain rfl := Option.some.inj h
      exact ⟨lead, [], blanks, Or.inl rfl, by rw [List.append_nil, ← brace, ← same], rfl⟩
    · obtain ⟨t, found, h⟩ := Option.bind_eq_some_iff.mp h
      split at h
      · rename_i brace
        obtain rfl := Option.some.inj h
        obtain ⟨stamp, shape, rest, -⟩ := stamp?_eq_some_iff.mp found
        exact ⟨lead, stamp, blanks, Or.inr shape, by rw [List.append_assoc, ← rest, ← same], brace⟩
      · cases h
  · rintro ⟨lead, stamp, blanks, shape, rfl, brace⟩
    obtain ⟨t, rfl⟩ : ∃ t, r = '\x7b' :: t := List.head?_eq_some_iff.mp brace
    rw [List.append_assoc, trimStart_append_of_isBlanks blanks]
    rcases shape with rfl | shape
    · rw [List.nil_append, trimStart_eq_self_of_head solid]
      rfl
    · have found : stamp? (stamp ++ '\x7b' :: t) = some ('\x7b' :: t) :=
        stamp?_eq_some_iff.mpr ⟨stamp, shape, rfl, trimStart_eq_self_of_head solid⟩
      obtain ⟨c, u, rfl, decimal⟩ := shape.exists_decimal
      rw [List.cons_append, trimStart_eq_self_of_head (isBlank_eq_false_of_isDecimal decimal),
        ← List.cons_append]
      split
      · rename_i same
        obtain rfl := (List.cons.inj same).1
        exact absurd decimal (by decide)
      · rw [found]
        rfl

theorem exists_comma_of_dropComma (s : List Char) :
    ∃ comma, (comma = [] ∨ comma = [',']) ∧ s = dropComma s ++ comma := by
  unfold dropComma
  split
  · rename_i comma
    exact ⟨[','], Or.inr rfl, (List.dropLast_append_getLast? ',' comma).symm⟩
  · exact ⟨[], Or.inl rfl, by simp⟩

theorem throughBrace?_eq_some_iff : throughBrace? r = some object ↔ 2 ≤ object.length ∧
    object.getLast? = some '\x7d' ∧
    ∃ gap comma trail, IsBlanks gap ∧ (comma = [] ∨ comma = [',']) ∧ IsBlanks trail ∧
      r = object ++ gap ++ comma ++ trail := by
  have solid : isBlank '\x7d' = false := by decide
  unfold throughBrace?
  dsimp only
  constructor
  · intro h
    split at h
    · rename_i shape
      obtain rfl := Option.some.inj h
      obtain ⟨trail, trailing, whole⟩ := exists_trimEnd_append_isBlanks r
      obtain ⟨comma, one, uncut⟩ := exists_comma_of_dropComma (trimEnd r)
      obtain ⟨gap, blanks, inner⟩ := exists_trimEnd_append_isBlanks (dropComma (trimEnd r))
      exact ⟨shape.1, shape.2, gap, comma, trail, blanks, one, trailing,
        by rw [← inner, ← uncut, ← whole]⟩
    · cases h
  · rintro ⟨long, brace, gap, comma, trail, blanks, one, trailing, rfl⟩
    have bare : trimEnd (object ++ gap) = object := by
      rw [trimEnd_append_of_isBlanks object blanks, trimEnd_eq_self_of_getLast? brace solid]
    have cut : trimEnd (dropComma (trimEnd (object ++ gap ++ comma ++ trail))) = object := by
      rw [trimEnd_append_of_isBlanks _ trailing]
      rcases one with rfl | rfl
      · rw [List.append_nil, bare]
        simp [dropComma, brace, trimEnd_eq_self_of_getLast? brace solid]
      · rw [trimEnd_eq_self_of_getLast? (List.getLast?_concat) (by decide)]
        simp [dropComma, bare]
    rw [cut, if_pos ⟨long, brace⟩]

/-- The text of an object is found on a line if and only if the line is that text in a frame. -/
theorem objectText?_eq_some_iff :
    objectText? line = some object ↔ Braced object ∧ ∃ f : Frame, line = f.around object := by
  simp only [objectText?, Option.bind_eq_bind, Option.bind_eq_some_iff, fromBrace?_eq_some_iff,
    throughBrace?_eq_some_iff]
  constructor
  · rintro ⟨r, ⟨lead, stamp, blanks, shape, rfl, opens⟩, o,
      ⟨long, closes, gap, comma, trail, blank_gap, one, trailing,
      rfl⟩, h⟩
    split at h
    · cases h
    · rename_i oneLine
      obtain rfl := Option.some.inj h
      have object_opens : o.head? = some '\x7b' := by
        match o, long, opens with
        | _ :: _, _, opens => simpa using opens
      exact ⟨⟨object_opens, closes, oneLine⟩,
        ⟨lead, stamp, gap, comma, trail, blanks, shape, blank_gap, one, trailing⟩, by
        simp [Frame.around]⟩
  · rintro ⟨braced, f, rfl⟩
    obtain ⟨t, same⟩ := List.head?_eq_some_iff.mp braced.opens
    refine ⟨object ++ f.gap ++ f.comma ++ f.trail,
      ⟨f.lead, f.stamp, f.lead_blank, f.stamp_shape, by simp [Frame.around], by simp [same]⟩,
      object,
      ⟨braced.two_le_length, braced.closes, f.gap, f.comma, f.trail,
        f.gap_blank, f.comma_shape, f.trail_blank, rfl⟩,
      if_neg braced.oneLine⟩

theorem objectText?_around (h : Braced object) (f : Frame) :
    objectText? (f.around object) = some object :=
  objectText?_eq_some_iff.mpr ⟨h, f, rfl⟩

theorem Frame.sublist_around (f : Frame) (object : List Char) :
    object.Sublist (f.around object) := by
  have parts : f.around object = (f.lead ++ f.stamp) ++
      (object ++ (f.gap ++ f.comma ++ f.trail)) := by
    simp [Frame.around]
  rw [parts]
  exact (List.sublist_append_left object _).trans (List.sublist_append_right _ _)

theorem sublist_of_objectText? (h : objectText? line = some object) :
    object.Sublist line := by
  obtain ⟨-, f, rfl⟩ := objectText?_eq_some_iff.mp h
  exact f.sublist_around object

/-- A blank more at the end of a line is nothing to the object on it. -/
theorem objectText?_append_blank {c : Char} (blank : isBlank c) :
    objectText? (line ++ [c]) = objectText? line := by
  ext object
  simp only [objectText?_eq_some_iff]
  refine and_congr_right fun braced => ⟨?_, ?_⟩
  · rintro ⟨f, same⟩
    rcases List.eq_nil_or_concat' f.trail with none_trailing | ⟨trail, d, trailing⟩
    · rcases f.comma_shape with no_comma | comma
      · rcases List.eq_nil_or_concat' f.gap with no_gap | ⟨gap, d, blanks⟩
        · -- the object itself would end in the blank
          have last : c = '\x7d' := by
            simpa [Frame.around, none_trailing, no_comma, no_gap, braced.closes] using congrArg
              List.getLast? same
          exact absurd blank (by rw [last]; decide)
        · have blank_gap : IsBlanks gap := fun x hx => f.gap_blank x (by simp [blanks, hx])
          refine ⟨{ f with gap := gap, gap_blank := blank_gap }, ?_⟩
          simp only [Frame.around, none_trailing, no_comma, blanks, List.append_nil,
            ← List.append_assoc] at same ⊢
          exact (List.append_inj' same rfl).1
      · have last : c = ',' := by
          simpa [Frame.around, none_trailing, comma] using congrArg List.getLast? same
        exact absurd blank (by rw [last]; decide)
    · have blank_trail : IsBlanks trail := fun x hx => f.trail_blank x (by simp [trailing, hx])
      refine ⟨{ f with trail := trail, trail_blank := blank_trail }, ?_⟩
      simp only [Frame.around, trailing, ← List.append_assoc] at same ⊢
      exact (List.append_inj' same rfl).1
  · rintro ⟨f, rfl⟩
    have trailing : IsBlanks (f.trail ++ [c]) :=
      f.trail_blank.append (by simpa [IsBlanks] using blank)
    exact ⟨{ f with trail := f.trail ++ [c], trail_blank := trailing }, by simp [Frame.around]⟩

end Object

end InFlight.Log
