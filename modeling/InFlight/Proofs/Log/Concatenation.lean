import InFlight.Proofs.Log.Shapes
import Mathlib.Logic.Relation
/-!
Texts put together line by line. What the lines of a text say is what its parts say one after the
other, wherever a line end parts them; nothing hangs on how a line ends, nor on lines without an
object between the others.
-/
namespace InFlight.Log

open Text

def Passes (line : List Char) : Prop := '\n' ∉ line ∧ (IsBlanks line ∨ readLine? line = none)

/-- One change of a text that leaves alone what its lines say. With an empty line, `last` ends a
line that had no end. -/
inductive Relaid : List Char → List Char → Prop where
  | ending (a b : List Char) {ending other : List Char} : IsEnding ending → IsEnding other →
      Relaid (a ++ ending ++ b) (a ++ other ++ b)
  | first (b : List Char) {line ending : List Char} : Passes line → IsEnding ending →
      Relaid b (line ++ ending ++ b)
  | between (a b : List Char) {line ending other : List Char} : Passes line → IsEnding ending →
      IsEnding other →
      Relaid (a ++ ending ++ b) (a ++ ending ++ line ++ other ++ b)
  | last (a : List Char) {line ending : List Char} : Passes line → IsEnding ending →
      Relaid a (a ++ ending ++ line)

section Parts

variable {line ending s t : List Char}

theorem readLine?_of_isBlanks (h : IsBlanks line) : readLine? line = none := by
  have nothing : objectText? line = none := by
    refine Option.eq_none_iff_forall_ne_some.mpr fun object found => ?_
    have brace : '\x7b' ∈ object := List.mem_of_mem_head? (objectText?_eq_some_iff.mp found).1.opens
    exact h.not_mem (show isBlank '\x7b' = false by decide)
      ((sublist_of_objectText? found).subset brace)
  rw [readLine?, nothing, Option.map_none]

theorem Passes.entries_eq (h : Passes line) : entries line = [] := by
  have nothing : readLine? line = none := h.2.elim readLine?_of_isBlanks id
  rw [entries_of_not_mem h.1, nothing]
  rfl

/-- A text of one line has what that line has. -/
theorem readLines_of_not_mem (one_line : '\n' ∉ line) : readLines line =
    match readLine? line with
    | some (.event e) => ⟨[e], 0⟩
    | some .malformed => ⟨[], 1⟩
    | none => ⟨[], 0⟩ := by
  unfold readLines
  rw [entries_of_not_mem one_line]
  rcases readLine? line with _ | e | _
  · rfl
  · simp [Entry.event?]
  · rfl

theorem entries_append_ending (ended : IsEnding ending) (a b : List Char) :
    entries (a ++ ending ++ b) = entries a ++ entries b := by
  -- over the lines of the first text, the last of which is ended here
  induction n : a.length using Nat.strong_induction_on generalizing a with
  | h n ih =>
    by_cases feed : '\n' ∈ a
    · obtain ⟨line, rest, rfl, unfed⟩ := List.eq_append_cons_of_mem feed
      rw [List.length_append, List.length_cons] at n
      have first (r : List Char) : entries (line ++ '\n' :: r) = (readLine? line).toList ++
          entries r := by
        simpa using entries_append_line unfed (Or.inl rfl) r
      have parts : line ++ '\n' :: rest ++ ending ++ b = line ++ '\n' :: (rest ++ ending ++ b) := by
        simp
      rw [parts, first, first, ih rest.length (by omega) rest rfl, List.append_assoc]
    · rw [entries_append_line feed ended, entries_of_not_mem feed]

theorem entries_eq_of_relaid (h : Relaid s t) : entries s = entries t := by
  cases h with
  | ending a b ended ended' => rw [entries_append_ending ended, entries_append_ending ended']
  | first b passes ended => rw [entries_append_ending ended, passes.entries_eq, List.nil_append]
  | between a b passes ended ended' =>
    rw [entries_append_ending ended, entries_append_ending ended', entries_append_ending ended,
      passes.entries_eq, List.append_nil]
  | last a passes ended => rw [entries_append_ending ended, passes.entries_eq, List.append_nil]

/-- However often a text is changed so, its lines say the same. -/
theorem entries_eq_of_eqvGen (h : Relation.EqvGen Relaid s t) : entries s = entries t := by
  induction h with
  | rel _ _ changed => exact entries_eq_of_relaid changed
  | refl _ => rfl
  | symm _ _ _ ih => exact ih.symm
  | trans _ _ _ _ _ ih ih' => exact ih.trans ih'

end Parts

/-- A text of one line has the event or the skipped object of that line. The events of two texts
with a line feed between them are those of the first and then those of the second, and as many lines
are skipped as in both. Other line ends, lines that say nothing and a missing last line end change
neither the events and skipped lines nor their order. -/
theorem readLines_append_feed_and_relaid :
    (∀ line, '\n' ∉ line → readLines line =
      match readLine? line with
      | some (.event e) => ⟨[e], 0⟩
      | some .malformed => ⟨[], 1⟩
      | none => ⟨[], 0⟩) ∧
    (∀ a b, (readLines (a ++ '\n' :: b)).events = (readLines a).events ++ (readLines b).events ∧
      (readLines (a ++ '\n' :: b)).skipped = (readLines a).skipped + (readLines b).skipped) ∧
    ∀ s t, Relation.EqvGen Relaid s t → entries t = entries s ∧ readLines t = readLines s := by
  refine ⟨fun line one_line => readLines_of_not_mem one_line, ?_, ?_⟩
  · intro a b
    have parts : entries (a ++ '\n' :: b) = entries a ++ entries b := by
      simpa using entries_append_ending (Or.inl rfl) a b
    constructor
    · rw [readLines, parts, List.filterMap_append]
      rfl
    · rw [readLines, parts, List.filter_append, List.length_append]
      rfl
  · intro s t relaid
    have same := entries_eq_of_eqvGen relaid
    exact ⟨same.symm, by rw [readLines, readLines, same]⟩

/-- An event and an object that is none, the first line ended without a carriage return and the
second not at all; then the lines of both ended otherwise, behind and before lines that say
nothing. -/
theorem readLines_append_feed_and_relaid_spaced :
    (readLines (nonceText ++ '\n' :: ['\x7b', '\x7d'])).events = [nonce] ∧
      (readLines (nonceText ++ '\n' :: ['\x7b', '\x7d'])).skipped = 1 ∧
      readLines ("ready".toList ++ ['\n'] ++
        (nonceText ++ ['\r', '\n'] ++ [' '] ++ ['\n'] ++ ['\x7b', '\x7d']) ++
        ['\r', '\n'] ++ []) = ⟨[nonce], 1⟩ := by
  obtain ⟨one_line, append, relaid_eq⟩ := readLines_append_feed_and_relaid
  have first : readLines nonceText = ⟨[nonce], 0⟩ := by
    have read : readLine? nonceText = some (.event nonce) := by decide +kernel
    rw [one_line nonceText (by decide +kernel), read]
  have second : readLines ['\x7b', '\x7d'] = ⟨[], 1⟩ := by
    have read : readLine? ['\x7b', '\x7d'] = some .malformed := by decide +kernel
    rw [one_line ['\x7b', '\x7d'] (by decide), read]
  obtain ⟨events, skipped⟩ := append nonceText ['\x7b', '\x7d']
  rw [first, second] at events skipped
  have ready : Passes "ready".toList := ⟨by decide, Or.inr (by decide)⟩
  have blank : Passes [' '] := ⟨by decide, Or.inl (by simp [IsBlanks]; decide)⟩
  have empty : Passes [] := ⟨List.not_mem_nil, Or.inl isBlanks_nil⟩
  have relaid : Relation.EqvGen Relaid (nonceText ++ ['\n'] ++ ['\x7b', '\x7d'])
      ("ready".toList ++ ['\n'] ++
      (nonceText ++ ['\r', '\n'] ++ [' '] ++ ['\n'] ++ ['\x7b', '\x7d']) ++ ['\r', '\n'] ++ []) :=
    .trans _ _ _ (.rel _ _ (.ending _ _ (Or.inl rfl) (Or.inr rfl))) <|
      .trans _ _ _ (.rel _ _ (.between _ _ blank (Or.inr rfl) (Or.inl rfl))) <|
        .trans _ _ _ (.rel _ _ (.first _ ready (Or.inl rfl)))
        (.rel _ _ (.last _ empty (Or.inr rfl)))
  obtain ⟨-, same⟩ := relaid_eq _ _ relaid
  refine ⟨events, skipped, same.trans ?_⟩
  calc readLines (nonceText ++ ['\n'] ++ ['\x7b', '\x7d'])
      = ⟨(readLines (nonceText ++ '\n' :: ['\x7b', '\x7d'])).events,
          (readLines (nonceText ++ '\n' :: ['\x7b', '\x7d'])).skipped⟩ := by simp
    _ = ⟨[nonce], 1⟩ := by rw [events, skipped]; rfl

end InFlight.Log
