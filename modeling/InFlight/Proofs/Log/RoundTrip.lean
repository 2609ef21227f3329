import InFlight.Proofs.Event.RoundTrip
import InFlight.Proofs.Log.Shapes
/-!
Logs that are written from events, as an array or with a line for each event, hold those events and
nothing else.
-/
namespace InFlight.Log

open Text Json

section Lines

variable {e : Event} {events : List Event} {text : List Char}

theorem decodes_write (h : e.IsWritable) : Decodes (write none e.toJson) e := by
  obtain ⟨body, text⟩ : ∃ body, write none e.toJson = '\x7b' :: (body ++ ['\x7d']) :=
    exists_write_object none _
  have plain := (Event.writable_toJson e).noControl
  constructor
  · constructor
    · rw [text]
      rfl
    · rw [text, ← List.cons_append, List.getLast?_concat]
    · intro feed
      exact absurd (plain '\n' feed) (by decide)
  · exact Event.read?_write h none

inductive WrittenLines : List Event → List Char → Prop where
  | nil : WrittenLines [] []
  | last {f : Frame} (e : Event) : '\n' ∉ f.around [] →
      WrittenLines [e] (f.around (write none e.toJson))
  | next {f : Frame} {ending rest : List Char} {events : List Event} (e : Event) :
      '\n' ∉ f.around [] →
      IsEnding ending → WrittenLines events rest →
      WrittenLines (e :: events) (f.around (write none e.toJson) ++ ending ++ rest)

theorem Frame.not_mem_around {f : Frame} {object : List Char} (outside : '\n' ∉ f.around [])
    (inside : '\n' ∉ object) :
    '\n' ∉ f.around object := by
  simp only [Frame.around, List.mem_append, List.not_mem_nil, or_false, not_or] at outside ⊢
  obtain ⟨⟨⟨⟨lead, stamp⟩, gap⟩, comma⟩, trail⟩ := outside
  exact ⟨⟨⟨⟨⟨lead, stamp⟩, inside⟩, gap⟩, comma⟩, trail⟩

theorem WrittenLines.entries_eq (h : WrittenLines events text)
    (writable : ∀ e ∈ events, e.IsWritable) :
    entries text = events.map .event := by
  induction h with
  | nil => rfl
  | last e one_line =>
    have decodes := decodes_write (writable e List.mem_cons_self)
    rw [entries_of_not_mem (Frame.not_mem_around one_line decodes.oneLine),
      readLine?_around decodes]
    rfl
  | next e one_line ended _ ih =>
    obtain ⟨here, behind⟩ := List.forall_mem_cons.mp writable
    have decodes := decodes_write here
    rw [entries_append_line (Frame.not_mem_around one_line decodes.oneLine) ended,
      readLine?_around decodes, ih behind]
    rfl

theorem readLines_of_entries (h : entries text = events.map .event) :
    readLines text = ⟨events, 0⟩ := by
  have skipped : (entries text).filter (· = .malformed) = [] := by
    rw [h, List.filter_eq_nil_iff]
    intro entry among
    obtain ⟨e, -, rfl⟩ := List.mem_map.mp among
    simp
  rw [← events_readLines h]
  simp [readLines, skipped]

end Lines

theorem read_write_listToJson {events : List Event} (writable : ∀ e ∈ events, e.IsWritable)
    (l : Layout) :
    read (write l (Event.listToJson events)) = .array events := by
  have isArray : format (write l (Event.listToJson events)) = .jsonArray := by
    obtain ⟨body, text⟩ : ∃ body, write l (Event.listToJson events) = '[' :: (body ++ [']']) :=
      exists_write_array l _
    rw [format, text, trimStart_eq_self_of_head (by decide), List.head?_cons, if_pos rfl]
  rw [read, isArray]
  dsimp only
  rw [Event.readList?_write writable]

/-- The events of a log are read back from the array that holds them, and from lines that hold one
each, whatever the logger has put before them; no line is passed over, nor counted as one that holds
no event. -/
theorem read_written {events : List Event} (writable : ∀ e ∈ events, e.IsWritable) :
    read (compact (Event.listToJson events)).toList = .array events ∧
      ∀ text, WrittenLines events text → readLines text = ⟨events, 0⟩ := by
  constructor
  · rw [compact, String.toList_ofList]
    exact read_write_listToJson writable none
  · intro text written
    exact readLines_of_entries (written.entries_eq writable)

def extremeLog : List Event :=
  [⟨"say \"\\\n\x01", "😀", "", Word.least64, Instant.first, Instant.last, Word.most64, -1,
    Word.count64 - 1⟩, ⟨"peer", "org", "block", 7, .ofNanos 0, .ofNanos (-1), 0, 0, 0⟩]

theorem read_written_extremeLog :
    read (compact (Event.listToJson extremeLog)).toList = .array extremeLog ∧
    ∃ first second, extremeLog = [first, second] ∧
      readLines (stamped.around (write none first.toJson) ++ ['\r', '\n'] ++
      stamped.around (write none second.toJson)) = ⟨extremeLog, 0⟩ := by
  have writable : ∀ e ∈ extremeLog, e.IsWritable := by
    have plain : ∀ e ∈ extremeLog, e.start.IsPlain ∧ e.finish.IsPlain := by decide
    have words : ∀ e ∈ extremeLog, Word.IsSigned64 e.size ∧ Word.IsSigned64 e.localRate ∧
        Word.IsSigned64 e.globalRate ∧ Cache.IsWord e.id := by decide
    intro e he
    obtain ⟨size, localRate, globalRate, id⟩ := words e he
    obtain ⟨start, finish⟩ := plain e he
    exact ⟨size, Timestamp.isNameable_of_isPlain start, Timestamp.isNameable_of_isPlain finish,
      localRate, globalRate, id⟩
  obtain ⟨array, lines⟩ := read_written writable
  have one_line : '\n' ∉ stamped.around [] := by decide
  exact ⟨array, _, _, rfl, lines _ (.next _ one_line (Or.inr rfl) (.last _ one_line))⟩

end InFlight.Log
