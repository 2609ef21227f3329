import InFlight.Proofs.Event.Json
import InFlight.Proofs.Json.RoundTrip
import InFlight.Proofs.Time.Scale
/-!
An event is read back from the JSON it is written as, whatever its texts are: its fields stand under
the first of their spellings, each once.
-/
namespace InFlight

namespace Json

theorem text?_ofText (s : String) : text? (ofText s) = some s := rfl

theorem signed?_ofInt {n : Int} (h : Word.IsSigned64 n) : signed? (ofInt n) = some n := by
  obtain ⟨low, high⟩ := h
  simp [signed?, integer?, ofInt, Number.int?_ofInt, low, high]

theorem unsigned?_ofInt {n : Nat} (h : Cache.IsWord n) : unsigned? (ofInt n) = some n := by
  have high : (n : Int) ≤ (Word.count64 - 1 : Nat) := by
    simp only [Cache.IsWord, Word.count64] at h ⊢
    omega
  simp [unsigned?, integer?, ofInt, Number.int?_ofInt, high]

theorem writable_ofInt (n : Int) : Writable (ofInt n) := .number (Number.isSpelt_ofInt n)

theorem writable_array_map {α : Type} {item : α → Json} (each : ∀ a, Writable (item a))
    (l : List α) :
    Writable (.array (l.map item)) := by
  apply Writable.array
  intro j hj
  obtain ⟨a, -, rfl⟩ := List.mem_map.mp hj
  exact each a

theorem writable_objectOf {members : List (String × Json)} (each : ∀ m ∈ members, Writable m.2) :
    Writable (objectOf members) := by
  apply Writable.object
  · intro m hm
    obtain ⟨named, -, rfl⟩ := List.mem_map.mp hm
    rfl
  · intro m hm
    obtain ⟨named, among, rfl⟩ := List.mem_map.mp hm
    exact each named among

theorem mapM_map_eq_some {α β : Type} {f : α → β} {g : β → Option α} {l : List α}
    (h : ∀ a ∈ l, g (f a) = some a) :
    (l.map f).mapM g = some l := by
  induction l with
  | nil => rfl
  | cons a l ih =>
    obtain ⟨here, behind⟩ := List.forall_mem_cons.mp h
    rw [List.map_cons, List.mapM_cons, here, ih behind]
    rfl

/-- A list is decoded from the array of its items, if each item is. -/
theorem list?_array_map {α : Type} {item : α → Json} {decode : Json → Option α} {l : List α}
    (h : ∀ a ∈ l, decode (item a) = some a) : list? decode (.array (l.map item)) = some l :=
  mapM_map_eq_some h

end Json

/-- Outside leap seconds every instant of the calendar has a text. -/
theorem Timestamp.isNameable_of_isPlain {t : Instant} (h : t.IsPlain) : IsNameable t := by
  refine ⟨h.inCalendar, fun leap => ?_⟩
  rw [h.noLeap] at leap
  cases leap

theorem Instant.ofJson?_toJson {t : Instant} (h : Timestamp.IsNameable t) :
    ofJson? t.toJson = some t := by
  rw [ofJson?, toJson, Json.text?_ofText, Option.bind_some, Timestamp.read?_render h]

namespace Event

open Json

structure IsWritable (e : Event) : Prop where
  size : Word.IsSigned64 e.size
  start : Timestamp.IsNameable e.start
  finish : Timestamp.IsNameable e.finish
  localRate : Word.IsSigned64 e.localRate
  globalRate : Word.IsSigned64 e.globalRate
  id : Cache.IsWord e.id

theorem ofJson?_toJson {e : Event} (h : e.IsWritable) : ofJson? e.toJson = some e := by
  have start := Instant.ofJson?_toJson h.start
  have finish := Instant.ofJson?_toJson h.finish
  simp [ofJson?, toJson, objectOf, ofMembers?, namesAreText, required?, optional?,
    valuesUnder, senderNames, receiverNames, categoryNames, sizeNames, startNames, finishNames,
    localRateNames, globalRateNames, idNames, text?_ofText, signed?_ofInt h.size, start, finish,
    signed?_ofInt h.localRate, signed?_ofInt h.globalRate, unsigned?_ofInt h.id]

theorem writable_toJson (e : Event) : Writable e.toJson := by
  apply writable_objectOf
  simp [writable_ofInt, ofText, Instant.toJson, Writable.string]

theorem writable_listToJson (events : List Event) : Writable (listToJson events) :=
  writable_array_map writable_toJson events

theorem read?_write {e : Event} (h : e.IsWritable) (l : Layout) :
    read? (write l e.toJson) = some e := by
  rw [read?, Json.read?_write (writable_toJson e), Option.bind_some, ofJson?_toJson h]

theorem readList?_write {events : List Event} (h : ∀ e ∈ events, e.IsWritable) (l : Layout) :
    readList? (write l (listToJson events)) = some events := by
  rw [readList?, Json.read?_write (writable_listToJson events), Option.bind_some, listToJson]
  exact list?_array_map fun e he => ofJson?_toJson (h e he)

end Event

end InFlight
