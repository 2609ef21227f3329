import InFlight.Log
import InFlight.Proofs.Event.Json
import InFlight.Proofs.Log.Line
/-!
The events of a log can be stored, however many there are and whatever they say: a cache counts in
words, and a log that a word can count the bytes of holds nothing that a word cannot count.
-/
namespace InFlight.Log

open Text Cache Json

theorem isStorable_of_read? {s : List Char} {e : Event} (h : Event.read? s = some e)
    (fits : IsWord (byteSize s)) :
    IsStorable e := by
  obtain ⟨j, read, decoded⟩ := Option.bind_eq_some_iff.mp h
  exact Event.isStorable_of_ofJson? decoded (within_of_read? read (Nat.le_refl _)) fits

theorem isWord_of_le {m n : Nat} (le : m ≤ n) (h : IsWord n) : IsWord m := Nat.lt_of_le_of_lt le h

/-- What a list is decoded to has its length, and every member of it comes from one of the list. -/
theorem decoded_of_mapM_eq_some {α β : Type} {f : α → Option β} {as : List α} {bs : List β}
    (h : as.mapM f = some bs) :
    bs.length = as.length ∧ ∀ b ∈ bs, ∃ a ∈ as, f a = some b := by
  induction as generalizing bs with
  | nil =>
    obtain rfl : [] = bs := by simpa using h
    simp
  | cons a as ih =>
    simp only [List.mapM_cons, Option.bind_eq_bind, Option.bind_eq_some_iff] at h
    obtain ⟨b, first, bs', others, same⟩ := h
    obtain rfl := Option.some.inj same
    obtain ⟨length, each⟩ := ih others
    refine ⟨by simp [length], List.forall_mem_cons.mpr ⟨⟨a, List.mem_cons_self, first⟩,
      fun b among => ?_⟩⟩
    obtain ⟨a', among, found⟩ := each b among
    exact ⟨a', List.mem_cons_of_mem a among, found⟩

theorem isStorable_of_readList? {s : List Char} {events : List Event}
    (h : Event.readList? s = some events) (fits : IsWord (byteSize s)) :
    IsWord events.length ∧ ∀ e ∈ events, IsStorable e := by
  obtain ⟨j, read, decoded⟩ := Option.bind_eq_some_iff.mp h
  have within := within_of_read? read (Nat.le_refl _)
  cases within with
  | array short each =>
    obtain ⟨length, items⟩ := decoded_of_mapM_eq_some decoded
    refine ⟨isWord_of_le (length ▸ short) fits, fun e among => ?_⟩
    obtain ⟨j, among, decoded⟩ := items e among
    exact Event.isStorable_of_ofJson? decoded (each j among) fits
  | _ => cases decoded

theorem isStorable_of_readLines {s : List Char} (fits : IsWord (byteSize s)) :
    IsWord (readLines s).events.length ∧ ∀ e ∈ (readLines s).events, IsStorable e := by
  obtain ⟨fewer, inside⟩ := lines_within s
  constructor
  · have entries_le : (readLines s).events.length ≤ (lines s).length :=
      Nat.le_trans (List.length_filterMap_le _ _) (List.length_filterMap_le _ _)
    exact isWord_of_le (Nat.le_trans entries_le (Nat.le_trans fewer (length_le_byteSize s))) fits
  · intro e among
    obtain ⟨entry, found, is_event⟩ := List.mem_filterMap.mp among
    obtain ⟨line, among, read⟩ := List.mem_filterMap.mp found
    obtain ⟨object, framed, decoded⟩ := Option.map_eq_some_iff.mp read
    have shorter :=
      byteSize_le_of_sublist ((sublist_of_objectText? framed).trans (inside line among))
    cases outcome : Event.read? object with
    | none =>
      rw [outcome] at decoded
      rw [← decoded] at is_event
      cases is_event
    | some e' =>
      rw [outcome] at decoded
      rw [← decoded] at is_event
      obtain rfl := Option.some.inj is_event
      exact isStorable_of_read? outcome (isWord_of_le shorter fits)

/-- The events that a text is found to hold can be stored. -/
theorem isStorable_of_read {s : List Char} {events : List Event}
    (h : (read s).events? = some events) (fits : IsWord (byteSize s)) :
    IsWord events.length ∧ ∀ e ∈ events, IsStorable e := by
  unfold read at h
  split at h
  · obtain rfl := Option.some.inj h
    exact isStorable_of_readLines fits
  · split at h
    · rename_i found
      obtain rfl := Option.some.inj h
      exact isStorable_of_readList? found fits
    · dsimp only at h
      split at h
      · cases h
      · obtain rfl := Option.some.inj h
        exact isStorable_of_readLines fits

end InFlight.Log
