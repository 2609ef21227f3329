import InFlight.Proofs.Cache.Transparency
import InFlight.Proofs.Event.RoundTrip
/-!
A cache holds exactly the events it was written for, or none: a write that broke off anywhere among
its bytes leaves a cache that is refused, never one with fewer events or with others.
-/
namespace InFlight.Cache

variable {t : Tree} {path : String} {p : Place} {events : List Event} {payload : Bytes}

theorem read_of_decode?_eq_none (there : t.content? path = some (.packed payload))
    (h : decode? payload = none) :
    read t path = .error (.cacheUndecodable path) := by
  simp only [read, there, h]

/-- Events that a cache can hold are read back from where they were written, and nothing is read
from a part of their bytes. -/
theorem read_write_and_read_part (count : IsWord events.length)
    (storable : ∀ e ∈ events, IsStorable e) (here : t.place? path = some p)
    (file : t.isDirectoryAt p = false) (now : Int) :
    (∃ t', write t path events now = .ok t' ∧ read t' path = .ok events) ∧
      ∀ part, part <+: encode events → part ≠ encode events → decode? part = none ∧
        ∃ t', t.write? path (.packed part) now = some t' ∧
          read t' path = .error (.cacheUndecodable path) := by
  constructor
  · refine ⟨t.put p (.file (.packed (encode events)) now), ?_, ?_⟩
    · unfold write
      rw [Tree.write?_eq_put here file]
    · exact read_eq_ok_iff.mpr ⟨_, Tree.content?_put here file _ now, decode?_encode count storable⟩
  · intro part before less
    have refused : decode? part = none := decode?_of_prefix count storable before less
    refine ⟨refused, t.put p (.file (.packed part) now), Tree.write?_eq_put here file _ now, ?_⟩
    exact read_of_decode?_eq_none (Tree.content?_put here file _ now) refused

def edgeLog : List Event :=
  [⟨"", "é€😀", "\x00\n", Word.least64, Instant.first, Instant.last, Word.most64, -1,
    Word.count64 - 1⟩, ⟨"peer", "org", "block", 7, .ofNanos 1, .ofNanos (-1), 0, 0, 0⟩]

theorem read_write_and_read_part_edgeLog :
    (∃ t', write (Tree.directoriesTo [] 0) "log.events.zst" edgeLog 7 = .ok t' ∧
      read t' "log.events.zst" = .ok edgeLog) ∧
    (encode edgeLog).take 150 ≠ encode edgeLog ∧ decode? ((encode edgeLog).take 150) = none ∧
      ∃ t', (Tree.directoriesTo [] 0).write? "log.events.zst"
        (.packed ((encode edgeLog).take 150)) 7 = some t' ∧
        read t' "log.events.zst" = .error (.cacheUndecodable "log.events.zst") := by
  have storable : ∀ e ∈ edgeLog, IsStorable e := by
    have texts : ∀ e ∈ edgeLog, IsWord e.sender.utf8ByteSize ∧ IsWord e.receiver.utf8ByteSize ∧
        IsWord e.category.utf8ByteSize := by decide +kernel
    have numbers : ∀ e ∈ edgeLog, Word.IsSigned64 e.size ∧ Word.IsSigned64 e.localRate ∧
        Word.IsSigned64 e.globalRate ∧ IsWord e.id := by decide
    have plain : ∀ e ∈ edgeLog, e.start.IsPlain ∧ e.finish.IsPlain := by decide
    intro e he
    obtain ⟨sender, receiver, category⟩ := texts e he
    obtain ⟨size, localRate, globalRate, id⟩ := numbers e he
    obtain ⟨start, finish⟩ := plain e he
    exact ⟨sender, receiver, category, size, Timestamp.isNameable_of_isPlain start,
      Timestamp.isNameable_of_isPlain finish, localRate, globalRate, id⟩
  have count : IsWord edgeLog.length := by decide
  have here : (Tree.directoriesTo [] 0).place? "log.events.zst" = some ["log.events.zst"] := by
    decide +kernel
  have file : (Tree.directoriesTo [] 0).isDirectoryAt ["log.events.zst"] = false := by
    decide +kernel
  have less : (encode edgeLog).take 150 ≠ encode edgeLog := by decide +kernel
  obtain ⟨whole, parts⟩ := read_write_and_read_part count storable here file 7
  exact ⟨whole, less, parts _ (List.take_prefix 150 _) less⟩

end InFlight.Cache
