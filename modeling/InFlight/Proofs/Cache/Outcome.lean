import InFlight.Cache
import InFlight.Proofs.Files.Tree
import InFlight.Proofs.Log.Storable
/-!
What comes of loading a log through its cache, in every state of the two files. A cache is used or
passed over; then the log is loaded or not; then its events can be stored or not. A load that fails
leaves all files as they were.
-/
namespace InFlight.Cache

variable {t files : Tree} {log cache : String} {events : List Event} {now : Int}

theorem read_eq_ok_iff {path : String} : read t path = .ok events ↔
    ∃ payload, t.content? path = some (.packed payload) ∧ decode? payload = some events := by
  unfold read
  cases t.content? path with
  | none =>
    dsimp only
    split <;> simp
  | some content =>
    cases content with
    | plain bytes => simp
    | packed payload =>
      dsimp only
      split <;> simp_all

structure IsUsable (t : Tree) (log : String) (events : List Event) : Prop where
  fresh : ∃ logTime cacheTime, t.modified? log = some logTime ∧
    t.modified? (pathFor log) = some cacheTime ∧
    logTime ≤ cacheTime
  decodable : ∃ payload, t.content? (pathFor log) = some (.packed payload) ∧
    decode? payload = some events

theorem isFresh_iff : isFresh t log cache ↔ ∃ logTime cacheTime, t.modified? log = some logTime ∧
    t.modified? cache = some cacheTime ∧ logTime ≤ cacheTime := by
  unfold isFresh
  cases t.modified? log with
  | none => simp
  | some logTime =>
    cases t.modified? cache with
    | none => simp
    | some cacheTime => simp

theorem isUsable_iff : IsUsable t log events ↔
    isFresh t log (pathFor log) ∧ read t (pathFor log) = .ok events := by
  rw [isFresh_iff, read_eq_ok_iff]
  exact ⟨fun h => ⟨h.fresh, h.decodable⟩, fun h => ⟨h.1, h.2⟩⟩

theorem not_isUsable_of_stale (stale : isFresh t log (pathFor log) = false) (events : List Event) :
    ¬ IsUsable t log events := by
  rw [isUsable_iff, stale]
  rintro ⟨fresh, -⟩
  cases fresh

theorem not_isUsable_of_unread {e : FileError} (unread : read t (pathFor log) = .error e)
    (events : List Event) :
    ¬ IsUsable t log events := by
  rw [isUsable_iff, unread]
  rintro ⟨-, cached⟩
  cases cached

inductive Loads (t : Tree) (log : String) (now : Int) :
    Except FileError (List Event) → Tree → Prop where
  | cached {events : List Event} : IsUsable t log events → Loads t log now (.ok events) t
  | failed {e : FileError} : (∀ events, ¬ IsUsable t log events) → Log.load t log = .error e →
      Loads t log now (.error e) t
  | stored {events : List Event} {files : Tree} : (∀ events, ¬ IsUsable t log events) →
      Log.load t log = .ok events →
      t.write? (pathFor log) (.packed (encode events)) now = some files →
        Loads t log now (.ok events) files
  | notStored {events : List Event} : (∀ events, ¬ IsUsable t log events) →
      Log.load t log = .ok events →
      t.write? (pathFor log) (.packed (encode events)) now = none → Loads t log now (.ok events) t

theorem loads_refresh (unusable : ∀ events, ¬ IsUsable t log events) (now : Int) :
    Loads t log now (refresh t log now).events (refresh t log now).files := by
  unfold refresh write
  dsimp only
  cases found : Log.load t log with
  | error e => exact .failed unusable found
  | ok events =>
    dsimp only
    cases attempt : t.write? (pathFor log) (.packed (encode events)) now with
    | some files => exact .stored unusable found attempt
    | none => exact .notStored unusable found attempt

theorem loads_load (t : Tree) (log : String) (now : Int) :
    Loads t log now (load t log now).events (load t log now).files := by
  unfold load
  dsimp only
  cases fresh : isFresh t log (pathFor log) with
  | false => exact loads_refresh (not_isUsable_of_stale fresh) now
  | true =>
    cases cached : read t (pathFor log) with
    | ok events => exact .cached (isUsable_iff.mpr ⟨fresh, cached⟩)
    | error e => exact loads_refresh (not_isUsable_of_unread cached) now

theorem IsUsable.unique {others : List Event} (h : IsUsable t log events)
    (h' : IsUsable t log others) :
    events = others := by
  rw [isUsable_iff] at h h'
  exact Except.ok.inj (h.2.symm.trans h'.2)

section Stored

/-- No file is longer than a word can count. -/
def Countable : Content → Prop
  | .plain bytes => IsWord bytes.length
  | .packed _ => True

theorem utf8ByteSize_of_text? {bytes : Bytes} {s : String}
    (h : (Content.plain bytes).text? = some s) :
    s.utf8ByteSize = bytes.length := by
  change String.fromUTF8? (ByteArray.mk bytes.toArray) = some s at h
  unfold String.fromUTF8? at h
  split at h
  · rw [← Option.some.inj h]
    rfl
  · cases h

/-- What a log is found to hold can be put in a cache and read back. -/
theorem decode?_encode_of_load (loaded : Log.load t log = .ok events)
    (countable : ∀ content, t.content? log = some content → Countable content) :
    decode? (encode events) = some events := by
  unfold Log.load at loaded
  split at loaded
  · cases loaded
  · rename_i reading found
    split at loaded
    · rename_i events' recognized
      obtain rfl := Except.ok.inj loaded
      obtain ⟨s, text, rfl⟩ := Option.map_eq_some_iff.mp found
      obtain ⟨content, there, text⟩ := Option.bind_eq_some_iff.mp text
      cases content with
      | plain bytes =>
        have fits : IsWord (Text.byteSize s.toList) := by
          rw [← Text.utf8ByteSize_eq_byteSize, utf8ByteSize_of_text? text]
          exact countable _ there
        obtain ⟨count, storable⟩ := Log.isStorable_of_read recognized fits
        exact decode?_encode count storable
      | packed payload => cases text
    · cases loaded

/-- Events that were stored for a log are what its cache then holds, and no other file has
changed. -/
theorem read_of_stored (countable : ∀ content, t.content? log = some content → Countable content)
    (found : Log.load t log = .ok events)
    (written : t.write? (pathFor log) (.packed (encode events)) now = some files) :
    read files (pathFor log) = .ok events ∧ t.SameBut (t.LeadsTo [pathFor log]) files :=
  ⟨read_eq_ok_iff.mpr ⟨_, Tree.content?_of_write? written, decode?_encode_of_load found countable⟩,
    Tree.sameBut_of_write? written⟩

end Stored

/-- A load fails just when no cache can be used and the log cannot be loaded, with the error of the
log and all files as they were. A cache that can be used gives its events, and nothing is written.
Else the events are those of the log, and the cache holds them afterwards, if anything can be
written in its place. -/
theorem load_outcome (countable : ∀ content, t.content? log = some content → Countable content) :
    (∀ e, (load t log now).events = .error e ↔ (¬ ∃ events, IsUsable t log events) ∧
      Log.load t log = .error e) ∧
    (∀ e, (load t log now).events = .error e → (load t log now).files = t) ∧
    (∀ events, IsUsable t log events → (load t log now).events = .ok events ∧
      (load t log now).files = t) ∧
    ∀ events, (¬ ∃ events, IsUsable t log events) → (load t log now).events = .ok events →
      Log.load t log = .ok events ∧
      (t.IsWritable (pathFor log) → read (load t log now).files (pathFor log) = .ok events ∧
        t.SameBut (t.LeadsTo [pathFor log]) (load t log now).files) ∧
      (¬ t.IsWritable (pathFor log) → (load t log now).files = t) := by
  have outcome := loads_load t log now
  generalize (load t log now).events = result at outcome ⊢
  generalize (load t log now).files = files at outcome ⊢
  cases outcome with
  | cached usable =>
    refine ⟨fun e => ⟨nofun, fun h => absurd ⟨_, usable⟩ h.1⟩, nofun, ?_,
      fun _ unusable => absurd ⟨_, usable⟩ unusable⟩
    intro events usable'
    rw [usable.unique usable']
    exact ⟨rfl, rfl⟩
  | failed unusable notLoaded =>
    refine ⟨fun e => ?_, fun _ _ => rfl, fun events usable =>
      absurd usable (unusable events), nofun⟩
    simp [notLoaded, unusable]
  | stored unusable found written =>
    refine ⟨fun e => ?_, nofun, fun events usable => absurd usable (unusable events), ?_⟩
    · simp [found]
    · intro events _ same
      obtain rfl := Except.ok.inj same
      exact ⟨found, fun _ => read_of_stored countable found written,
        fun unwritable => absurd (Tree.isWritable_of_write? written) unwritable⟩
  | notStored unusable found unwritten =>
    refine ⟨fun e => ?_, fun _ _ => rfl, fun events usable => absurd usable (unusable events), ?_⟩
    · simp [found]
    · intro events _ same
      obtain rfl := Except.ok.inj same
      exact ⟨found, fun writable => absurd unwritten (Tree.write?_ne_none writable _ now), fun _ =>
        rfl⟩

def onlyLog : Tree := { entries := [(["log"], .file (.ofText "[]") 0)], current := [] }
def withCache : Tree := (load onlyLog "log" 1).files
def blocked : Tree :=
  { entries := [(["log"], .file (.ofText "[]") 0), (["log.events.zst"], .directory 5)],
    current := [] }
def noLog : Tree := { entries := [(["log.events.zst"], .file (.packed [0]) 5)], current := [] }

/-- Events are given when they cannot be stored, and stored when they can; without a log there is
nothing to give. -/
theorem load_outcome_blocked :
    ((load onlyLog "log" 1).events = .ok [] ∧
      read (load onlyLog "log" 1).files (pathFor "log") = .ok []) ∧
    ((load withCache "log" 2).events = .ok [] ∧ (load withCache "log" 2).files = withCache) ∧
    (isFresh blocked "log" (pathFor "log") ∧ (load blocked "log" 6).events = .ok [] ∧
      (load blocked "log" 6).files = blocked) ∧
    (load noLog "log" 6).events = .error (.logUnreadable "log") ∧
    (load noLog "log" 6).files = noLog := by
  have countable {t : Tree} (there : t.content? "log" = some (.ofText "[]")) (content : Content)
      (same : t.content? "log" = some content) : Countable content := by
    obtain rfl := Option.some.inj (there.symm.trans same)
    exact (by decide +kernel : IsWord "[]".toUTF8.data.toList.length)
  refine ⟨?_, ?_, ?_, ?_⟩
  · obtain ⟨-, -, -, loaded⟩ := @load_outcome onlyLog "log" 1 (countable (by decide +kernel))
    have unusable : ¬ ∃ events, IsUsable onlyLog "log" events :=
      not_exists.mpr (not_isUsable_of_stale (by decide +kernel))
    have given : (load onlyLog "log" 1).events = .ok [] := by decide +kernel
    exact ⟨given,
      ((loaded [] unusable given).2.1 ⟨["log.events.zst"], by decide +kernel, by decide +kernel⟩).1⟩
  · obtain ⟨-, -, used, -⟩ := @load_outcome withCache "log" 2 (countable (by decide +kernel))
    exact used [] (isUsable_iff.mpr ⟨by decide +kernel, by decide +kernel⟩)
  · obtain ⟨-, -, -, loaded⟩ := @load_outcome blocked "log" 6 (countable (by decide +kernel))
    have unread : read blocked (pathFor "log") = .error (.cacheUndecodable (pathFor "log")) := by
      decide +kernel
    have unusable : ¬ ∃ events, IsUsable blocked "log" events :=
      not_exists.mpr (not_isUsable_of_unread unread)
    have unwritable : ¬ blocked.IsWritable (pathFor "log") := by
      rintro ⟨p, there, file⟩
      have here : blocked.place? (pathFor "log") = some ["log.events.zst"] := by decide +kernel
      obtain rfl := Option.some.inj (here.symm.trans there)
      exact absurd file (by decide +kernel)
    have given : (load blocked "log" 6).events = .ok [] := by decide +kernel
    exact ⟨by decide +kernel, given, (loaded [] unusable given).2.2 unwritable⟩
  · have nothing : noLog.content? "log" = none := by decide +kernel
    obtain ⟨fails, left, -⟩ := @load_outcome noLog "log" 6 fun content there => by
      cases nothing.symm.trans there
    have unusable : ¬ ∃ events, IsUsable noLog "log" events :=
      not_exists.mpr (not_isUsable_of_stale (by decide +kernel))
    have failed := (fails (.logUnreadable "log")).mpr ⟨unusable, by decide +kernel⟩
    exact ⟨failed, left _ failed⟩

end InFlight.Cache
