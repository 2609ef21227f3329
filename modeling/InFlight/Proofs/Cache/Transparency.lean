import InFlight.Proofs.Cache.Outcome
import Mathlib.Logic.Relation
/-!
A cache is never seen in what is loaded: over any run of rewritten logs, lost and spoilt caches and
loads, every load gives what the log itself gives. What carries it is that a cache with events in it
is older than the log or holds the events of the log.
-/
namespace InFlight.Cache

open Relation

variable {t t' : Tree} {log : String} {events : List Event}

def Undecodable (content : Content) : Prop := ∀ payload, content = .packed payload →
    decode? payload = none

/-- A step of a run. The clock gives a rewritten log a time after that of a cache with events in
it. -/
inductive Step (log : String) : Tree → Tree → Prop where
  | rewrite {t t' : Tree} {content : Content} {now : Int} : Countable content →
      (∀ events time, read t (pathFor log) = .ok events →
        t.modified? (pathFor log) = some time → time < now) →
      t.write? log content now = some t' → Step log t t'
  | delete {t : Tree} {p : Place} : t.place? (pathFor log) = some p → t.isDirectoryAt p = false →
      Step log t (t.erase p)
  | spoil {t t' : Tree} {content : Content} {now : Int} : Undecodable content →
      t.write? (pathFor log) content now = some t' → Step log t t'
  | load (t : Tree) (now : Int) : Step log t (load t log now).files

structure Faithful (log : String) (t : Tree) : Prop where
  countable : ∀ content, t.content? log = some content → Countable content
  cached : ∀ events, read t (pathFor log) = .ok events → isFresh t log (pathFor log) →
    Log.load t log = .ok events

theorem load_congr (h : t'.content? log = t.content? log) : Log.load t' log = Log.load t log := by
  simp only [Log.load, Log.readFile?, h]

section Place

theorem suffix_eq : suffix = ['.', 'e', 'v', 'e', 'n', 't', 's', '.', 'z', 's', 't'] := by
  decide +kernel

/-- A log and its cache are never one file. -/
theorem place?_pathFor_ne {p : Place} (here : t.place? log = some p)
    (file : p = [] ∨ t.isDirectoryAt p = false) :
    t.place? (pathFor log) ≠ some p := by
  have clean : '/' ∉ (Path.fileName? log.toList).getD [] := by
    cases named : Path.fileName? log.toList with
    | none => simp
    | some name => exact Path.slash_not_mem_of_fileName? named
  have longer : Path.fileName? log.toList ≠
      some ((Path.fileName? log.toList).getD [] ++ suffix) := by
    rw [suffix_eq]
    cases Path.fileName? log.toList <;> simp
  generalize named : (Path.fileName? log.toList).getD [] = name at clean longer
  have long : 11 ≤ (name ++ suffix).length := by simp [suffix_eq]
  have plain : Path.IsPlain (name ++ suffix) := by
    refine ⟨by simp [suffix_eq, clean], ?_, ?_⟩
    · simp only [Path.isTrivial, Bool.or_eq_false_iff, beq_eq_false_iff_ne, ne_eq]
      constructor <;> intro same <;> simp [same] at long
    · simp only [Path.isParent, beq_eq_false_iff_ne, ne_eq]
      intro same
      simp [same] at long
  unfold pathFor
  rw [named]
  exact Tree.place?_withFileName_ne plain longer here file

end Place

section Load

variable {result : Except FileError (List Event)} {files : Tree} {now : Int}

theorem Loads.events_eq (h : Loads t log now result files)
    (faithful : ∀ events, IsUsable t log events → Log.load t log = .ok events) :
    result = Log.load t log := by
  cases h with
  | cached usable => exact (faithful _ usable).symm
  | failed _ found => exact found.symm
  | stored _ found _ => exact found.symm
  | notStored _ found _ => exact found.symm

theorem Loads.files_eq_or (h : Loads t log now result files) :
    files = t ∨ ∃ events, Log.load t log = .ok events ∧
    t.write? (pathFor log) (.packed (encode events)) now = some files := by
  cases h with
  | cached _ => exact Or.inl rfl
  | failed _ _ => exact Or.inl rfl
  | stored _ found written => exact Or.inr ⟨_, found, written⟩
  | notStored _ _ _ => exact Or.inl rfl

/-- Loading touches nothing, or writes what the log holds into its cache. -/
theorem files_load (t : Tree) (log : String) (now : Int) : (load t log now).files = t ∨
    ∃ events, Log.load t log = .ok events ∧
      t.write? (pathFor log) (.packed (encode events)) now = some (load t log now).files :=
  (loads_load t log now).files_eq_or

theorem Faithful.events_load (h : Faithful log t) (now : Int) :
    (load t log now).events = Log.load t log := by
  apply (loads_load t log now).events_eq
  intro events usable
  obtain ⟨fresh, cached⟩ := isUsable_iff.mp usable
  exact h.cached events cached fresh

end Load

section Run

theorem faithful_of_noCache (noCache : t.content? (pathFor log) = none)
    (countable : ∀ content, t.content? log = some content → Countable content) :
    Faithful log t where
  countable := countable
  cached events cached _ := by
    obtain ⟨payload, there, -⟩ := read_eq_ok_iff.mp cached
    rw [noCache] at there
    cases there

/-- Writing at the place of the cache, or clearing it, leaves the log as it is. -/
theorem content?_log_of_changedAt {p : Place} (here : t.place? (pathFor log) = some p)
    (h : Tree.ChangedAt p t t') :
    t'.content? log = t.content? log :=
  h.content? fun there => place?_pathFor_ne there (Or.inr h.noDirectory) here

theorem Step.faithful (step : Step log t t') (h : Faithful log t) : Faithful log t' := by
  cases step with
  | @rewrite _ content now fits later written =>
    obtain ⟨p, here, file, rfl⟩ := Tree.write?_eq_some_iff.mp written
    have changed := Tree.changedAt_put file content now
    have apart : t.place? (pathFor log) ≠ some p := place?_pathFor_ne here (Or.inr file)
    refine ⟨fun c there => ?_, fun events cached fresh => ?_⟩
    · rw [Tree.content?_put here file] at there
      exact Option.some.inj there ▸ fits
    · -- the cache is the one of before, and the log has become newer
      have before : read t (pathFor log) = .ok events := by
        rw [read_eq_ok_iff] at cached ⊢
        rwa [changed.content? apart] at cached
      unfold isFresh at fresh
      rw [Tree.modified?_put here file, changed.modified? apart] at fresh
      cases time : t.modified? (pathFor log) with
      | none => simp [time] at fresh
      | some time' =>
        have older := later events time' before time
        simp only [time, decide_eq_true_eq] at fresh
        omega
  | @delete p here file =>
    have same := content?_log_of_changedAt here (Tree.changedAt_erase file)
    refine ⟨fun c there => h.countable c (same ▸ there), fun events cached _ => ?_⟩
    obtain ⟨payload, there, -⟩ := read_eq_ok_iff.mp cached
    rw [Tree.content?_erase here file] at there
    cases there
  | @spoil _ content now nothing written =>
    obtain ⟨p, here, file, rfl⟩ := Tree.write?_eq_some_iff.mp written
    have same := content?_log_of_changedAt here (Tree.changedAt_put file content now)
    refine ⟨fun c there => h.countable c (same ▸ there), fun events cached fresh => ?_⟩
    obtain ⟨payload, there, decoded⟩ := read_eq_ok_iff.mp cached
    rw [Tree.content?_put here file] at there
    rw [nothing payload (Option.some.inj there)] at decoded
    cases decoded
  | load now =>
    rcases files_load t log now with same | ⟨events, found, written⟩
    · rw [same]
      exact h
    · generalize (Cache.load t log now).files = t' at written
      obtain ⟨p, here, file, rfl⟩ := Tree.write?_eq_some_iff.mp written
      have same :=
        content?_log_of_changedAt here (Tree.changedAt_put file (.packed (encode events)) now)
      refine ⟨fun c there => h.countable c (same ▸ there), fun events' cached _ => ?_⟩
      obtain ⟨payload, there, decoded⟩ := read_eq_ok_iff.mp cached
      rw [Tree.content?_put here file, Option.some.injEq, Content.packed.injEq] at there
      subst there
      rw [decode?_encode_of_load found h.countable] at decoded
      rw [load_congr same, found, Option.some.inj decoded]

theorem faithful_of_steps (steps : ReflTransGen (Step log) t t') (h : Faithful log t) :
    Faithful log t' := by
  induction steps with
  | refl => exact h
  | tail _ step ih => exact step.faithful ih

end Run

/-- Whatever a run without a cache at its start has done, a load through the cache gives what the
log itself gives. -/
theorem events_load_of_steps {now : Int} (noCache : t.content? (pathFor log) = none)
    (countable : ∀ content, t.content? log = some content → Countable content)
    (steps : ReflTransGen (Step log) t t') :
    (load t' log now).events = Log.load t' log :=
  (faithful_of_steps steps (faithful_of_noCache noCache countable)).events_load now

def rewritten : Tree := withCache.put ["log"] (.file (.ofText "none") 2)

theorem events_load_of_steps_rewritten : onlyLog.content? (pathFor "log") = none ∧
    ReflTransGen (Step "log") onlyLog rewritten ∧ withCache.isFile (pathFor "log") ∧
    (load rewritten "log" 3).events = Log.load rewritten "log" := by
  have noCache : onlyLog.content? (pathFor "log") = none := by decide +kernel
  have start (content : Content) (there : onlyLog.content? "log" = some content) :
      Countable content := by
    have text : onlyLog.content? "log" = some (.ofText "[]") := by decide +kernel
    obtain rfl := Option.some.inj (text.symm.trans there)
    exact (by decide +kernel : IsWord "[]".toUTF8.data.toList.length)
  have loaded : Step "log" onlyLog withCache := .load onlyLog 1
  have fits : Countable (.ofText "none") :=
    (by decide +kernel : IsWord "none".toUTF8.data.toList.length)
  have written : withCache.write? "log" (.ofText "none") 2 = some rewritten :=
    Tree.write?_eq_some_iff.mpr ⟨["log"], by decide +kernel, by decide +kernel, rfl⟩
  have changed : Step "log" withCache rewritten := by
    refine .rewrite fits (fun events time _ cached => ?_) written
    have first : withCache.modified? (pathFor "log") = some 1 := by decide +kernel
    obtain rfl := Option.some.inj (first.symm.trans cached)
    decide
  have steps : ReflTransGen (Step "log") onlyLog rewritten := .tail (.single loaded) changed
  exact ⟨noCache, steps, by decide +kernel, events_load_of_steps noCache start steps⟩

end InFlight.Cache
