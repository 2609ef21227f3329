import InFlight.Run
import InFlight.Proofs.Cache.Transparency
import InFlight.Proofs.Config.Acceptance
import InFlight.Proofs.Log.RoundTrip
/-!
The ways a run ends, each with what was found on the way there and the files that are left. Files
change in three places at most: the cache of the log, the chart, and the report.
-/
namespace InFlight.Run

section Prepare

variable {t : Tree} {c : Command} {config : Config} {options : ChartOptions}

theorem bind_eq_ok_iff {α β : Type} {x : Except Failure α} {f : α → Except Failure β} {b : β} :
    (x >>= f) = .ok b ↔ ∃ a, x = .ok a ∧ f a = .ok b := by
  cases x <;> simp [bind, Except.bind]

theorem validate_of_enforce {o : Override} {base : Config} (h : o.enforce base = (.ok (), config)) :
    config.validate = .ok () := by
  obtain ⟨valid, rfl⟩ := Prod.mk.inj h
  exact valid

theorem validate_of_settings (h : settings t c = .ok config) : config.validate = .ok () := by
  unfold settings at h
  dsimp only [bind, Except.bind] at h
  split at h
  · split at h
    · rename_i valid
      rw [← Except.ok.inj h]
      exact validate_of_enforce valid
    · cases h
  · split at h
    · split at h
      · rename_i valid
        rw [← Except.ok.inj h]
        exact validate_of_enforce valid
      · cases h
    · cases h

theorem prepare_eq_ok_iff : prepare t c = .ok (config, options) ↔
    t.isFile c.input ∧ t.isDirectory c.output ∧ settings t c = .ok config ∧
    config.options = .ok options := by
  unfold prepare
  cases t.isFile c.input with
  | false => simp
  | true =>
    cases t.isDirectory c.output with
    | false => simp
    | true =>
      simp only [Bool.not_true, Bool.false_eq_true, if_false, true_and, bind_eq_ok_iff]
      constructor
      · rintro ⟨found, same, chosen⟩
        split at chosen
        · rename_i opts accepted
          obtain ⟨rfl, rfl⟩ := Prod.mk.inj (Except.ok.inj chosen)
          exact ⟨same, accepted⟩
        · cases chosen
      · rintro ⟨same, accepted⟩
        refine ⟨config, same, ?_⟩
        rw [accepted]

end Prepare

section Load

variable {t : Tree} {path : String}

def cachePaths (path : String) (cached : Bool) : List String :=
  if cached then [Cache.pathFor path] else []

theorem sameBut_loadLog (t : Tree) (path : String) (cached : Bool) (now : Int) :
    t.SameBut (t.LeadsTo (cachePaths path cached)) (loadLog t path cached now).files := by
  cases cached with
  | false => exact .refl _ t
  | true =>
    rcases Cache.files_load t path now with same | ⟨events, -, written⟩
    · change t.SameBut _ (Cache.load t path now).files
      rw [same]
      exact .refl _ t
    · exact Tree.sameBut_of_write? written

/-- A log that was written as an array is loaded as the events it was written for. -/
theorem load_of_written {events : List Event} (writable : ∀ e ∈ events, e.IsWritable)
    (there : t.content? path = some (.ofText (Json.compact (Event.listToJson events)))) :
    Log.load t path = .ok events := by
  have text : (Content.ofText (Json.compact (Event.listToJson events))).text? =
      some (Json.compact (Event.listToJson events)) := Cache.fromUTF8?_toUTF8 _
  unfold Log.load Log.readFile?
  rw [there, Option.bind_some, text, Option.map_some, Json.compact, String.toList_ofList,
    Log.read_write_listToJson writable]
  rfl

end Load

section Deliver

variable {t files : Tree} {directory : String} {output : OutputSettings} {chart : Chart Float}
  {summary : Summary}
  {now : Int} {result : Except Failure Summary}

def chartPath (directory : String) (output : OutputSettings) :
    String := outputPath directory output.fileName

def reportPath (directory : String) (output : OutputSettings) : String :=
  outputPath directory output.reportName

def deliveredPaths (directory : String) (output : OutputSettings) : List String :=
  chartPath directory output :: if output.textReport then [reportPath directory output] else []

inductive Delivers (t : Tree) (directory : String) (output : OutputSettings) (chart : Chart Float)
    (summary : Summary) (now : Int) : Except Failure Summary → Tree → Prop where
  | noChart :
      t.write? (chartPath directory output) (.ofText (chart.render output.pretty)) now = none →
      Delivers t directory output chart summary now
        (.error (.chartNotWritten (chartPath directory output))) t
  | noReport {files : Tree} :
      t.write? (chartPath directory output) (.ofText (chart.render output.pretty)) now =
        some files →
      output.textReport →
      files.write? (reportPath directory output) (.ofText summary.report) now = none →
      Delivers t directory output chart summary now
        (.error (.reportNotWritten (reportPath directory output))) files
  | chartOnly {files : Tree} :
      t.write? (chartPath directory output) (.ofText (chart.render output.pretty)) now =
        some files →
      output.textReport = false →
      Delivers t directory output chart summary now (.ok summary) files
  | chartAndReport {between files : Tree} :
      t.write? (chartPath directory output) (.ofText (chart.render output.pretty)) now =
        some between →
      output.textReport →
      between.write? (reportPath directory output) (.ofText summary.report) now = some files →
      Delivers t directory output chart summary now (.ok summary) files

theorem delivers_deliver (t : Tree) (directory : String) (output : OutputSettings)
    (chart : Chart Float) (summary : Summary) (now : Int) :
    Delivers t directory output chart summary now
      (deliver t directory output chart summary now).result
      (deliver t directory output chart summary now).files := by
  unfold deliver writeChart writeReport
  dsimp only
  cases charted : t.write? (outputPath directory output.fileName)
    (.ofText (chart.render output.pretty)) now with
  | none => exact .noChart charted
  | some between =>
    cases asked : output.textReport with
    | false => exact .chartOnly charted asked
    | true =>
      dsimp only [Bool.not_true, Bool.false_eq_true, if_false]
      cases reported : between.write? (outputPath directory output.reportName)
        (.ofText summary.report) now with
      | none => exact .noReport charted asked reported
      | some files => exact .chartAndReport charted asked reported

theorem Delivers.sameBut (h : Delivers t directory output chart summary now result files) :
    t.SameBut (t.LeadsTo (deliveredPaths directory output)) files := by
  have charted {files : Tree}
      (written : t.write? (chartPath directory output) (.ofText (chart.render output.pretty)) now =
        some files) :
      t.SameBut (t.LeadsTo (deliveredPaths directory output)) files :=
    (Tree.sameBut_of_write? written).mono (Tree.LeadsTo.mono (by simp [deliveredPaths]))
  cases h with
  | noChart => exact .refl _ t
  | noReport written => exact charted written
  | chartOnly written => exact charted written
  | chartAndReport written asked reported =>
    refine (charted written).trans ((Tree.sameBut_of_write? reported).mono ?_)
    rw [(charted written).leadsTo]
    exact Tree.LeadsTo.mono (by simp [deliveredPaths, asked])

theorem Delivers.summary_eq {found : Summary}
    (h : Delivers t directory output chart summary now (.ok found) files) : found = summary := by
  cases h <;> rfl

/-- A delivery succeeds if and only if nothing stands in the way of its files. -/
theorem Delivers.result_eq_ok_iff (h : Delivers t directory output chart summary now result files) :
    result = .ok summary ↔ ∀ path ∈ deliveredPaths directory output, t.IsWritable path := by
  have both : (∀ path ∈ deliveredPaths directory output, t.IsWritable path) ↔
      t.IsWritable (chartPath directory output) ∧
        (output.textReport → t.IsWritable (reportPath directory output)) := by
    unfold deliveredPaths
    cases output.textReport <;> simp
  rw [both]
  cases h with
  | noChart failed =>
    refine iff_of_false nofun fun ⟨charted, _⟩ => ?_
    exact Tree.write?_ne_none charted _ _ failed
  | noReport written asked failed =>
    refine iff_of_false nofun fun ⟨_, reported⟩ => ?_
    have reported' := ((Tree.sameBut_of_write? written).isWritable _).mpr (reported asked)
    exact Tree.write?_ne_none reported' _ _ failed
  | chartOnly written silent =>
    refine iff_of_true rfl ⟨Tree.isWritable_of_write? written, fun asked => ?_⟩
    rw [silent] at asked
    cases asked
  | chartAndReport charted asked reported =>
    refine iff_of_true rfl ⟨Tree.isWritable_of_write? charted, fun _ => ?_⟩
    exact ((Tree.sameBut_of_write? charted).isWritable _).mp (Tree.isWritable_of_write? reported)

end Deliver

section Execute

variable {t files : Tree} {c : Command} {clock : Clock} {result : Except Failure Summary}

theorem analyse_eq_ok {events : List Event} {options : ChartOptions} {date : String}
    {chart : Chart Float} {summary : Summary}
    (h : analyse events options date = .ok (chart, summary)) :
    Chart.build Float events options = .ok chart ∧ Summary.of? date events chart options.width =
      some summary := by
  unfold analyse at h
  split at h
  · cases h
  · rename_i found built
    obtain ⟨rfl, rfl⟩ := Prod.mk.inj (Except.ok.inj h)
    exact ⟨built, (Option.some_get _).symm⟩

theorem analyse_eq_error {events : List Event} {options : ChartOptions} {date : String}
    {e : ChartError} (h : analyse events options date = .error e) :
    Chart.build Float events options = .error e := by
  unfold analyse at h
  split at h
  · rename_i failed
    rw [failed, Except.error.inj h]
  · cases h

structure Analysed (t : Tree) (c : Command) (clock : Clock) (config : Config)
    (options : ChartOptions) (events : List Event) (chart : Chart Float) (summary : Summary) :
    Prop where
  prepared : prepare t c = .ok (config, options)
  loaded : (loadLog t c.input config.cache clock.now).events = .ok events
  built : Chart.build Float events options = .ok chart
  summed : Summary.of? clock.date events chart options.width = some summary

inductive Ends (t : Tree) (c : Command) (clock : Clock) : Except Failure Summary → Tree → Prop where
  | unprepared {why : Failure} : prepare t c = .error why → Ends t c clock (.error why) t
  | unloaded {config : Config} {options : ChartOptions} {e : FileError} :
      prepare t c = .ok (config, options) →
      (loadLog t c.input config.cache clock.now).events = .error e →
      Ends t c clock (.error (.log e)) (loadLog t c.input config.cache clock.now).files
  | unanalysed {config : Config} {options : ChartOptions} {events : List Event} {e : ChartError} :
      prepare t c = .ok (config, options) →
      (loadLog t c.input config.cache clock.now).events = .ok events →
      Chart.build Float events options = .error e →
      Ends t c clock (.error (.analysis c.input e)) (loadLog t c.input config.cache clock.now).files
  | delivered {config : Config} {options : ChartOptions} {events : List Event} {chart : Chart Float}
      {summary : Summary}
      {result : Except Failure Summary} {files : Tree} :
      Analysed t c clock config options events chart summary →
      Delivers (loadLog t c.input config.cache clock.now).files c.output config.output chart summary
        clock.now result
        files →
      Ends t c clock result files

theorem ends_execute (t : Tree) (c : Command) (clock : Clock) :
    Ends t c clock (execute t c clock).result (execute t c clock).files := by
  unfold execute
  split
  · rename_i why failed
    exact .unprepared failed
  · rename_i config options prepared
    dsimp only
    split
    · rename_i e failed
      exact .unloaded prepared failed
    · rename_i events loaded
      unfold analyseAndDeliver
      split
      · rename_i e failed
        exact .unanalysed prepared loaded (analyse_eq_error failed)
      · rename_i chart summary analysed
        obtain ⟨built, summed⟩ := analyse_eq_ok analysed
        exact .delivered ⟨prepared, loaded, built, summed⟩ (delivers_deliver _ _ _ _ _ _)

/-- A run ends well if and only if its settings are accepted, its log can be loaded, the log has a
chart, and nothing stands in the way of the files to deliver. -/
theorem execute_isOk_iff (t : Tree) (c : Command) (clock : Clock) :
    (execute t c clock).result.isOk ↔
    ∃ config options events chart, prepare t c = .ok (config, options) ∧
      (loadLog t c.input config.cache clock.now).events = .ok events ∧
      Chart.build Float events options = .ok chart ∧
      ∀ path ∈ deliveredPaths c.output config.output, t.IsWritable path := by
  have ends := ends_execute t c clock
  generalize (execute t c clock).result = result at ends ⊢
  generalize (execute t c clock).files = files at ends
  cases ends with
  | unprepared failed =>
    refine iff_of_false nofun ?_
    rintro ⟨config, options, -, -, prepared, -⟩
    rw [failed] at prepared
    cases prepared
  | @unloaded config options e prepared failed =>
    refine iff_of_false nofun ?_
    rintro ⟨config', options', events, -, prepared', loaded, -⟩
    obtain ⟨rfl, rfl⟩ := Prod.mk.inj (Except.ok.inj (prepared.symm.trans prepared'))
    rw [failed] at loaded
    cases loaded
  | @unanalysed config options events e prepared loaded failed =>
    refine iff_of_false nofun ?_
    rintro ⟨config', options', events', chart, prepared', loaded', built, -⟩
    obtain ⟨rfl, rfl⟩ := Prod.mk.inj (Except.ok.inj (prepared.symm.trans prepared'))
    obtain rfl := Except.ok.inj (loaded.symm.trans loaded')
    rw [failed] at built
    cases built
  | @delivered config options events chart summary _ _ found delivers =>
    have writable (path : String) :=
      (sameBut_loadLog t c.input config.cache clock.now).isWritable path
    have ok_iff := delivers.result_eq_ok_iff
    simp only [writable] at ok_iff
    constructor
    · intro ok
      cases result with
      | error why => cases ok
      | ok summary' =>
        obtain rfl := delivers.summary_eq
        exact ⟨config, options, events, chart, found.prepared, found.loaded, found.built,
          ok_iff.mp rfl⟩
    · rintro ⟨config', options', events', chart', prepared', -, -, all⟩
      obtain ⟨rfl, rfl⟩ := Prod.mk.inj (Except.ok.inj (found.prepared.symm.trans prepared'))
      rw [ok_iff.mpr all]
      rfl

theorem commandLine_run (t : Tree) {words : List String}
    (parsed : Command.parse words = .ok (.run c)) (clock : Clock) :
    (commandLine t words clock).files = (execute t c clock).files ∧
      (commandLine t words clock).code = match (execute t c clock).result with
        | .ok _ => some 0
        | .error why => why.code := by
  unfold commandLine
  simp only [parsed]
  cases (execute t c clock).result <;> exact ⟨rfl, rfl⟩

end Execute

end InFlight.Run
