import InFlight.Proofs.Run.Delivery
/-!
What a run does to its own log. The cache never takes its place. Nothing keeps a chart or a report
from it: where their paths lead to the log, the log is lost.
-/
namespace InFlight.Run

section Kept

variable {t files : Tree} {directory : String} {output : OutputSettings} {chart : Chart Float}
  {summary : Summary}
  {now : Int} {result : Except Failure Summary}

theorem content?_loadLog (t : Tree) (path : String) (cached : Bool) (now : Int) :
    (loadLog t path cached now).files.content? path = t.content? path := by
  cases cached with
  | false => rfl
  | true =>
    rcases Cache.files_load t path now with same | ⟨events, -, written⟩
    · change (Cache.load t path now).files.content? path = _
      rw [same]
    · change (Cache.load t path now).files.content? path = _
      obtain ⟨p, here, file, put⟩ := Tree.write?_eq_some_iff.mp written
      rw [put]
      exact Cache.content?_log_of_changedAt here (Tree.changedAt_put file _ now)

inductive Overwritten (t : Tree) (directory : String) (output : OutputSettings)
    (chart : Chart Float) (summary : Summary) (path : String) : Option Content → Prop where
  | byChart : t.place? (chartPath directory output) = t.place? path →
      Overwritten t directory output chart summary path
      (some (.ofText (chart.render output.pretty)))
  | byReport : output.textReport → t.place? (reportPath directory output) = t.place? path →
      Overwritten t directory output chart summary path (some (.ofText summary.report))

/-- What changes before the delivery is no matter. -/
theorem Overwritten.before {t' : Tree} {places : Place → Prop} {path : String}
    {shown : Option Content} (same : t.SameBut places t')
    (lost : Overwritten t' directory output chart summary path shown) :
    Overwritten t directory output chart summary path shown := by
  cases lost with
  | byChart shared =>
    rw [same.place?, same.place?] at shared
    exact .byChart shared
  | byReport asked shared =>
    rw [same.place?, same.place?] at shared
    exact .byReport asked shared

theorem Delivers.content? (h : Delivers t directory output chart summary now result files)
    (path : String) :
    files.content? path = t.content? path ∨
      Overwritten t directory output chart summary path (files.content? path) := by
  have charted {between : Tree}
      (written : t.write? (chartPath directory output) (.ofText (chart.render output.pretty)) now =
        some between) :
      between.content? path = t.content? path ∨
        Overwritten t directory output chart summary path (between.content? path) := by
    rcases Tree.content?_eq_or_of_write? written path with kept | ⟨shared, shown⟩
    · exact Or.inl kept
    · right
      rw [shown]
      exact .byChart shared
  cases h with
  | noChart => exact Or.inl rfl
  | noReport written => exact charted written
  | chartOnly written => exact charted written
  | chartAndReport written asked reported =>
    rcases Tree.content?_eq_or_of_write? reported path with kept | ⟨shared, shown⟩
    · rw [kept]
      exact charted written
    · right
      rw [shown]
      exact .before (Tree.sameBut_of_write? written) (.byReport asked shared)

end Kept

section Execute

variable {t files : Tree} {c : Command} {clock : Clock} {result : Except Failure Summary}

theorem Ends.content?_input (h : Ends t c clock result files) :
    files.content? c.input = t.content? c.input ∨
    ∃ config options events chart summary, Analysed t c clock config options events chart summary ∧
      Overwritten t c.output config.output chart summary c.input (files.content? c.input) := by
  cases h with
  | unprepared => exact Or.inl rfl
  | unloaded => exact Or.inl (content?_loadLog _ _ _ _)
  | unanalysed => exact Or.inl (content?_loadLog _ _ _ _)
  | @delivered config options events chart summary _ _ found delivers =>
    rcases delivers.content? c.input with kept | lost
    · left
      rw [kept, content?_loadLog]
    · right
      exact ⟨config, options, events, chart, summary, found,
        lost.before (sameBut_loadLog t c.input config.cache clock.now)⟩

/-- After a run its log shows what it showed before, or the chart or the report that was sent to its
place. -/
theorem content?_input_commandLine (t : Tree) {words : List String}
    (parsed : Command.parse words = .ok (.run c)) (clock : Clock) :
    (commandLine t words clock).files.content? c.input = t.content? c.input ∨
      ∃ config options events chart summary,
        Analysed t c clock config options events chart summary ∧
        Overwritten t c.output config.output chart summary c.input
          ((commandLine t words clock).files.content? c.input) := by
  rw [(commandLine_run t parsed clock).1]
  exact (ends_execute t c clock).content?_input

def insideOutput : Tree where
  entries :=
    [(["out"], .directory 0),
      (["out", "log"], .file (.ofText (Json.compact (Event.listToJson oneTransfer))) 0)]
  current := []

theorem content?_input_commandLine_insideOutput :
    Command.parse ["-i", "out/log", "-o", "out", "--cache"] =
      .ok (.run { cachedRun with input := "out/log" }) ∧
      (commandLine insideOutput ["-i", "out/log", "-o", "out", "--cache"]
        ⟨1, "now"⟩).files.content? "out/log" = insideOutput.content? "out/log" := by
  have parsed : Command.parse ["-i", "out/log", "-o", "out", "--cache"] =
      .ok (.run { cachedRun with input := "out/log" }) := by cbv
  refine ⟨parsed, ?_⟩
  rcases content?_input_commandLine insideOutput parsed ⟨1, "now"⟩ with
    kept | ⟨config, _, _, _, _, found, lost⟩
  · exact kept
  · have standard : settings insideOutput { cachedRun with input := "out/log" } =
        .ok { Config.standard with cache := true } := by decide +kernel
    obtain ⟨-, -, set, -⟩ := prepare_eq_ok_iff.mp found.prepared
    obtain rfl := Except.ok.inj (standard.symm.trans set)
    have apart : ∀ path ∈ deliveredPaths "out" OutputSettings.standard,
        insideOutput.place? path ≠ insideOutput.place? "out/log" := by decide +kernel
    exfalso
    generalize (commandLine _ _ _).files.content? _ = shown at lost
    cases lost with
    | byChart shared => exact apart _ List.mem_cons_self shared
    | byReport _ shared => exact apart _ (List.mem_cons_of_mem _ List.mem_cons_self) shared

/-- A log in the output directory, under the name that the settings give to the chart. -/
def underChartName : Tree where
  entries := [(["out"], .directory 0),
    (["out", "network.zst"], .file (.ofText (Json.compact (Event.listToJson Config.instantLog))) 0),
    (["a.yaml"], .file (.ofText "output:\n  file_name: network.zst\n  text_report: false\n") 0)]
  current := []

def namingRun : Command := ⟨"out/network.zst", "out", some "a.yaml", Override.none, "info", 0⟩

theorem input_lost_to_chart :
    Command.parse ["-i", "out/network.zst", "-o", "out", "-c", "a.yaml"] = .ok (.run namingRun) ∧
      underChartName.isFile namingRun.input ∧ (settings underChartName namingRun).isOk ∧
      (commandLine underChartName ["-i", "out/network.zst", "-o", "out", "-c", "a.yaml"]
        ⟨1, "now"⟩).code = some 0 ∧
      (commandLine underChartName ["-i", "out/network.zst", "-o", "out", "-c", "a.yaml"]
        ⟨1, "now"⟩).files.content?
        namingRun.input ≠ underChartName.content? namingRun.input := by
  have parsed : Command.parse ["-i", "out/network.zst", "-o", "out", "-c", "a.yaml"] =
      .ok (.run namingRun) := by cbv
  have here : underChartName.isFile namingRun.input := by decide +kernel
  have set : settings underChartName namingRun =
      .ok { Config.standard with output := ⟨"network.zst", false, false⟩ } := by decide +kernel
  have prepared : prepare underChartName namingRun =
      .ok ({ Config.standard with output := ⟨"network.zst", false, false⟩ },
        ChartOptions.standard) :=
    prepare_eq_ok_iff.mpr ⟨here, by decide +kernel, set, rfl⟩
  have writable : ∀ e ∈ Config.instantLog, e.IsWritable := by
    intro e among
    obtain rfl := List.mem_singleton.mp among
    have moment : Instant.IsPlain (.ofNanos 5) := by decide
    exact ⟨by decide, Timestamp.isNameable_of_isPlain moment,
      Timestamp.isNameable_of_isPlain moment, by decide,
      by decide, by decide⟩
  have loaded : (loadLog underChartName "out/network.zst" false 1).events =
      .ok Config.instantLog := by
    have written : Log.load underChartName "out/network.zst" = .ok Config.instantLog :=
      load_of_written writable (by decide +kernel)
    rw [loadLog, if_neg Bool.false_ne_true, written]
  have built : Chart.build Float Config.instantLog ChartOptions.standard =
      .ok ⟨[], NameSet.ofList ["block"], NameMap.ofList [("block", [])], [], [], []⟩ := by cbv
  have completes : (execute underChartName namingRun ⟨1, "now"⟩).result.isOk := by
    refine (execute_isOk_iff _ _ _).mpr ⟨_, _, _, _, prepared, loaded, built, ?_⟩
    intro path among
    have only : deliveredPaths "out" ⟨"network.zst", false, false⟩ = ["out/network.zst"] := by
      decide +kernel
    obtain rfl := List.mem_singleton.mp (only ▸ among)
    exact ⟨["out", "network.zst"], by decide +kernel, by decide +kernel⟩
  obtain ⟨same_files, code⟩ := commandLine_run underChartName parsed ⟨1, "now"⟩
  have ends_well :
      (commandLine underChartName ["-i", "out/network.zst", "-o", "out", "-c", "a.yaml"]
      ⟨1, "now"⟩).code = some 0 := by
    cases result : (execute underChartName namingRun ⟨1, "now"⟩).result with
    | ok summary => rw [code, result]
    | error why =>
      rw [result] at completes
      cases completes
  refine ⟨parsed, here, by rw [set]; rfl, ends_well, ?_⟩
  rw [same_files]
  have ends := ends_execute underChartName namingRun ⟨1, "now"⟩
  generalize (execute underChartName namingRun ⟨1, "now"⟩).files = files at ends ⊢
  generalize (execute underChartName namingRun ⟨1, "now"⟩).result = result at completes ends
  cases result with
  | error why => cases completes
  | ok summary =>
    obtain ⟨config, options, events, chart, found, delivered⟩ :=
      ends.delivered_of_ok (Tree.isNested_of_entries (by decide +kernel))
    obtain ⟨rfl, rfl⟩ := Prod.mk.inj (Except.ok.inj (prepared.symm.trans found.prepared))
    obtain rfl := Except.ok.inj (loaded.symm.trans found.loaded)
    obtain rfl := Except.ok.inj (built.symm.trans found.built)
    have same_path : chartPath "out" ⟨"network.zst", false, false⟩ = "out/network.zst" := by
      decide +kernel
    have shown : files.content? "out/network.zst" = _ := same_path ▸ delivered.chart
    change files.content? "out/network.zst" ≠ _
    rw [shown]
    decide +kernel

end Execute

end InFlight.Run
