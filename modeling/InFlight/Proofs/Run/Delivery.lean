import InFlight.Proofs.Config.Output
import InFlight.Proofs.Run.Ending
/-!
What a run leaves behind. One that fails before it delivers changes no file but the cache of its
log; one that ends well leaves its chart, and beside it the report it was asked for, and changes
nothing else.
-/
namespace InFlight.Run

section Report

variable {t between files : Tree} {directory : String} {output : OutputSettings} {now : Int}

structure ReportApart (t : Tree) (directory : String) (output : OutputSettings) : Prop where
  named : output.reportName.toList = Path.stem output.fileName.toList ++ ['.', 't', 'x', 't']
  apart : t.place? (reportPath directory output) ≠ t.place? (chartPath directory output)

/-- Where both can be written, neither name is that of the directory or of its parent. -/
theorem reportApart_of_written {content content' : Content} (nested : t.IsNested)
    (valid : output.check = .ok ()) (there : t.isDirectory directory)
    (charted : t.write? (chartPath directory output) content now = some between)
    (reported : between.write? (reportPath directory output) content' now = some files) :
    ReportApart t directory output := by
  have same := Tree.sameBut_of_write? charted
  obtain ⟨p, here, folder⟩ := (Option.any_eq_true _ _).mp there
  have here' : between.place? directory = some p := by rw [same.place?, here]
  have folder' : between.isDirectoryAt p := by rw [same.isDirectoryAt, folder]
  obtain ⟨-, ⟨slashless, -⟩, -⟩ := OutputSettings.check_eq_ok_iff.mp valid
  obtain ⟨plain, chart_place⟩ := Tree.place?_join_of_write? nested slashless here folder charted
  obtain ⟨plain', report_place⟩ := Tree.place?_join_of_write? (same.isNested nested)
    (OutputSettings.slash_not_mem_reportName plain) here' folder' reported
  obtain ⟨named, other⟩ := OutputSettings.reportName_eq_and_ne valid plain plain'
  refine ⟨named, fun same_place => ?_⟩
  rw [same.place?] at report_place
  unfold reportPath chartPath outputPath at same_place
  rw [report_place, chart_place] at same_place
  apply other
  simpa using same_place

end Report

section Delivered

variable {t t' files : Tree} {c : Command} {config : Config} {chart : Chart Float}
  {summary : Summary} {now : Int}

structure Delivered (t : Tree) (c : Command) (config : Config) (chart : Chart Float)
    (summary : Summary) (files : Tree) : Prop where
  chart : files.content? (chartPath c.output config.output) =
    some (.ofText (chart.render config.output.pretty))
  report : config.output.textReport → ReportApart t c.output config.output ∧
    files.content? (reportPath c.output config.output) = some (.ofText summary.report)
  elsewhere :
    t.SameBut
      (t.LeadsTo (cachePaths c.input config.cache ++ deliveredPaths c.output config.output)) files

/-- Nothing of a delivery is lost, whatever loading the log has changed before it. -/
theorem delivered_of_delivers (loaded : t.SameBut (t.LeadsTo (cachePaths c.input config.cache)) t')
    (nested : t.IsNested) (there : t.isDirectory c.output) (valid : config.output.check = .ok ())
    (h : Delivers t' c.output config.output chart summary now (.ok summary) files) :
    Delivered t c config chart summary files := by
  have elsewhere :
      t.SameBut
        (t.LeadsTo (cachePaths c.input config.cache ++ deliveredPaths c.output config.output))
        files := by
    have delivered := h.sameBut
    rw [loaded.leadsTo] at delivered
    apply Tree.SameBut.trans
    · exact loaded.mono (Tree.LeadsTo.mono (List.subset_append_left _ _))
    · exact delivered.mono (Tree.LeadsTo.mono (List.subset_append_right _ _))
  cases h with
  | chartOnly charted silent =>
    refine ⟨Tree.content?_of_write? charted, fun asked => ?_, elsewhere⟩
    rw [silent] at asked
    cases asked
  | @chartAndReport between _ charted asked reported =>
    have there' : t'.isDirectory c.output := by rw [loaded.isDirectory, there]
    have beside := reportApart_of_written (loaded.isNested nested) valid there' charted reported
    refine ⟨?_, fun _ => ⟨⟨beside.named, ?_⟩, Tree.content?_of_write? reported⟩, elsewhere⟩
    · rw [(Tree.sameBut_of_write? reported).content?, Tree.content?_of_write? charted]
      rintro q chart_place ⟨path, among, report_place⟩
      obtain rfl := List.mem_singleton.mp among
      have between_same := Tree.sameBut_of_write? charted
      rw [between_same.place?] at chart_place report_place
      exact beside.apart (report_place.trans chart_place.symm)
    · have apart := beside.apart
      rwa [loaded.place?, loaded.place?] at apart

end Delivered

section Execute

variable {t files : Tree} {c : Command} {clock : Clock}

theorem Ends.delivered_of_ok {summary : Summary} (nested : t.IsNested)
    (h : Ends t c clock (.ok summary) files) :
    ∃ config options events chart, Analysed t c clock config options events chart summary ∧
      Delivered t c config chart summary files := by
  cases h with
  | @delivered config options events chart _ _ _ found delivers =>
    obtain rfl := delivers.summary_eq
    obtain ⟨-, there, set, -⟩ := prepare_eq_ok_iff.mp found.prepared
    obtain ⟨-, -, valid⟩ := Config.validate_eq_ok_iff.mp (validate_of_settings set)
    refine ⟨config, options, events, chart, found, ?_⟩
    exact delivered_of_delivers (sameBut_loadLog t c.input config.cache clock.now) nested there
      valid delivers

def oneTransfer : List Event :=
  [⟨"org", "peer", "block", 10, .ofNanos 0, .ofNanos 120000000, 5, 0, 1⟩]

def cachedRun : Command := ⟨"log", "out", none, { Override.none with cache := true }, "info", 0⟩

end Execute

end InFlight.Run
