import InFlight.Proofs.Config.Output
import InFlight.Proofs.Files.Component
import InFlight.Proofs.Run.Ending
/-!
Where a chart and its report stand. With valid settings the chart is a child of the output directory
unless its name is that of the directory itself or of the parent; the report is another child of it
unless nothing but such a name is left of the chart's without its extension.
-/
namespace InFlight.Run

section Names

variable {config : Config} {o : OutputSettings}

theorem isPlain_fileName_iff (valid : o.check = .ok ()) :
    Path.IsPlain o.fileName.toList ↔ o.fileName ≠ "." ∧ o.fileName ≠ ".." := by
  obtain ⟨solid, ⟨slashless, -⟩, -⟩ := OutputSettings.check_eq_ok_iff.mp valid
  have some_text : o.fileName.toList ≠ [] := by
    intro empty
    rw [empty] at solid
    exact solid rfl
  rw [Path.isPlain_iff, ne_eq (o.fileName), ne_eq (o.fileName), ← String.toList_inj,
    ← String.toList_inj]
  exact ⟨fun ⟨_, _, here, parent⟩ => ⟨here, parent⟩, fun ⟨here, parent⟩ =>
    ⟨slashless, some_text, here, parent⟩⟩

def IsChild (directory path name : String) : Prop :=
  Path.IsName name.toList ∧ Path.components path.toList = Path.components directory.toList ++
    [.normal name.toList]

theorem isChild_outputPath_iff {name : String} (directory : String) :
    IsChild directory (outputPath directory name) name ↔ Path.IsPlain name.toList := by
  unfold IsChild
  rw [Path.isName_iff, and_iff_left_iff_imp]
  intro plain
  obtain ⟨slashless, -, here, -⟩ := Path.isPlain_iff.mp plain
  rw [outputPath, String.toList_ofList, Path.components_join slashless (Or.inr here),
    Path.component?_of_isPlain plain]
  rfl

theorem not_isPlain_parent : ¬ Path.IsPlain ['.', '.'] :=
  fun plain => absurd plain.noParent (by decide)

/-- A report has a name, and another one than its chart, unless the chart is named as the directory
or the parent is left of its name. -/
theorem isPlain_reportName_iff (valid : o.check = .ok ()) :
    Path.IsPlain o.reportName.toList ∧ o.reportName ≠ o.fileName ↔
    o.fileName ≠ "." ∧ ¬ Path.LeavesParent o.fileName.toList := by
  have renamed : o.reportName.toList = Path.withExtension o.fileName.toList
      OutputSettings.reportExtension :=
    String.toList_ofList
  by_cases plain : Path.IsPlain o.fileName.toList
  · have here := ((isPlain_fileName_iff valid).mp plain).1
    rcases plain.withExtension OutputSettings.reportExtension with ⟨named, kept⟩ | ⟨parent, leaves⟩
    · have report : Path.IsPlain o.reportName.toList := by
        apply Path.isPlain_of_two_lt_length (OutputSettings.slash_not_mem_reportName plain)
        rw [renamed, named, OutputSettings.reportExtension]
        simp only [List.length_append, List.length_cons]
        omega
      exact iff_of_true ⟨report, (OutputSettings.reportName_eq_and_ne valid plain report).2⟩
        ⟨here, kept⟩
    · rw [renamed, parent]
      exact iff_of_false (fun report => not_isPlain_parent report.1) fun other => other.2 leaves
  · have named := (isPlain_fileName_iff valid).not.mp plain
    by_cases here : o.fileName = "."
    · have report : o.reportName = o.fileName := by
        rw [← String.toList_inj, renamed, here]
        decide
      exact iff_of_false (fun other => other.2 report) fun other => other.1 here
    · have parent : o.fileName = ".." := by
        by_contra other
        exact named ⟨here, other⟩
      have leaves : Path.LeavesParent "..".toList := ⟨[], List.not_mem_nil, rfl⟩
      have report : o.reportName.toList = ['.', '.'] := by
        rw [renamed, parent]
        decide
      rw [report, parent]
      exact iff_of_false (fun report => not_isPlain_parent report.1) fun other => other.2 leaves

/-- With valid settings a chart is a child of its directory unless it is named as the directory or
the parent. Its report is a child of another name unless the chart is named as the directory, or
with two dots and a text without one. -/
theorem isChild_of_validate (valid : config.validate = .ok ()) (directory : String) :
    (IsChild directory (chartPath directory config.output) config.output.fileName ↔
      config.output.fileName ≠ "." ∧ config.output.fileName ≠ "..") ∧
    (IsChild directory (reportPath directory config.output) config.output.reportName ∧
        config.output.reportName ≠ config.output.fileName ↔
      config.output.fileName ≠ "." ∧ ¬ Path.LeavesParent config.output.fileName.toList) := by
  obtain ⟨-, -, checked⟩ := Config.validate_eq_ok_iff.mp valid
  unfold chartPath reportPath
  rw [isChild_outputPath_iff, isChild_outputPath_iff]
  exact ⟨isPlain_fileName_iff checked, isPlain_reportName_iff checked⟩

def named (fileName : String) : Config := { Config.standard with output := ⟨fileName, false, true⟩ }

/-- A name that is all extension to the eye has none. -/
theorem isChild_of_validate_hiddenText : (named ".txt").validate = .ok () ∧
    IsChild "out" (chartPath "out" (named ".txt").output) ".txt" ∧
    IsChild "out" (reportPath "out" (named ".txt").output) ".txt.txt" := by
  have valid : (named ".txt").validate = .ok () := by decide +kernel
  have kept : ¬ Path.LeavesParent ".txt".toList := by
    rintro ⟨old, -, split⟩
    cases split
  have report_name : (named ".txt").output.reportName = ".txt.txt" := by decide +kernel
  obtain ⟨chart, report⟩ := isChild_of_validate valid "out"
  rw [report_name] at report
  exact ⟨valid, chart.mpr (by decide), (report.mpr ⟨by decide, kept⟩).1⟩

/-- The parent and the directory are accepted as names of a chart, and a name of which the parent is
left as that of its report. -/
theorem not_isChild_of_validate :
    ((named "..").validate = .ok () ∧ ¬ IsChild "out" (chartPath "out" (named "..").output) ".." ∧
      Path.components (chartPath "out" (named "..").output).toList =
        Path.components "out".toList ++ [.parent]) ∧
    ((named ".").validate = .ok () ∧ ¬ IsChild "out" (chartPath "out" (named ".").output) "." ∧
      Path.components (chartPath "out" (named ".").output).toList = Path.components "out".toList) ∧
    ((named "..log").validate = .ok () ∧ (named "..log").output.reportName = "..") := by
  unfold IsChild
  decide +kernel

end Names

end InFlight.Run
