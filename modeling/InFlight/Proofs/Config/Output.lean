import InFlight.Config
import InFlight.Proofs.Files.Extension
/-!
Chart and report are files of two names: the report has the name of the chart with another
extension, or no file at all can be written under its name.
-/
namespace InFlight.OutputSettings

variable {o : OutputSettings}

theorem check_eq_ok_iff : o.check = .ok () ↔ Text.trim o.fileName.toList ≠ [] ∧
    ('/' ∉ o.fileName.toList ∧ '\\' ∉ o.fileName.toList) ∧
      (Path.extension? o.fileName.toList).any (·.map Char.toLower == reportExtension) = false := by
  unfold check
  dsimp only
  split
  · simp_all
  · split
    · rename_i slash
      simp only [reduceCtorEq, false_iff, not_and]
      rintro - ⟨no_slash, no_backslash⟩
      rcases slash with slash | slash
      · exact absurd slash no_slash
      · exact absurd slash no_backslash
    · split <;> simp_all

/-- The extension of a valid name is not that of a report. -/
theorem extension?_ne_of_check (valid : o.check = .ok ()) :
    Path.extension? o.fileName.toList ≠ some reportExtension := by
  obtain ⟨-, -, other⟩ := check_eq_ok_iff.mp valid
  intro same
  rw [same] at other
  revert other
  decide

theorem reportName_eq_or (plain : Path.IsPlain o.fileName.toList) :
    o.reportName.toList = Path.stem o.fileName.toList ++ '.' :: reportExtension ∨
    o.reportName.toList = ['.', '.'] := by
  unfold reportName
  rw [String.toList_ofList]
  exact (plain.withExtension reportExtension).imp And.left And.left

theorem slash_not_mem_reportName (plain : Path.IsPlain o.fileName.toList) :
    '/' ∉ o.reportName.toList := by
  rcases reportName_eq_or plain with named | parent
  · rw [named]
    have before : '/' ∉ Path.stem o.fileName.toList := fun slash =>
      plain.slashless ((Path.stem_prefix o.fileName.toList).subset slash)
    simp [before, reportExtension]
  · simp [parent]

/-- A report that can be written is named for the chart, and not like it. -/
theorem reportName_eq_and_ne (valid : o.check = .ok ()) (plain : Path.IsPlain o.fileName.toList)
    (report : Path.IsPlain o.reportName.toList) :
    o.reportName.toList = Path.stem o.fileName.toList ++ '.' :: reportExtension ∧
    o.reportName ≠ o.fileName := by
  rcases reportName_eq_or plain with named | parent
  · refine ⟨named, fun same => ?_⟩
    refine Path.stem_append_ne plain (by decide) (extension?_ne_of_check valid) ?_
    rw [← named, same]
  · have noParent := report.noParent
    rw [parent] at noParent
    cases noParent

end InFlight.OutputSettings
