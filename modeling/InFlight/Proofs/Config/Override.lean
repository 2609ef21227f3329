import InFlight.Config.Override
import Mathlib.Data.List.Basic
/-!
Overrides one after another. Two of them do what a single one does, in which the sizing is the later
one's if that has any, the rate likewise, and a flag is set if it is in either. A sequence of any
length so comes to one override, and what one override keeps of the settings all of them keep.
-/
namespace InFlight

namespace Sizing

def HasBoth (s : Sizing) : Prop := s.width.isSome ∧ s.divisions.isSome

def HasOne (s : Sizing) : Prop := s.width.isSome ≠ s.divisions.isSome

instance (s : Sizing) : Decidable s.HasBoth := inferInstanceAs (Decidable (_ ∧ _))

instance (s : Sizing) : Decidable s.HasOne := inferInstanceAs (Decidable (_ ≠ _))

theorem HasOne.not_hasBoth {s : Sizing} (h : s.HasOne) : ¬ s.HasBoth :=
  fun both => h (both.1.trans both.2.symm)

end Sizing

namespace Override

variable {o p : Override} {c : Config}

def setsSizing (o : Override) : Bool := o.width.isSome || o.divisions.isSome

def setsRate (o : Override) : Bool := o.bytesPerSecond.isSome || o.perEventRate

def andThen (o p : Override) : Override where
  width := if p.setsSizing then p.width else o.width
  divisions := if p.setsSizing then p.divisions else o.divisions
  bytesPerSecond := if p.setsRate then p.bytesPerSecond else o.bytesPerSecond
  perEventRate := if p.setsRate then p.perEventRate else o.perEventRate
  pretty := o.pretty || p.pretty
  cache := o.cache || p.cache
  noTextReport := o.noTextReport || p.noTextReport

section Composition

theorem setsSizing_andThen (o p : Override) :
    (o.andThen p).setsSizing = (o.setsSizing || p.setsSizing) := by
  unfold andThen
  cases sets : p.setsSizing with
  | true =>
    simp only [if_true, Bool.or_true]
    exact sets
  | false =>
    simp only [Bool.false_eq_true, if_false, Bool.or_false]
    rfl

theorem andThen_self (o : Override) : o.andThen o = o := by
  simp [andThen]

theorem sizing_of_not_sets (h : o.setsSizing = false) (s : Sizing) : o.sizing s = s := by
  obtain ⟨width, divisions⟩ : o.width = .none ∧ o.divisions = .none := by simpa [setsSizing] using h
  simp [sizing, width, divisions]

/-- An override with a sizing has one of its own, whatever stood before it. -/
theorem hasOne_sizing (h : o.setsSizing) (s : Sizing) : (o.sizing s).HasOne := by
  unfold sizing Sizing.HasOne
  cases divisions : o.divisions with
  | some n => simp
  | none =>
    cases width : o.width with
    | some d => simp
    | none => simp [setsSizing, width, divisions] at h

theorem sizing_eq_of_sets (h : o.setsSizing) (s s' : Sizing) : o.sizing s = o.sizing s' := by
  unfold sizing
  cases divisions : o.divisions with
  | some n => rfl
  | none =>
    cases width : o.width with
    | some d => rfl
    | none => simp [setsSizing, width, divisions] at h

theorem rateSource_of_not_sets (h : o.setsRate = false) (r : RateSource) : o.rateSource r = r := by
  obtain ⟨rate, perEvent⟩ : o.bytesPerSecond = .none ∧ o.perEventRate = false := by
    simpa [setsRate] using h
  simp [rateSource, rate, perEvent]

theorem rateSource_eq_of_sets (h : o.setsRate) (r r' : RateSource) :
    o.rateSource r = o.rateSource r' := by
  unfold rateSource
  cases rate : o.bytesPerSecond with
  | some n => rfl
  | none =>
    have perEvent : o.perEventRate = true := by simpa [setsRate, rate] using h
    simp [perEvent]

theorem sizing_andThen (o p : Override) (s : Sizing) :
    (o.andThen p).sizing s = p.sizing (o.sizing s) := by
  cases sets : p.setsSizing with
  | true =>
    have same : (o.andThen p).sizing s = p.sizing s := by simp [sizing, andThen, sets]
    rw [same]
    exact sizing_eq_of_sets sets s (o.sizing s)
  | false =>
    rw [sizing_of_not_sets sets]
    simp [sizing, andThen, sets]

theorem rateSource_andThen (o p : Override) (r : RateSource) :
    (o.andThen p).rateSource r = p.rateSource (o.rateSource r) := by
  cases sets : p.setsRate with
  | true =>
    have same : (o.andThen p).rateSource r = p.rateSource r := by simp [rateSource, andThen, sets]
    rw [same]
    exact rateSource_eq_of_sets sets r (o.rateSource r)
  | false =>
    rw [rateSource_of_not_sets sets]
    simp [rateSource, andThen, sets]

theorem outputSettings_andThen (o p : Override) (s : OutputSettings) :
    (o.andThen p).outputSettings s = p.outputSettings (o.outputSettings s) := by
  simp [outputSettings, andThen, Bool.or_assoc, Bool.and_assoc]

theorem apply_andThen (o p : Override) (c : Config) :
    (o.andThen p).apply c = p.apply (o.apply c) := by
  simp only [apply, sizing_andThen, rateSource_andThen, outputSettings_andThen,
    Config.mk.injEq, true_and]
  simp [andThen, Bool.or_assoc]

theorem none_apply (c : Config) : none.apply c = c := by
  simp [apply, none, sizing, rateSource, outputSettings]

end Composition

section Sequence

structure Keeps (c c' : Config) : Prop where
  fileName : c'.output.fileName = c.output.fileName
  pretty : c.output.pretty → c'.output.pretty
  cache : c.cache → c'.cache
  textReport : c'.output.textReport → c.output.textReport
  sizing : ¬ c.window.HasBoth → ¬ c'.window.HasBoth

theorem keeps_apply (o : Override) (c : Config) : Keeps c (o.apply c) where
  fileName := rfl
  pretty before := by simp [apply, outputSettings, before]
  cache before := by simp [apply, before]
  textReport after := by
    have both : c.output.textReport && !o.noTextReport := after
    exact (Bool.and_eq_true_iff.mp both).1
  sizing before := by
    cases sets : o.setsSizing with
    | true => exact (hasOne_sizing sets c.window).not_hasBoth
    | false =>
      have same : (o.apply c).window = c.window := sizing_of_not_sets sets c.window
      rwa [same]

/-- The settings after overrides that are enforced one by one, whether valid or not on the way. -/
def run (c : Config) (os : List Override) : Config := os.foldl (fun c o => (o.enforce c).2) c

def combined (os : List Override) : Override := os.foldr andThen none

theorem run_append (c : Config) (os os' : List Override) : run c (os ++ os') = run (run c os) os' :=
  List.foldl_append

theorem run_eq_apply (c : Config) (os : List Override) : run c os = (combined os).apply c := by
  induction os generalizing c with
  | nil => exact (none_apply c).symm
  | cons o os ih =>
    calc run c (o :: os) = run (o.apply c) os := rfl
      _ = (combined os).apply (o.apply c) := ih (o.apply c)
      _ = (combined (o :: os)).apply c := (apply_andThen o (combined os) c).symm

theorem setsSizing_combined (os : List Override) :
    (combined os).setsSizing = os.any setsSizing := by
  induction os with
  | nil => rfl
  | cons o os ih =>
    have step : combined (o :: os) = o.andThen (combined os) := rfl
    rw [step, setsSizing_andThen, ih, List.any_cons]

theorem keeps_run (c : Config) (os : List Override) : Keeps c (run c os) := by
  rw [run_eq_apply]
  exact keeps_apply (combined os) c

theorem hasOne_run (c : Config) {os : List Override} (sets : ∃ o ∈ os, o.setsSizing) :
    (run c os).window.HasOne := by
  rw [run_eq_apply]
  exact hasOne_sizing ((setsSizing_combined os).trans (List.any_eq_true.mpr sets)) c.window

end Sequence

/-- Overrides act on settings from the right: two come to one, the same twice to the same once. One
succeeds just when the settings it leaves are valid. A sequence of them, from any of its states to
any later one, takes nothing back, has no sizing of both kinds unless it began with such a one, and
one of exactly one kind as soon as an override in it has any. -/
theorem enforce_is_right_action :
    (∀ (c : Config) (o p : Override), (p.enforce (o.enforce c).2).2 = ((o.andThen p).enforce c).2) ∧
    (∀ (c : Config) (o : Override), (o.enforce (o.enforce c).2).2 = (o.enforce c).2) ∧
    (∀ (c : Config) (o : Override), (o.enforce c).1 = .ok () ↔ (o.enforce c).2.validate = .ok ()) ∧
    (∀ (c : Config) (os os' : List Override), Keeps (run c os) (run c (os ++ os'))) ∧
    (∀ (c : Config) (os : List Override), ¬ c.window.HasBoth → ¬ (run c os).window.HasBoth) ∧
    ∀ (c : Config) (os : List Override), (∃ o ∈ os, o.setsSizing) → (run c os).window.HasOne := by
  refine ⟨fun c o p => (apply_andThen o p c).symm, fun c o => ?_, fun c o =>
    Iff.rfl, fun c os os' => ?_,
    fun c os => (keeps_run c os).sizing, fun c os => hasOne_run c⟩
  · calc (o.enforce (o.enforce c).2).2 = (o.andThen o).apply c := (apply_andThen o o c).symm
      _ = (o.enforce c).2 := by rw [andThen_self]; rfl
  · rw [run_append]
    exact keeps_run (run c os) os'

/-- A sizing that is refused does not stay when the next override has one. -/
theorem enforce_after_refusal :
    let refused : Override :=
  { none with divisions := some 0, perEventRate := true, pretty := true }
    let next : Override := { none with width := some 20000000, bytesPerSecond := some 8000 }
    (refused.enforce Config.standard).1 = .error (.window .zeroDivisions) ∧
      (next.enforce (refused.enforce Config.standard).2).1 = .ok () ∧
      (next.enforce (refused.enforce Config.standard).2).2 =
        ((refused.andThen next).enforce Config.standard).2 ∧
      (refused.enforce (refused.enforce Config.standard).2).2 =
        (refused.enforce Config.standard).2 ∧
      Keeps (run Config.standard [refused]) (run Config.standard ([refused] ++ [next])) ∧
      ¬ (run Config.standard [refused, next]).window.HasBoth ∧
        (run Config.standard [refused, next]).window.HasOne := by
  intro refused next
  obtain ⟨composes, repeats, succeeds, keeps, notBoth, one⟩ := enforce_is_right_action
  refine ⟨by decide, (succeeds _ next).mpr (by decide +kernel), composes _ refused next,
    repeats _ refused, keeps _ [refused] [next], notBoth _ [refused, next] (by decide),
    one _ [refused, next] ⟨refused, ?_, by decide⟩⟩
  exact List.mem_cons_self

end Override

end InFlight
