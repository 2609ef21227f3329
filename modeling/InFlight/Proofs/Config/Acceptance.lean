import InFlight.Config
import InFlight.Proofs.Chart.Refusal
/-!
Valid settings and the charts built with them. What makes settings valid is what makes a chart
possible, save for a number of divisions above the most: settings with such a number are valid, and
every chart with them is refused.
-/
namespace InFlight

section Sizing

variable {s : Sizing} {w : Width} {why : WidthError}

/-- A valid width is never refused, and a valid number of divisions only for being too many. -/
theorem Sizing.refused_iff (h : s.toWidth = .ok w) :
    w.Refused why ↔ ∃ n, s.divisions = some n ∧ Width.mostDivisions < n ∧
      why = .tooManyDivisions n := by
  obtain ⟨width, divisions⟩ := s
  cases width with
  | none =>
    cases divisions with
    | none =>
      obtain rfl : Width.standard = w := Except.ok.inj h
      refine iff_of_false ?_ (by simp)
      intro refused
      cases refused with
      | notPositive low => exact absurd low (by decide)
    | some n =>
      by_cases zero : n = 0
      · simp [toWidth, zero] at h
      · simp only [toWidth, if_neg zero, Except.ok.injEq] at h
        subst h
        constructor
        · intro refused
          cases refused with
          | noDivisions => exact absurd rfl zero
          | tooManyDivisions many => exact ⟨n, rfl, many, rfl⟩
        · rintro ⟨m, same, many, rfl⟩
          obtain rfl := Option.some.inj same
          exact .tooManyDivisions many
  | some d =>
    cases divisions with
    | some n => simp [toWidth] at h
    | none =>
      by_cases zero : d = 0
      · simp [toWidth, zero] at h
      · by_cases short : (d : Int) ≤ Span.longest
        · simp only [toWidth, if_neg zero, Duration.toSpan?, if_pos short, Except.ok.injEq] at h
          subst h
          refine iff_of_false ?_ (by simp)
          intro refused
          cases refused with
          | notPositive low => omega
        · simp [toWidth, zero, Duration.toSpan?, short] at h

end Sizing

/-- A valid rate is positive in a signed word, so only the rates of the log can be bad. -/
theorem RateSource.exists_bad_event {source : RateSource} {events : List Event} {e : RateError}
    (valid : source.check = .ok ()) (refused : source.toPolicy.Refused events e) :
    (source.toPolicy = .firstEvent ∨ source.toPolicy = .perEvent) ∧
      ∃ d ∈ events, d.localRate ≤ 0 ∧ e.rate = d.localRate := by
  cases source with
  | firstEvent =>
    cases refused with
    | @firstEvent d rest split low => exact ⟨Or.inl rfl, d, by simp [split], low, rfl⟩
  | perEvent =>
    cases refused with
    | @perEvent before after d split high low => exact ⟨Or.inr rfl, d, by simp [split], low, rfl⟩
  | fixed n =>
    exfalso
    by_cases zero : n = 0
    · simp [check, zero] at valid
    · cases refused with
      | fixed low =>
        simp only [most, Word.most64] at low
        omega

namespace Config

variable {config : Config}

theorem validate_eq_ok_iff : config.validate = .ok () ↔
    (∃ w, config.window.toWidth = .ok w) ∧ config.rate.check = .ok () ∧
    config.output.check = .ok () := by
  unfold validate width
  cases config.window.toWidth <;> cases config.rate.check <;> cases config.output.check <;>
    simp [bind, Except.bind]

theorem options_of_toWidth {w : Width} (h : config.window.toWidth = .ok w) :
    config.options = .ok ⟨w, config.rate.toPolicy⟩ := by
  simp [options, width, h, bind, Except.bind, pure, Except.pure]

/-- Valid settings have options. A chart with them is refused for its width exactly when they ask
for too many divisions, and for a rate only when the rates come from the log and one of them is not
positive. -/
theorem build_of_validate {α : Type} [Arithmetic α] {events : List Event}
    (valid : config.validate = .ok ()) (some_event : events ≠ []) :
    ∃ options, config.options = .ok options ∧
      (∀ why, Chart.build α events options = .error (.width why) ↔
        (∀ e, ¬ options.rate.Refused events e) ∧
          ∃ n, config.window.divisions = some n ∧ Width.mostDivisions < n ∧
            why = .tooManyDivisions n) ∧
      ∀ e, Chart.build α events options = .error (.rate e) →
        (options.rate = .firstEvent ∨ options.rate = .perEvent) ∧
          ∃ d ∈ events, d.localRate ≤ 0 ∧ e.rate = d.localRate := by
  obtain ⟨⟨w, sized⟩, rated, -⟩ := validate_eq_ok_iff.mp valid
  refine ⟨_, options_of_toWidth sized, fun why => ?_, fun e failed => ?_⟩
  · rw [Chart.build_eq_error_iff some_event]
    simp [Sizing.refused_iff sized]
  · rw [Chart.build_eq_error_iff some_event] at failed
    rcases failed with ⟨r, same, refused⟩ | ⟨-, ⟨why, other, -⟩ | ⟨b, other, -⟩⟩
    · obtain rfl := ChartError.rate.inj same
      exact RateSource.exists_bad_event rated refused
    · cases other
    · cases other

def manyDivisions : Config := { standard with window := ⟨none, some 2147483648⟩ }

def idleRateLog : List Event :=
  [⟨"org", "peer", "block", 10, .ofNanos 0, .ofNanos 50, 5, 0, 1⟩,
   ⟨"org", "peer", "block", 10, .ofNanos 20, .ofNanos 70, 0, 0, 2⟩]

theorem build_of_validate_manyDivisions :
    manyDivisions.validate = .ok () ∧ idleRateLog ≠ [] ∧
      (∃ options, manyDivisions.options = .ok options ∧
        Chart.build Rat idleRateLog options = .error (.width (.tooManyDivisions 2147483648))) ∧
      ∃ options, ({ manyDivisions with rate := .perEvent } : Config).options = .ok options ∧
        Chart.build Rat idleRateLog options = .error (.rate ⟨0, some 2⟩) ∧
        ∃ d ∈ idleRateLog, d.localRate ≤ 0 ∧ 0 = d.localRate := by
  have valid : manyDivisions.validate = .ok () := by decide +kernel
  have perEvent : ({ manyDivisions with rate := .perEvent } : Config).validate = .ok () := by
    decide +kernel
  have some_event : idleRateLog ≠ [] := by decide
  refine ⟨valid, some_event, ?_, ?_⟩
  · obtain ⟨options, accepted, refused, -⟩ := build_of_validate (α := Rat) valid some_event
    obtain rfl := Except.ok.inj accepted
    refine ⟨_, rfl, (refused _).mpr ⟨?_, 2147483648, rfl, by decide, rfl⟩⟩
    intro e bad
    cases bad with
    | firstEvent split low =>
      obtain ⟨rfl, -⟩ := List.cons.inj split
      exact absurd low (by decide)
  · obtain ⟨options, accepted, -, rated⟩ := build_of_validate (α := Rat) perEvent some_event
    obtain rfl := Except.ok.inj accepted
    have failed : Chart.build Rat idleRateLog ⟨.divisions 2147483648, .perEvent⟩ =
        .error (.rate ⟨0, some 2⟩) := rfl
    exact ⟨_, rfl, failed, (rated _ failed).2⟩

/-- One transfer that finishes when it starts: a log without a span. -/
def instantLog : List Event := [⟨"org", "peer", "block", 10, .ofNanos 5, .ofNanos 5, 5, 0, 1⟩]

/-- Valid settings, a log whose rates are all positive, and yet no chart. -/
theorem validate_manyDivisions_but_refused :
    manyDivisions.validate = .ok () ∧ instantLog ≠ [] ∧ (∀ e ∈ instantLog, 0 < e.localRate) ∧
      manyDivisions.options = .ok ⟨.divisions 2147483648, .firstEvent⟩ ∧
      Chart.build Rat instantLog ⟨.divisions 2147483648, .firstEvent⟩ =
        .error (.width (.tooManyDivisions 2147483648)) := by
  refine ⟨by decide +kernel, by decide, by decide, rfl, ?_⟩
  cbv

end Config

end InFlight
