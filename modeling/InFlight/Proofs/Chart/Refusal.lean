import InFlight.Proofs.Chart.Build
/-!
Which charts are refused, and why. A log without events comes first, then a rate that is not
positive, then a width that cannot be laid; every other log has a chart, whatever its events carry,
unless the sweep over it breaks down behind the last instant of the calendar.
-/
namespace InFlight

inductive Width.Refused : Width → WidthError → Prop where
  | notPositive {w : Int} : w ≤ 0 → Refused (.fixed w) (.notPositive w)
  | noDivisions : Refused (.divisions 0) .noDivisions
  | tooManyDivisions {n : Nat} : Width.mostDivisions < n →
      Refused (.divisions n) (.tooManyDivisions n)

/-- Rates that no latency can be computed against. Where every event has its own, the first bad one
of the log is named. -/
inductive RatePolicy.Refused (events : List Event) : RatePolicy → RateError → Prop where
  | firstEvent {e : Event} {rest : List Event} : events = e :: rest → e.localRate ≤ 0 →
      Refused events .firstEvent ⟨e.localRate, none⟩
  | fixed {rate : Int} : rate ≤ 0 → Refused events (.fixed rate) ⟨rate, none⟩
  | perEvent {before after : List Event} {e : Event} : events = before ++ e :: after →
      (∀ d ∈ before, 0 < d.localRate) → e.localRate ≤ 0 →
      Refused events .perEvent ⟨e.localRate, some e.id⟩

/-- An accepted width with windows over a log that no sweep goes over to their end. -/
def Width.BreaksDown (width : Width) (events : List Event) (b : Breakdown) : Prop :=
  ∃ w, Windows.forWidth (Endpoint.ofEvents events) width = .ok w ∧ w.BreaksDown b

theorem Width.breaksDown_iff_sweep {width : Width} {events : List Event} {w : Windows}
    {b : Breakdown} (made : Windows.forWidth (Endpoint.ofEvents events) width = .ok w) :
    width.BreaksDown events b ↔ w.sweep = .error b := by
  rw [Windows.sweep_eq_error_iff (Endpoint.inOrder_ofEvents events) made]
  constructor
  · rintro ⟨v, same, broken⟩
    exact Except.ok.inj (same.symm.trans made) ▸ broken
  · exact fun broken => ⟨w, made, broken⟩

/-- The span of the log does not bear on it. -/
theorem Width.resolve_eq_error_iff {width : Width} (span : Int) {why : WidthError} :
    width.resolve span = .error why ↔ width.Refused why := by
  constructor
  · intro h
    cases width with
    | fixed w =>
      by_cases positive : w ≤ 0
      · simp only [resolve, if_pos positive, Except.error.injEq] at h
        exact h ▸ .notPositive positive
      · simp [resolve, positive] at h
    | divisions n =>
      by_cases zero : n = 0
      · subst zero
        simp only [resolve, if_true, Except.error.injEq] at h
        exact h ▸ .noDivisions
      · by_cases many : mostDivisions < n
        · simp only [resolve, if_neg zero, if_pos many, Except.error.injEq] at h
          exact h ▸ .tooManyDivisions many
        · simp [resolve, zero, many] at h
  · rintro (positive | _ | @⟨n, many⟩)
    · simp [resolve, positive]
    · rfl
    · have some_division : n ≠ 0 := by omega
      simp [resolve, some_division, many]

theorem Width.not_refused_fixed {w : Int} (positive : 0 < w) (why : WidthError) :
    ¬ (fixed w).Refused why := by
  rintro (low | _ | _)
  exact absurd positive (not_lt.mpr low)

theorem Width.not_refused_divisions {n : Nat} (positive : 0 < n) (few : n ≤ mostDivisions)
    (why : WidthError) :
    ¬ (divisions n).Refused why := by
  rintro (_ | _ | many)
  · exact absurd positive (lt_irrefl 0)
  · exact absurd few (not_le.mpr many)

namespace NominalRate

variable {events : List Event} {e : RateError}

theorem check_runWide_eq_error_iff {rate : Int} :
    (runWide rate).check events = .error e ↔ rate ≤ 0 ∧ e = ⟨rate, none⟩ := by
  by_cases low : rate ≤ 0 <;> simp [check, low, eq_comm]

theorem check_perEvent_eq_error_iff :
    perEvent.check events = .error e ↔ ∃ before d after, events = before ++ d :: after ∧
      (∀ x ∈ before, 0 < x.localRate) ∧ d.localRate ≤ 0 ∧ e = ⟨d.localRate, some d.id⟩ := by
  unfold check
  dsimp only
  constructor
  · intro h
    cases bad : events.find? (·.localRate ≤ 0) with
    | none => simp [bad] at h
    | some d =>
      obtain ⟨low, before, after, split, high⟩ := List.find?_eq_some_iff_append.mp bad
      simp only [bad, Except.error.injEq] at h
      exact ⟨before, d, after, split, fun x hx => by simpa using high x hx,
        of_decide_eq_true low, h.symm⟩
  · rintro ⟨before, d, after, split, high, low, rfl⟩
    have bad : events.find? (·.localRate ≤ 0) = some d :=
      List.find?_eq_some_iff_append.mpr
        ⟨decide_eq_true low, before, after, split, fun x hx => by simpa using high x hx⟩
    rw [bad]

theorem eq_of_check {nominal checked : NominalRate} (h : nominal.check events = .ok checked) :
    nominal = checked := by
  unfold check at h
  split at h
  · split at h
    · cases h
    · exact Except.ok.inj h
  · split at h
    · cases h
    · exact Except.ok.inj h

end NominalRate

namespace Chart

variable {events : List Event} {options : ChartOptions} {policy : RatePolicy}

theorem nominalRate_of_resolve {nominal : NominalRate} (h : policy.resolve events = .ok nominal) :
    nominalRate events policy = (nominal.check events).mapError .rate := by
  simp only [nominalRate, h, bind, Except.bind]
  cases nominal.check events <;> rfl

theorem resolve_of_nominalRate {nominal : NominalRate}
    (h : nominalRate events policy = .ok nominal) :
    policy.resolve events = .ok nominal := by
  cases resolved : policy.resolve events with
  | error e => simp [nominalRate, resolved, bind, Except.bind] at h
  | ok found =>
    rw [nominalRate_of_resolve resolved] at h
    cases checked : found.check events with
    | error e => simp [checked, Except.mapError] at h
    | ok same =>
      rw [checked] at h
      rw [NominalRate.eq_of_check checked, Except.ok.inj h]

/-- The rate looks at nothing else of the events. -/
theorem nominalRate_map {f : Event → Event} (rates : ∀ e, (f e).localRate = e.localRate)
    (ids : ∀ e, (f e).id = e.id) (policy : RatePolicy) :
    nominalRate (events.map f) policy = nominalRate events policy := by
  have resolve : policy.resolve (events.map f) = policy.resolve events := by
    cases policy with
    | firstEvent => cases events <;> simp [RatePolicy.resolve, rates]
    | fixed rate => rfl
    | perEvent => rfl
  have check : ∀ nominal : NominalRate, nominal.check (events.map f) = nominal.check events := by
    intro nominal
    cases nominal with
    | runWide rate => rfl
    | perEvent =>
      unfold NominalRate.check
      simp only [List.find?_map, Function.comp_def, rates]
      cases events.find? (·.localRate ≤ 0) <;> simp [rates, ids]
  simp only [nominalRate, resolve, check]

theorem mapError_rate_eq_error_iff {x : Except RateError NominalRate} {e : ChartError} :
    x.mapError .rate = .error e ↔ ∃ r, e = .rate r ∧ x = .error r := by
  cases x <;> simp [Except.mapError, eq_comm]

theorem nominalRate_eq_error_iff (some_event : events ≠ []) {e : ChartError} :
    nominalRate events policy = .error e ↔ ∃ r, e = .rate r ∧ policy.Refused events r := by
  cases policy with
  | firstEvent =>
    obtain ⟨first, rest, rfl⟩ := List.exists_cons_of_ne_nil some_event
    rw [nominalRate_of_resolve rfl, mapError_rate_eq_error_iff]
    simp only [NominalRate.check_runWide_eq_error_iff]
    constructor
    · rintro ⟨r, rfl, low, rfl⟩
      exact ⟨_, rfl, .firstEvent rfl low⟩
    · rintro ⟨r, rfl, refused⟩
      cases refused with
      | firstEvent same low =>
        obtain ⟨rfl, -⟩ := List.cons.inj same
        exact ⟨_, rfl, low, rfl⟩
  | fixed rate =>
    rw [nominalRate_of_resolve rfl, mapError_rate_eq_error_iff]
    simp only [NominalRate.check_runWide_eq_error_iff]
    constructor
    · rintro ⟨r, rfl, low, rfl⟩
      exact ⟨_, rfl, .fixed low⟩
    · rintro ⟨r, rfl, refused⟩
      cases refused with
      | fixed low => exact ⟨_, rfl, low, rfl⟩
  | perEvent =>
    rw [nominalRate_of_resolve rfl, mapError_rate_eq_error_iff]
    simp only [NominalRate.check_perEvent_eq_error_iff]
    constructor
    · rintro ⟨r, rfl, before, d, after, split, high, low, rfl⟩
      exact ⟨_, rfl, .perEvent split high low⟩
    · rintro ⟨r, rfl, refused⟩
      cases refused with
      | perEvent split high low => exact ⟨_, rfl, _, _, _, split, high, low, rfl⟩

variable {α : Type} [Arithmetic α]

/-- The sweep's own complaint about an empty log is never heard, since every event has endpoints. -/
theorem run_ofEvents_ne_emptyLog (some_event : events ≠ []) (width : Width)
    (nominal : NominalRate) :
    Sweep.run α (Endpoint.ofEvents events) width nominal ≠ .error .emptyLog := by
  unfold Sweep.run
  rw [Sweep.windows_eq _ _ (Endpoint.ofEvents_ne_nil some_event)]
  cases Windows.forWidth (Endpoint.ofEvents events) width with
  | error why => simp [Except.mapError, bind, Except.bind]
  | ok w =>
    cases swept : w.sweep <;> simp [swept, Except.mapError, bind, Except.bind, pure, Except.pure]

theorem forWidth_eq_error_iff {sorted : List Endpoint} {width : Width} {why : WidthError} :
    Windows.forWidth sorted width = .error why ↔ width.Refused why := by
  rw [← Width.resolve_eq_error_iff (Windows.spanOf sorted)]
  unfold Windows.forWidth
  cases resolved : width.resolve (Windows.spanOf sorted) <;>
    simp [resolved, bind, Except.bind, pure, Except.pure]

theorem overWindows_eq_error_iff {w : Windows} {nominal : NominalRate} {e : ChartError} :
    overWindows α events nominal w = .error e ↔ ∃ b, e = .sweep b ∧ w.sweep = .error b := by
  unfold overWindows
  cases w.sweep <;> simp [Except.map, Except.mapError, eq_comm]

theorem build_eq_error_iff (some_event : events ≠ []) {e : ChartError} :
    build α events options = .error e ↔
      (∃ r, e = .rate r ∧ options.rate.Refused events r) ∨
        (∀ r, ¬ options.rate.Refused events r) ∧
          ((∃ why, e = .width why ∧ options.width.Refused why) ∨
            ∃ b, e = .sweep b ∧ options.width.BreaksDown events b) := by
  rw [build_eq some_event]
  cases rate : nominalRate events options.rate with
  | error cause =>
    obtain ⟨r, rfl, refused⟩ := (nominalRate_eq_error_iff some_event).mp rate
    have same : nominalRate events options.rate = .error e ↔ _ :=
      nominalRate_eq_error_iff some_event
    rw [rate, Except.error.injEq] at same
    simp only [bind, Except.bind, Except.error.injEq, same]
    exact ⟨Or.inl, fun h => h.resolve_right fun no_rate => no_rate.1 r refused⟩
  | ok nominal =>
    have accepted : ∀ r, ¬ options.rate.Refused events r := by
      intro r refused
      have fails := (nominalRate_eq_error_iff some_event).mpr ⟨r, rfl, refused⟩
      rw [rate] at fails
      cases fails
    have laid : ∀ why, Windows.forWidth (Endpoint.ofEvents events) options.width = .error why ↔
        options.width.Refused why := fun why => forWidth_eq_error_iff
    cases made : Windows.forWidth (Endpoint.ofEvents events) options.width with
    | error why =>
      have unmade : ∀ b, ¬ options.width.BreaksDown events b := by
        rintro b ⟨w, other, -⟩
        cases made.symm.trans other
      simp only [made, Except.error.injEq] at laid
      simp [bind, Except.bind, Except.mapError, accepted, unmade, ← laid, eq_comm]
    | ok w =>
      simp only [made, reduceCtorEq, false_iff] at laid
      simp [bind, Except.bind, Except.mapError, accepted, laid, Width.breaksDown_iff_sweep made,
        overWindows_eq_error_iff]

theorem not_breaksDown_of_inCalendar (width : Width)
    (inside : ∀ e ∈ events, (Instant.first ≤ e.start ∧ e.start ≤ Instant.last) ∧
      Instant.first ≤ e.finish ∧ e.finish ≤ Instant.last) (b : Breakdown) :
    ¬ width.BreaksDown events b := by
  rintro ⟨w, made, broken⟩
  have order := Endpoint.inOrder_ofEvents events
  have times : ∀ p ∈ Endpoint.ofEvents events, Instant.first ≤ p.time ∧ p.time ≤ Instant.last := by
    intro p hp
    obtain ⟨e, he, rfl | rfl⟩ := Endpoint.mem_ofEvents.mp hp
    · exact (inside e he).1
    · exact (inside e he).2
  by_cases empty : Endpoint.ofEvents events = []
  · have ends := Windows.ends_of_plain order (by simp [empty]) made
    exact (Windows.ends_iff_not_breaksDown order made).mp ends b broken
  · obtain ⟨p, hp, first⟩ := Windows.exists_mem_of_firstTime empty
    obtain ⟨q, hq, last⟩ := Windows.exists_mem_of_lastTime empty
    have ends := Windows.ends_of_forWidth order (first ▸ (times p hp).1)
      (last ▸ (times q hq).2) made
    exact (Windows.ends_iff_not_breaksDown order made).mp ends b broken

/-- Which outcome a log has: an empty log is refused as such, any other for a rate if a rate is bad,
else for its width if that is bad. In every other case it has a chart, unless the sweep breaks down,
as none does within the calendar. -/
theorem build_outcome_iff (events : List Event) (options : ChartOptions) :
    (build α events options = .error .emptyLog ↔ events = []) ∧
    (∀ e, build α events options = .error (.rate e) ↔ events ≠ [] ∧ options.rate.Refused events e) ∧
    (∀ why, build α events options = .error (.width why) ↔
      events ≠ [] ∧ (∀ e, ¬ options.rate.Refused events e) ∧ options.width.Refused why) ∧
    (∀ b, build α events options = .error (.sweep b) ↔
      events ≠ [] ∧ (∀ e, ¬ options.rate.Refused events e) ∧ options.width.BreaksDown events b) ∧
    ((∃ chart, build α events options = .ok chart) ↔
      events ≠ [] ∧ (∀ e, ¬ options.rate.Refused events e) ∧ (∀ why, ¬ options.width.Refused why) ∧
        ∀ b, ¬ options.width.BreaksDown events b) ∧
    ((∀ e ∈ events, (Instant.first ≤ e.start ∧ e.start ≤ Instant.last) ∧
        Instant.first ≤ e.finish ∧ e.finish ≤ Instant.last) →
      ∀ b, ¬ options.width.BreaksDown events b) ∧
    ∀ nominal, Sweep.run α (Endpoint.ofEvents events) options.width nominal = .error .emptyLog ↔
      events = [] := by
  refine ⟨?_, ?_, ?_, ?_, ?_, not_breaksDown_of_inCalendar options.width, ?_⟩
  all_goals
    by_cases empty : events = []
    · subst empty
      have none_ : build α [] options = .error .emptyLog := rfl
      simp [none_, Sweep.run, Sweep.windows, Endpoint.ofEvents, Endpoint.sort, bind, Except.bind]
  · simp [build_eq_error_iff empty, empty]
  · simp [build_eq_error_iff empty, empty]
  · simp [build_eq_error_iff empty, empty]
  · simp [build_eq_error_iff empty, empty]
  · have fine : (∃ chart, build α events options = .ok chart) ↔
        ¬ ∃ e, build α events options = .error e := by
      cases build α events options <;> simp
    rw [fine]
    simp only [build_eq_error_iff empty]
    constructor
    · intro never
      have accepted : ∀ r, ¬ options.rate.Refused events r :=
        fun r refused => never ⟨_, Or.inl ⟨r, rfl, refused⟩⟩
      exact ⟨empty, accepted,
        fun why refused => never ⟨_, Or.inr ⟨accepted, Or.inl ⟨why, rfl, refused⟩⟩⟩,
        fun b broken => never ⟨_, Or.inr ⟨accepted, Or.inr ⟨b, rfl, broken⟩⟩⟩⟩
    · rintro ⟨-, accepted, fits, ends⟩
        ⟨e, ⟨r, -, refused⟩ | ⟨-, ⟨why, -, refused⟩ | ⟨b, -, broken⟩⟩⟩
      · exact accepted r refused
      · exact fits why refused
      · exact ends b broken
  · exact fun nominal => iff_of_false (run_ofEvents_ne_emptyLog empty _ nominal) empty

def oddLog : List Event := [⟨"org", "peer", "block", -3, .ofNanos 90, .ofNanos 20, 0, 0, 1⟩]

theorem build_outcome_iff_oddLog :
    ∃ chart, build Rat oddLog ⟨.divisions 2, .fixed 5⟩ = .ok chart := by
  have rated : ∀ e, ¬ (RatePolicy.fixed 5).Refused oddLog e := by
    rintro e (_ | low | _)
    exact absurd low (by decide)
  have fits : ∀ why, ¬ (Width.divisions 2).Refused why :=
    Width.not_refused_divisions (by decide) (by decide)
  obtain ⟨-, -, -, -, charted, inside, -⟩ :=
    build_outcome_iff (α := Rat) oddLog ⟨.divisions 2, .fixed 5⟩
  exact charted.mpr ⟨by decide, rated, fits, inside (by decide)⟩

/-- A transfer that finishes in the leap second behind the last second of the calendar. -/
def leapLog : List Event :=
  [⟨"org", "peer", "block", 10, .ofReading 8210266876799 0,
    .ofReading 8210266876799 1500000000, 5, 0, 1⟩]

theorem leapLog_breaksDown {width : Width} (accepted : ∀ why, ¬ width.Refused why) :
    ∃ b, width.BreaksDown leapLog b := by
  have first : Windows.firstTime (Endpoint.ofEvents leapLog) = .ofReading 8210266876799 0 := by cbv
  have last : Windows.lastTime (Endpoint.ofEvents leapLog) =
      .ofReading 8210266876799 1500000000 := by cbv
  cases made : Windows.forWidth (Endpoint.ofEvents leapLog) width with
  | error why => exact absurd (forWidth_eq_error_iff.mp made) (accepted why)
  | ok w =>
    obtain ⟨b, broken⟩ := Windows.exists_breaksDown_of_lt_lastTime
      (by rw [first]; decide) (by rw [last]; decide) (by rw [last]; decide) made
    exact ⟨b, w, made, broken⟩

/-- The rate of the log and the width are accepted, and yet there is no chart. -/
theorem not_build_leapLog : leapLog ≠ [] ∧ (∀ e, ¬ RatePolicy.firstEvent.Refused leapLog e) ∧
    (∀ why, ¬ (Width.divisions 2).Refused why) ∧ (∀ why, ¬ (Width.fixed 50000000).Refused why) ∧
    (¬ ∃ chart, build Rat leapLog ⟨.divisions 2, .firstEvent⟩ = .ok chart) ∧
    ¬ ∃ chart, build Rat leapLog ⟨.fixed 50000000, .firstEvent⟩ = .ok chart := by
  have divided : ∀ why, ¬ (Width.divisions 2).Refused why :=
    Width.not_refused_divisions (by decide) (by decide)
  have fixed : ∀ why, ¬ (Width.fixed 50000000).Refused why := Width.not_refused_fixed (by decide)
  have rated : ∀ e, ¬ RatePolicy.firstEvent.Refused leapLog e := by
    rintro e (⟨split, low⟩ | _ | _)
    obtain ⟨rfl, -⟩ := List.cons.inj split
    exact absurd low (by decide)
  have chartless {width : Width} (accepted : ∀ why, ¬ width.Refused why) :
      ¬ ∃ chart, build Rat leapLog ⟨width, .firstEvent⟩ = .ok chart := by
    rintro ⟨chart, built⟩
    obtain ⟨b, broken⟩ := leapLog_breaksDown accepted
    have error : build Rat leapLog ⟨width, .firstEvent⟩ = .error (.sweep b) :=
      (build_eq_error_iff (by decide)).mpr (Or.inr ⟨rated, Or.inr ⟨b, rfl, broken⟩⟩)
    cases error.symm.trans built
  exact ⟨by decide, rated, divided, fixed, chartless divided, chartless fixed⟩

end Chart

end InFlight
