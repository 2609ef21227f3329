import InFlight.Proofs.Chart.Refusal
/-!
Logs whose events all name one rate. Where that rate comes from is then of no account: the same
charts are built and the same widths refused, and a rate that is not positive is refused as such.
-/
namespace InFlight

variable {α : Type} [Arithmetic α]

namespace Sweep

/-- Only the rates of the endpoints in the windows tell two nominal rates apart. -/
theorem buckets_eq_of_rateOf {nominal other : NominalRate} {windows : List Window}
    (same : ∀ v ∈ windows, ∀ p ∈ v.points, nominal.rateOf p = other.rateOf p) (counts : Counts) :
    buckets α nominal counts windows = buckets α other counts windows := by
  induction windows generalizing counts with
  | nil => rfl
  | cons v windows ih =>
    obtain ⟨here, behind⟩ := List.forall_mem_cons.mp same
    have ideal : Latency.meanIdeal α nominal v.points = Latency.meanIdeal α other v.points := by
      unfold Latency.meanIdeal
      congr 1
      apply List.map_congr_left
      intro p hp
      rw [Latency.ideal, Latency.ideal, here p hp]
    rw [buckets, buckets, ih behind, bucket, bucket, ideal]

end Sweep

namespace Chart

variable {first : Event} {rest : List Event} {rate : Int}

theorem nominalRate_firstEvent (uniform : ∀ e ∈ first :: rest, e.localRate = rate) :
    nominalRate (first :: rest) .firstEvent = nominalRate (first :: rest) (.fixed rate) := by
  have resolved : RatePolicy.firstEvent.resolve (first :: rest) = .ok (.runWide rate) := by
    rw [RatePolicy.resolve, uniform first List.mem_cons_self]
  rw [nominalRate_of_resolve resolved, nominalRate_of_resolve rfl]

theorem nominalRate_fixed_of_pos (events : List Event) (positive : 0 < rate) :
    nominalRate events (.fixed rate) = .ok (.runWide rate) := by
  rw [nominalRate_of_resolve rfl, NominalRate.check, if_neg (by omega)]
  rfl

theorem nominalRate_perEvent_of_pos {events : List Event}
    (uniform : ∀ e ∈ events, e.localRate = rate) (positive : 0 < rate) :
    nominalRate events .perEvent = .ok .perEvent := by
  have none_bad : events.find? (·.localRate ≤ 0) = none := by
    rw [List.find?_eq_none]
    intro e he
    rw [uniform e he]
    simpa using positive
  rw [nominalRate_of_resolve rfl, NominalRate.check, none_bad]
  rfl

/-- Against the rate of each event is against the rate of them all. -/
theorem ofWindows_perEvent {events : List Event} {width : Width} {w : Windows}
    (uniform : ∀ e ∈ events, e.localRate = rate)
    (made : Windows.forWidth (Endpoint.ofEvents events) width = .ok w) :
    ofWindows α events .perEvent w = ofWindows α events (.runWide rate) w := by
  unfold ofWindows
  rw [Sweep.buckets_eq_of_rateOf]
  intro v hv p hp
  obtain ⟨e, he, rfl | rfl⟩ := Endpoint.mem_ofEvents.mp (Windows.mem_of_mem_points made hv hp)
  · exact uniform e he
  · exact uniform e he

theorem overWindows_perEvent {events : List Event} {width : Width} {w : Windows}
    (uniform : ∀ e ∈ events, e.localRate = rate)
    (made : Windows.forWidth (Endpoint.ofEvents events) width = .ok w) :
    overWindows α events .perEvent w = overWindows α events (.runWide rate) w := by
  rcases w.ends_or_error with ends | ⟨b, broken⟩
  · rw [overWindows_of_ends _ _ ends, overWindows_of_ends _ _ ends, ofWindows_perEvent uniform made]
  · rw [overWindows_of_error _ _ broken, overWindows_of_error _ _ broken]

theorem build_perEvent_of_pos (width : Width) (uniform : ∀ e ∈ first :: rest, e.localRate = rate)
    (positive : 0 < rate) :
    build α (first :: rest) ⟨width, .perEvent⟩ = build α (first :: rest) ⟨width, .fixed rate⟩ := by
  rw [build_eq (List.cons_ne_nil _ _), build_eq (List.cons_ne_nil _ _),
    nominalRate_fixed_of_pos _ positive, nominalRate_perEvent_of_pos uniform positive]
  cases made : Windows.forWidth (Endpoint.ofEvents (first :: rest)) width with
  | error why => rfl
  | ok w => exact overWindows_perEvent uniform made

/-- In a log of one positive rate the three policies give one result: the same chart in every
series, the same refusal of the width, or the same breakdown of the sweep. A rate that is not
positive is refused by all of them, and only under `perEvent` with an event, which is the first. -/
theorem build_uniformRate (width : Width) (uniform : ∀ e ∈ first :: rest, e.localRate = rate) :
    (0 < rate →
      build α (first :: rest) ⟨width, .firstEvent⟩ = build α (first :: rest) ⟨width, .fixed rate⟩ ∧
      build α (first :: rest) ⟨width, .perEvent⟩ = build α (first :: rest) ⟨width, .fixed rate⟩ ∧
      ((∃ chart, build α (first :: rest) ⟨width, .fixed rate⟩ = .ok chart) ∨
        (∃ why, width.Refused why ∧ build α (first :: rest) ⟨width, .fixed rate⟩ =
          .error (.width why)) ∨
        ∃ b, width.BreaksDown (first :: rest) b ∧
          build α (first :: rest) ⟨width, .fixed rate⟩ = .error (.sweep b))) ∧
    (rate ≤ 0 →
      build α (first :: rest) ⟨width, .firstEvent⟩ = .error (.rate ⟨rate, none⟩) ∧
      build α (first :: rest) ⟨width, .fixed rate⟩ = .error (.rate ⟨rate, none⟩) ∧
      build α (first :: rest) ⟨width, .perEvent⟩ = .error (.rate ⟨rate, some first.id⟩)) := by
  have some_event : first :: rest ≠ [] := List.cons_ne_nil _ _
  have here : first.localRate = rate := uniform first List.mem_cons_self
  refine ⟨fun positive => ⟨?_, build_perEvent_of_pos width uniform positive, ?_⟩,
    fun low => ⟨?_, ?_, ?_⟩⟩
  · rw [build_eq some_event, build_eq some_event, nominalRate_firstEvent uniform]
  · cases built : build α (first :: rest) ⟨width, .fixed rate⟩ with
    | ok chart => exact Or.inl ⟨chart, rfl⟩
    | error e =>
      rcases (build_eq_error_iff some_event).mp built with
        ⟨_, -, low⟩ | ⟨-, ⟨why, rfl, refused⟩ | ⟨b, rfl, broken⟩⟩
      · cases low with
        | fixed low => exact absurd positive (not_lt.mpr low)
      · exact Or.inr (Or.inl ⟨why, refused, rfl⟩)
      · exact Or.inr (Or.inr ⟨b, broken, rfl⟩)
  · exact (build_eq_error_iff some_event).mpr (Or.inl ⟨_, rfl, here ▸ .firstEvent rfl (here ▸ low)⟩)
  · exact (build_eq_error_iff some_event).mpr (Or.inl ⟨_, rfl, .fixed low⟩)
  · have refused : RatePolicy.perEvent.Refused (first :: rest) ⟨first.localRate, some first.id⟩ :=
      .perEvent (List.nil_append _).symm nofun (here ▸ low)
    exact (build_eq_error_iff some_event).mpr (Or.inl ⟨_, rfl, here ▸ refused⟩)

def oneRateLog (rate : Int) : List Event :=
  [⟨"org", "peer", "block", 10, .ofNanos 0, .ofNanos 50, rate, 7, 4⟩,
   ⟨"peer", "org", "nonce", 30, .ofNanos 20, .ofNanos 70, rate, 0, 2⟩]

theorem build_uniformRate_five :
    (∃ chart, build Rat (oneRateLog 5) ⟨.fixed 50, .perEvent⟩ = .ok chart ∧
      build Rat (oneRateLog 5) ⟨.fixed 50, .firstEvent⟩ = .ok chart ∧
      build Rat (oneRateLog 5) ⟨.fixed 50, .fixed 5⟩ = .ok chart ∧
      chart.ideal = [10000 / 3, 4000]) ∧
    build Rat (oneRateLog (-3)) ⟨.fixed 0, .perEvent⟩ = .error (.rate ⟨-3, some 4⟩) := by
  constructor
  · have shown : ((build Rat (oneRateLog 5) ⟨.fixed 50, .perEvent⟩).toOption.map Chart.ideal) =
        some [10000 / 3, 4000] := by cbv
    obtain ⟨chart, built, ideal⟩ := exists_build_of_shown shown
    have uniform : ∀ e ∈ oneRateLog 5, e.localRate = 5 := by decide
    obtain ⟨same, same', -⟩ := (@build_uniformRate Rat _ _ _ 5 (.fixed 50) uniform).1 (by decide)
    exact ⟨chart, built, same.trans (same'.symm.trans built), same'.symm.trans built, ideal⟩
  · have uniform : ∀ e ∈ oneRateLog (-3), e.localRate = -3 := by decide
    exact ((@build_uniformRate Rat _ _ _ (-3) (.fixed 0) uniform).2 (by decide)).2.2

end Chart

end InFlight
