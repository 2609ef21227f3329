import InFlight.Proofs.Chart.Refusal
import InFlight.Proofs.Latency
/-!
The latencies of a chart, window by window. The rate is checked on the events of a log and used on
the endpoints that a window holds: none of them is measured against a rate that is not positive, and
no mean is taken of no endpoints.
-/
namespace InFlight

variable {events : List Event} {nominal : NominalRate}

/-- A rate that has been checked against the events is positive at each of their endpoints. -/
theorem NominalRate.rateOf_pos {p : Endpoint} (checked : nominal.check events = .ok nominal)
    (hp : p ∈ Endpoint.ofEvents events) : 0 < nominal.rateOf p := by
  cases nominal with
  | runWide rate =>
    have high : ¬ rate ≤ 0 := fun low => by simp [check, low] at checked
    exact not_le.mp high
  | perEvent =>
    have none_bad : events.find? (·.localRate ≤ 0) = none := by
      cases bad : events.find? (·.localRate ≤ 0) with
      | none => rfl
      | some e => simp [check, bad] at checked
    have high (e : Event) (he : e ∈ events) : 0 < e.localRate := by
      simpa using List.find?_eq_none.mp none_bad e he
    obtain ⟨e, he, rfl | rfl⟩ := Endpoint.mem_ofEvents.mp hp
    · exact high e he
    · exact high e he

namespace Chart

variable {policy : RatePolicy}

theorem check_of_nominalRate (h : nominalRate events policy = .ok nominal) :
    nominal.check events = .ok nominal := by
  have resolved := resolve_of_nominalRate h
  rw [nominalRate_of_resolve resolved] at h
  cases checked : nominal.check events with
  | error e => simp [checked, Except.mapError] at h
  | ok found =>
    rw [NominalRate.eq_of_check checked]

end Chart

/-- The latencies of a window are means over exactly its endpoints, each of them an end of some
event, and no division in them is by a number that is not positive. -/
structure Window.IsAveraged (v : Window) (events : List Event) (nominal : NominalRate) : Prop where
  points_eq : v.points = (Endpoint.ofEvents events).filter fun p => v.start ≤ p.time ∧
    p.time ≤ v.finish
  of_event : ∀ p ∈ v.points, ∃ e ∈ events, p.elapsed = e.finish.since e.start ∧ p.size = e.size ∧
    p.localRate = e.localRate
  rateOf_pos : ∀ p ∈ v.points, 0 < nominal.rateOf p
  ideal : Latency.IsMean (v.points.map fun p => 1000 * (p.size : Rat) / nominal.rateOf p)
    (Latency.meanIdeal Rat nominal v.points)
  real : Latency.IsMean (v.points.map fun p => Latency.countedMillis p.elapsed)
    (Latency.meanReal Rat v.points)
  ideal_guarded : Latency.meanIdeal Guarded nominal v.points =
    .ofRat (Latency.meanIdeal Rat nominal v.points)
  real_guarded : Latency.meanReal Guarded v.points = .ofRat (Latency.meanReal Rat v.points)

/-- Where no elapsed time of a window has a rest that is dropped, the mean is that of the elapsed
times themselves. -/
theorem Window.IsAveraged.real_exact {v : Window} (h : v.IsAveraged events nominal)
    (whole : ∀ p ∈ v.points, Word.IsSigned64 p.elapsed ∨ (1000000 : Int) ∣ p.elapsed) :
    Latency.IsMean (v.points.map fun p => (p.elapsed : Rat) / 1000000)
      (Latency.meanReal Rat v.points) := by
  have terms : (v.points.map fun p => (p.elapsed : Rat) / 1000000) =
      v.points.map fun p => Latency.countedMillis p.elapsed :=
    List.map_congr_left fun p hp => (Latency.countedMillis_eq_iff.mpr (whole p hp)).symm
  rw [terms]
  exact h.real

namespace Chart

variable {α : Type} [Arithmetic α] {options : ChartOptions} {chart : Chart α} {w : Windows}

theorem isAveraged_of_mem {policy : RatePolicy} {width : Width}
    (rated : nominalRate events policy = .ok nominal)
    (laid : Windows.forWidth (Endpoint.ofEvents events) width = .ok w) {v : Window}
    (hv : v ∈ w.all) :
    v.IsAveraged events nominal := by
  have mine {p : Endpoint} (hp : p ∈ v.points) : p ∈ Endpoint.ofEvents events :=
    Windows.mem_of_mem_points laid hv hp
  have positive (p : Endpoint) (hp : p ∈ v.points) : 0 < nominal.rateOf p :=
    NominalRate.rateOf_pos (check_of_nominalRate rated) (mine hp)
  have reals : v.points.map (Latency.real Rat) = v.points.map fun p =>
      Latency.countedMillis p.elapsed :=
    List.map_congr_left fun p _ => Latency.real_rat p
  exact {
    points_eq := Windows.points_eq_filter (Endpoint.inOrder_ofEvents events) laid hv
    of_event := fun p hp => by
      obtain ⟨e, he, rfl | rfl⟩ := Endpoint.mem_ofEvents.mp (mine hp)
      · exact ⟨e, he, rfl, rfl, rfl⟩
      · exact ⟨e, he, rfl, rfl, rfl⟩
    rateOf_pos := positive
    ideal := Latency.isMean_mean _
    real := reals ▸ Latency.isMean_mean _
    ideal_guarded := Latency.meanIdeal_guarded positive
    real_guarded := Latency.meanReal_guarded v.points }

/-- Every chart, in whatever arithmetic, shows for each window the mean ideal and the mean real
latency of the endpoints within it, every one against a positive rate. -/
theorem exists_isAveraged_of_build (built : build α events options = .ok chart) :
    ∃ nominal w, nominalRate events options.rate = .ok nominal ∧
      Windows.forWidth (Endpoint.ofEvents events) options.width = .ok w ∧
      chart.IsTimedBy nominal w ∧
      ∀ v ∈ w.all, v.IsAveraged events nominal := by
  obtain ⟨-, nominal, w, rated, laid, -, rfl⟩ := build_eq_ok_iff.mp built
  exact ⟨nominal, w, rated, laid, isTimedBy_ofWindows events nominal w, fun v hv =>
    isAveraged_of_mem rated laid hv⟩

def backwardLog : List Event :=
  [⟨"org", "peer", "block", 10, .ofNanos 0, .ofNanos 1500000, 5, 0, 1⟩,
   ⟨"peer", "org", "nonce", -3, .ofNanos 5000000, .ofNanos 4500000, 4, 0, 2⟩]

theorem exists_isAveraged_of_build_backwardLog :
    ∃ chart, build Rat backwardLog ⟨.fixed 1000000, .perEvent⟩ = .ok chart ∧
      chart.ideal = [2000, 2000, 0, 0, -750] ∧ chart.real = [3 / 2, 3 / 2, 0, 0, -1 / 2] ∧
      ∃ nominal w, nominalRate backwardLog .perEvent = .ok nominal ∧
        Windows.forWidth (Endpoint.ofEvents backwardLog) (.fixed 1000000) = .ok w ∧
        chart.IsTimedBy nominal w ∧
        ∀ v ∈ w.all, v.IsAveraged backwardLog nominal := by
  have shown : (build Rat backwardLog ⟨.fixed 1000000, .perEvent⟩).toOption.map (fun c =>
      (c.ideal, c.real)) =
      some ([2000, 2000, 0, 0, -750], [3 / 2, 3 / 2, 0, 0, -1 / 2]) := by cbv
  obtain ⟨chart, built, latencies⟩ := exists_build_of_shown shown
  obtain ⟨ideal, real⟩ := Prod.mk.inj latencies
  exact ⟨chart, built, ideal, real, exists_isAveraged_of_build built⟩

/-- A transfer that starts half a millisecond behind a whole one and whose finish is unset. -/
def unfinishedLog : List Event :=
  [⟨"org", "peer", "block", 10, .ofNanos 500000, .ofNanos (-62135596800000000000), 5, 0, 1⟩]

/-- The half millisecond is missing from the mean of elapsed times that do not fit 64 bits of
nanoseconds. -/
theorem real_ne_exact_mean_unfinishedLog :
    ∃ chart w, build Rat unfinishedLog ⟨.fixed 62135596800000500000, .firstEvent⟩ = .ok chart ∧
      Windows.forWidth (Endpoint.ofEvents unfinishedLog) (.fixed 62135596800000500000) = .ok w ∧
      chart.real = [-62135596800000] ∧
      (w.all.map fun v => Latency.mean (v.points.map fun p => (p.elapsed : Rat) / 1000000)) =
        [-62135596800000 - 1 / 2] ∧
      ¬ ∀ v ∈ w.all, Latency.IsMean (v.points.map fun p => (p.elapsed : Rat) / 1000000)
        (Latency.meanReal Rat v.points) := by
  have shown :
      (build Rat unfinishedLog ⟨.fixed 62135596800000500000, .firstEvent⟩).toOption.map
        Chart.real = some [-62135596800000] := by cbv
  obtain ⟨chart, built, counted⟩ := exists_build_of_shown shown
  obtain ⟨-, nominal, w, -, laid, -, same⟩ := build_eq_ok_iff.mp built
  have wanted :
      (Windows.forWidth (Endpoint.ofEvents unfinishedLog)
          (.fixed 62135596800000500000)).toOption.map
          (fun w => w.all.map fun v =>
            Latency.mean (v.points.map fun p => (p.elapsed : Rat) / 1000000)) =
        some [-62135596800000 - 1 / 2] := by cbv
  have due : (w.all.map fun v => Latency.mean (v.points.map fun p => (p.elapsed : Rat) / 1000000)) =
      [-62135596800000 - 1 / 2] := by
    rw [laid] at wanted
    exact Option.some.inj wanted
  refine ⟨chart, w, built, laid, counted, due, fun means => ?_⟩
  have timed : chart.real = w.all.map fun v => Latency.meanReal Rat v.points :=
    same ▸ (isTimedBy_ofWindows unfinishedLog nominal w).real_eq
  have agree : chart.real = w.all.map fun v =>
      Latency.mean (v.points.map fun p => (p.elapsed : Rat) / 1000000) := by
    rw [timed]
    exact List.map_congr_left fun v hv => (means v hv).unique (Latency.isMean_mean _)
  rw [counted, due] at agree
  norm_num at agree

end Chart

end InFlight
