import InFlight.Proofs.Chart.Refusal
/-!
The order of a log. Sorted by time, the same events in another order give the same times, hence the
same windows with the same endpoints in them; only endpoints of one instant may change places, and
no count depends on that.
-/
namespace InFlight

open Endpoint (InOrder)

/-- Bad rates may come from different events, and a width is refused for one and the same cause. -/
inductive ChartError.SameKind : ChartError → ChartError → Prop where
  | emptyLog : SameKind .emptyLog .emptyLog
  | rate (r s : RateError) : SameKind (.rate r) (.rate s)
  | width (why : WidthError) : SameKind (.width why) (.width why)
  | sweep (b : Breakdown) : SameKind (.sweep b) (.sweep b)

structure Window.SamePoints (v w : Window) : Prop where
  start_eq : v.start = w.start
  finish_eq : v.finish = w.finish
  perm : v.points.Perm w.points

theorem map_eq_of_samePoints {β : Type} {f : Window → β} {vs ws : List Window}
    (same : List.Forall₂ Window.SamePoints vs ws) (h : ∀ v w, Window.SamePoints v w → f v = f w) :
    vs.map f = ws.map f := by
  induction same with
  | nil => rfl
  | cons here _ ih => rw [List.map_cons, List.map_cons, h _ _ here, ih]

variable {events others : List Event}

theorem Endpoint.ofEvents_perm (h : events.Perm others) :
    (ofEvents events).Perm (ofEvents others) :=
  (perm_ofEvents events).trans ((h.flatMap_right Event.endpoints).trans (perm_ofEvents others).symm)

section Layout

variable {sorted rearranged : List Endpoint}

theorem Endpoint.InOrder.times_eq (h : InOrder sorted) (k : InOrder rearranged)
    (same : sorted.Perm rearranged) :
    sorted.map Endpoint.time = rearranged.map Endpoint.time := by
  apply List.Perm.eq_of_pairwise (fun _ _ _ _ => le_antisymm) _ _ (same.map Endpoint.time)
  · exact List.pairwise_map.mpr h
  · exact List.pairwise_map.mpr k

namespace Windows

/-- The boundaries do not look at the endpoints. -/
theorem samePoints_all (order : InOrder sorted) (reordered : InOrder rearranged)
    (same : sorted.Perm rearranged) (first last : Instant) (stepping : Stepping) :
    List.Forall₂ Window.SamePoints (Windows.mk sorted.toArray first last stepping).all
      (Windows.mk rearranged.toArray first last stepping).all := by
  unfold all upTo
  rw [List.forall₂_map_left_iff, List.forall₂_map_right_iff]
  apply List.forall₂_same.mpr
  rintro ⟨start, finish⟩ _
  refine ⟨rfl, rfl, ?_⟩
  dsimp only
  rw [Window.select_eq_filter order, Window.select_eq_filter reordered]
  exact same.filter _

/-- The same width is refused, or the same windows are laid, over which the sweeps end or break down
alike. -/
theorem forWidth_perm (width : Width) (order : InOrder sorted) (reordered : InOrder rearranged)
    (same : sorted.Perm rearranged) :
    (∃ why, forWidth sorted width = .error why ∧ forWidth rearranged width = .error why) ∨
      ∃ v w, forWidth sorted width = .ok v ∧ forWidth rearranged width = .ok w ∧
        List.Forall₂ Window.SamePoints v.all w.all ∧
        ((v.Ends ∧ w.Ends) ∨ ∃ b, v.sweep = .error b ∧ w.sweep = .error b) := by
  have times := order.times_eq reordered same
  have first := firstTime_eq_of_times times
  have last := lastTime_eq_of_times times
  have span : spanOf sorted = spanOf rearranged := by rw [spanOf, spanOf, first, last]
  cases resolved : width.resolve (spanOf sorted) with
  | error why =>
    have refused := (Width.resolve_eq_error_iff _).mp resolved
    exact Or.inl ⟨why, Chart.forWidth_eq_error_iff.mpr refused,
      Chart.forWidth_eq_error_iff.mpr refused⟩
  | ok step =>
    have points := samePoints_all order reordered same (firstTime sorted) (lastTime sorted)
      (steppingFor width (spanOf sorted) step)
    refine Or.inr ⟨_, _, forWidth_eq_ok_iff.mpr ⟨step, resolved, rfl⟩,
      forWidth_eq_ok_iff.mpr ⟨step, span ▸ resolved, rfl⟩, ?_⟩
    rw [← first, ← last, ← span]
    exact ⟨points, ends_or_error_of_same rfl rfl (map_eq_of_samePoints points fun _ _ here =>
      here.finish_eq)⟩

end Windows

end Layout

section Rate

theorem RatePolicy.resolve_perm {policy : RatePolicy} (some_event : events ≠ [])
    (h : events.Perm others) (first : policy = .firstEvent →
      events.head?.map Event.localRate = others.head?.map Event.localRate) :
    ∃ nominal, policy.resolve events = .ok nominal ∧ policy.resolve others = .ok nominal := by
  cases policy with
  | firstEvent =>
    obtain ⟨e, events, rfl⟩ := List.exists_cons_of_ne_nil some_event
    have some_other : others ≠ [] := by
      rintro rfl
      cases h.symm.nil_eq
    obtain ⟨f, others, rfl⟩ := List.exists_cons_of_ne_nil some_other
    have rate : e.localRate = f.localRate := by simpa using first rfl
    refine ⟨.runWide e.localRate, rfl, ?_⟩
    rw [rate]
    rfl
  | fixed rate => exact ⟨_, rfl, rfl⟩
  | perEvent => exact ⟨_, rfl, rfl⟩

theorem NominalRate.check_perm (nominal : NominalRate) (h : events.Perm others) :
    (nominal.check events = .ok nominal ∧ nominal.check others = .ok nominal) ∨
      ∃ r s, nominal.check events = .error r ∧ nominal.check others = .error s := by
  cases nominal with
  | runWide rate =>
    by_cases low : rate ≤ 0
    · exact Or.inr ⟨_, _, if_pos low, if_pos low⟩
    · exact Or.inl ⟨if_neg low, if_neg low⟩
  | perEvent =>
    have bad : (events.find? (·.localRate ≤ 0)).isSome ↔
        (others.find? (·.localRate ≤ 0)).isSome := by
      simp only [List.find?_isSome, h.mem_iff]
    unfold check
    cases here : events.find? (·.localRate ≤ 0) with
    | none =>
      rw [here] at bad
      have there : others.find? (·.localRate ≤ 0) = none := by simpa using bad
      exact Or.inl ⟨rfl, by simp only [there]⟩
    | some e =>
      rw [here] at bad
      obtain ⟨f, there⟩ := Option.isSome_iff_exists.mp (bad.mp rfl)
      exact Or.inr ⟨_, ⟨f.localRate, some f.id⟩, rfl, by simp only [there]⟩

end Rate

namespace Chart

variable {α : Type} [Arithmetic α] {options : ChartOptions}

theorem nominalRate_perm {policy : RatePolicy} (some_event : events ≠ []) (h : events.Perm others)
    (first : policy = .firstEvent → events.head?.map Event.localRate =
      others.head?.map Event.localRate) :
    (∃ nominal, nominalRate events policy = .ok nominal ∧ nominalRate others policy = .ok nominal) ∨
      ∃ r s, nominalRate events policy = .error (.rate r) ∧
        nominalRate others policy = .error (.rate s) := by
  obtain ⟨nominal, here, there⟩ := RatePolicy.resolve_perm some_event h first
  rw [nominalRate_of_resolve here, nominalRate_of_resolve there]
  rcases nominal.check_perm h with ⟨ok, ok'⟩ | ⟨r, s, bad, bad'⟩
  · rw [ok, ok']
    exact Or.inl ⟨nominal, rfl, rfl⟩
  · rw [bad, bad']
    exact Or.inr ⟨r, s, rfl, rfl⟩

structure SameSeries (chart other : Chart α) : Prop where
  intervals_eq : chart.intervals = other.intervals
  categories_eq : chart.categories = other.categories
  counts_eq : chart.counts = other.counts
  pointCounts_eq : chart.pointCounts = other.pointCounts

theorem sameSeries_ofWindows (nominal : NominalRate) {v w : Windows} (h : events.Perm others)
    (same : List.Forall₂ Window.SamePoints v.all w.all) :
    (ofWindows α events nominal v).SameSeries (ofWindows α others nominal w) := by
  have shows : (ofWindows α events nominal v).IsOf events v := isOf_ofWindows events nominal v
  have shows' : (ofWindows α others nominal w).IsOf others w := isOf_ofWindows others nominal w
  have categories : NameSet.ofList (events.map Event.category) =
      NameSet.ofList (others.map Event.category) :=
    NameSet.ofList_eq_ofList fun c => (h.map Event.category).mem_iff
  have balances : ∀ c, (v.all.map fun u => Endpoint.balance c u.points) =
      w.all.map fun u => Endpoint.balance c u.points :=
    fun c => map_eq_of_samePoints same fun _ _ here => Endpoint.balance_perm here.perm
  constructor
  · rw [shows.intervals_eq, shows'.intervals_eq]
    exact map_eq_of_samePoints same fun _ _ here => here.start_eq
  · exact categories
  · unfold ofWindows assemble
    simp only [Sweep.map_count_buckets, Counts.count_zeroed, List.map_take, balances, categories,
      same.length_eq]
  · rw [shows.pointCounts_eq, shows'.pointCounts_eq]
    exact map_eq_of_samePoints same fun _ _ here => here.perm.length_eq

/-- The same events in another order have the same windows, categories and counts, and each window
is timed by the same endpoints, or both logs are refused; the order only tells which bad rate is
named, and under `firstEvent` which rate is the first. -/
theorem build_perm (h : events.Perm others)
    (first : options.rate = .firstEvent → events.head?.map Event.localRate =
      others.head?.map Event.localRate) :
    (∃ e f, build α events options = .error e ∧ build α others options = .error f ∧ e.SameKind f) ∨
      ∃ chart other : Chart α, build α events options = .ok chart ∧
        build α others options = .ok other ∧
        chart.SameSeries other ∧
        ∃ nominal v w, Windows.forWidth (Endpoint.ofEvents events) options.width = .ok v ∧
          Windows.forWidth (Endpoint.ofEvents others) options.width = .ok w ∧
          chart.IsTimedBy nominal v ∧ other.IsTimedBy nominal w ∧
          List.Forall₂ Window.SamePoints v.all w.all := by
  by_cases empty : events = []
  · subst empty
    obtain rfl := h.nil_eq
    exact Or.inl ⟨_, _, rfl, rfl, .emptyLog⟩
  have empty' : others ≠ [] := by
    rintro rfl
    exact empty h.symm.nil_eq.symm
  have laid := Windows.forWidth_perm options.width (Endpoint.inOrder_ofEvents events)
    (Endpoint.inOrder_ofEvents others) (Endpoint.ofEvents_perm h)
  rcases nominalRate_perm empty h first with ⟨nominal, rate, rate'⟩ | ⟨r, s, bad, bad'⟩
  · rcases laid with ⟨why, refused, refused'⟩ |
        ⟨v, w, made, made', same, ⟨ends, ends'⟩ | ⟨b, broken, broken'⟩⟩
    · rw [build_of_forWidth_error empty refused, build_of_forWidth_error empty' refused',
        rate, rate']
      exact Or.inl ⟨_, _, rfl, rfl, .width why⟩
    · rw [build_of_ends empty made ends, build_of_ends empty' made' ends', rate, rate']
      exact Or.inr ⟨_, _, rfl, rfl, sameSeries_ofWindows nominal h same, nominal, v, w, made, made',
        isTimedBy_ofWindows events nominal v, isTimedBy_ofWindows others nominal w, same⟩
    · rw [build_of_forWidth empty made, build_of_forWidth empty' made', rate, rate']
      exact Or.inl ⟨_, _, overWindows_of_error events nominal broken,
        overWindows_of_error others nominal broken', .sweep b⟩
  · rw [build_eq empty, build_eq empty', bad, bad']
    exact Or.inl ⟨_, _, rfl, rfl, .rate r s⟩

/-- Three transfers, two of which start where the third finishes. -/
def tiedLog : List Event :=
  [⟨"org", "peer", "block", 10, .ofNanos 0, .ofNanos 50, 5, 0, 1⟩,
   ⟨"org", "peer", "nonce", 30, .ofNanos 50, .ofNanos 70, 6, 0, 2⟩,
   ⟨"org", "peer", "block", 20, .ofNanos 50, .ofNanos 120, 7, 0, 3⟩]

theorem build_perm_tied :
    (∃ chart other, build Rat tiedLog ⟨.fixed 50, .perEvent⟩ = .ok chart ∧
      build Rat tiedLog.reverse ⟨.fixed 50, .perEvent⟩ = .ok other ∧ chart.SameSeries other ∧
      other.series "block" = some [1, 1, 0]) ∧
    (Endpoint.ofEvents tiedLog).map Endpoint.id = [1, 1, 2, 3, 2, 3] ∧
    (Endpoint.ofEvents tiedLog.reverse).map Endpoint.id = [1, 3, 2, 1, 2, 3] := by
  refine ⟨?_, by cbv, by cbv⟩
  have shown : ((build Rat tiedLog ⟨.fixed 50, .perEvent⟩).toOption.map fun c => c.series "block") =
      some (some [1, 1, 0]) := by cbv
  have perm : tiedLog.Perm tiedLog.reverse := (List.reverse_perm _).symm
  have unnamed : ChartOptions.rate ⟨.fixed 50, .perEvent⟩ = .firstEvent →
      tiedLog.head?.map Event.localRate = tiedLog.reverse.head?.map Event.localRate := by
    intro first
    cases first
  obtain ⟨chart, built, series_eq⟩ := exists_build_of_shown shown
  rcases @build_perm _ _ Rat _ _ perm unnamed with
      ⟨e, f, refused, -⟩ | ⟨chart', other, built', others, same, -⟩
  · rw [refused] at built
    cases built
  · obtain rfl := Except.ok.inj (built.symm.trans built')
    refine ⟨chart, other, built, others, same, ?_⟩
    rw [series, ← same.counts_eq]
    exact series_eq

end Chart

end InFlight
