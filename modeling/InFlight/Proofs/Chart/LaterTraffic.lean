import InFlight.Proofs.Chart.Refusal
import InFlight.Proofs.Window.Walk
/-!
Traffic that comes later. Under a fixed width a window that has ended is settled: transfers that
start and finish afterwards, wherever the log has them, leave what the chart says of it as it was.
-/
namespace InFlight

/-- The second log is the first one with events added to it, each of which starts and finishes after
an instant. -/
inductive Event.AddedAfter (t : Instant) : List Event → List Event → Prop where
  | nil : AddedAfter t [] []
  | keep {events later : List Event} (e : Event) : AddedAfter t events later →
      AddedAfter t (e :: events) (e :: later)
  | add {events later : List Event} {e : Event} : t < e.start → t < e.finish →
      AddedAfter t events later →
      AddedAfter t events (e :: later)

variable {t : Instant} {events later : List Event}

namespace Event.AddedAfter

theorem sublist (h : AddedAfter t events later) : events.Sublist later := by
  induction h with
  | nil => exact .slnil
  | keep e _ ih => exact ih.cons_cons e
  | add _ _ _ ih => exact ih.cons _

/-- Up to the instant the logs have the same endpoints. -/
theorem filter_endpoints (h : AddedAfter t events later) {kind : Endpoint → Bool}
    (upTo : ∀ p, kind p → p.time ≤ t) :
    (later.flatMap Event.endpoints).filter kind = (events.flatMap Event.endpoints).filter kind := by
  induction h with
  | nil => rfl
  | keep e _ ih =>
    rw [List.flatMap_cons, List.flatMap_cons, List.filter_append, List.filter_append, ih]
  | @add events later e starts finishes _ ih =>
    have none_ : e.endpoints.filter kind = [] := by
      rw [List.filter_eq_nil_iff]
      intro p hp reached
      have le := upTo p reached
      simp only [Event.endpoints, List.mem_cons, List.not_mem_nil, or_false] at hp
      rcases hp with rfl | rfl
      · exact absurd starts (not_lt.mpr le)
      · exact absurd finishes (not_lt.mpr le)
    rw [List.flatMap_cons, List.filter_append, none_, ih, List.nil_append]

theorem filter_ofEvents (h : AddedAfter t events later) {kind : Endpoint → Bool}
    (upTo : ∀ p, kind p → p.time ≤ t) :
    (Endpoint.ofEvents later).filter kind = (Endpoint.ofEvents events).filter kind := by
  rw [Endpoint.ofEvents, Endpoint.ofEvents, Endpoint.filter_sort, Endpoint.filter_sort,
    h.filter_endpoints upTo]

theorem mem_ofEvents (h : AddedAfter t events later) {p : Endpoint}
    (hp : p ∈ Endpoint.ofEvents events) :
    p ∈ Endpoint.ofEvents later := by
  obtain ⟨e, he, which⟩ := Endpoint.mem_ofEvents.mp hp
  exact Endpoint.mem_ofEvents.mpr ⟨e, h.sublist.subset he, which⟩

theorem ne_nil (h : AddedAfter t events later) (some_event : events ≠ []) : later ≠ [] := by
  rintro rfl
  exact some_event (List.sublist_nil.mp h.sublist)

end Event.AddedAfter

namespace Windows

open Endpoint (ofEvents inOrder_ofEvents ofEvents_ne_nil)

variable {w w' : Windows} {width : Int}

theorem firstTime_filter {sorted : List Endpoint} (some_point : sorted ≠ [])
    (reached : firstTime sorted ≤ t) :
    firstTime (sorted.filter fun p => p.time ≤ t) = firstTime sorted := by
  obtain ⟨p, rest, rfl⟩ := List.exists_cons_of_ne_nil some_point
  have here : p.time ≤ t := reached
  rw [List.filter_cons_of_pos (by simpa using here)]
  rfl

theorem firstTime_of_addedAfter (h : Event.AddedAfter t events later) (some_event : events ≠ [])
    (reached : firstTime (ofEvents events) ≤ t) :
    firstTime (ofEvents later) = firstTime (ofEvents events) := by
  have reached' : firstTime (ofEvents later) ≤ t := by
    obtain ⟨p, hp, first⟩ := exists_mem_of_firstTime (ofEvents_ne_nil some_event)
    exact le_trans (firstTime_le (inOrder_ofEvents later) (h.mem_ofEvents hp)) (first ▸ reached)
  rw [← firstTime_filter (ofEvents_ne_nil (h.ne_nil some_event)) reached',
    ← firstTime_filter (ofEvents_ne_nil some_event) reached, h.filter_ofEvents fun p le =>
      of_decide_eq_true le]

theorem lastTime_le_of_addedAfter (h : Event.AddedAfter t events later) (some_event : events ≠ []) :
    lastTime (ofEvents events) ≤ lastTime (ofEvents later) := by
  obtain ⟨p, hp, last⟩ := exists_mem_of_lastTime (ofEvents_ne_nil some_event)
  rw [← last]
  exact le_lastTime (inOrder_ofEvents later) (h.mem_ofEvents hp)

theorem select_of_addedAfter (h : Event.AddedAfter t events later) {start finish : Instant}
    (ended : finish ≤ t) :
    Window.select (ofEvents later).toArray start finish =
      Window.select (ofEvents events).toArray start finish := by
  rw [Window.select_eq_filter (inOrder_ofEvents later),
    Window.select_eq_filter (inOrder_ofEvents events)]
  apply h.filter_ofEvents
  intro p within
  exact le_trans (of_decide_eq_true within).2 ended

/-- A window that has ended is settled, and so are all before it. -/
theorem take_all_of_addedAfter (h : Event.AddedAfter t events later) (some_event : events ≠ [])
    (made : forWidth (ofEvents events) (.fixed width) = .ok w)
    (made' : forWidth (ofEvents later) (.fixed width) = .ok w') (ends : w.Ends)
    {i : Nat} {v : Window} (window : w.all[i]? = some v) (ended : v.finish ≤ t) :
    w'.all.take (i + 1) = w.all.take (i + 1) := by
  have walks := walks_of_forWidth (inOrder_ofEvents events) made
  have walks' := walks_of_forWidth (inOrder_ofEvents later) made'
  have reach := walks.arrives_iff.mp ((ends_iff_arrives (stepping_of_forWidth_fixed made)).mp ends)
  rw [walks.all_eq, List.getElem?_map] at window
  obtain ⟨b, here, rfl⟩ := Option.map_eq_some_iff.mp window
  obtain ⟨within, -⟩ := List.getElem?_eq_some_iff.mp here
  have reached : firstTime (ofEvents events) ≤ t :=
    le_of_lt (lt_of_lt_of_le (reach.lt_finish walks.positive (List.mem_of_getElem? here)) ended)
  have last := lastTime_le_of_addedAfter h some_event
  have first := firstTime_of_addedAfter h some_event reached
  have most : ((lastTime (ofEvents events)).ticks - (firstTime (ofEvents events)).ticks).toNat ≤
      ((lastTime (ofEvents later)).ticks - (firstTime (ofEvents events)).ticks).toNat := by
    rw [Instant.le_iff] at last
    omega
  obtain ⟨further, walk⟩ :=
    @fixedBounds_further width _ _ _ _ last most (firstTime (ofEvents events))
  rw [walks.all_eq, walks'.all_eq, first, ← walk, ← List.map_take, ← List.map_take,
    List.take_append_of_le_length within]
  apply List.map_congr_left
  intro c hc
  rw [select_of_addedAfter h (le_trans (reach.finish_le walks.positive here hc) ended)]

end Windows

theorem getElem?_eq_of_take_eq {β : Type} {l other : List β} {i : Nat}
    (past : other.take (i + 1) = l.take (i + 1)) :
    other[i]? = l[i]? := by
  rw [← List.getElem?_take_of_lt (Nat.lt_succ_self i), past,
    List.getElem?_take_of_lt (Nat.lt_succ_self i)]

namespace Chart

open Endpoint (ofEvents)

variable {α : Type} [Arithmetic α]

/-- Two charts show the same of a window. They have the same counts for the categories of one log,
and none for those that only the other has. -/
structure AgreeAt (events later : List Event) (chart other : Chart α) (i : Nat) : Prop where
  within : i < chart.length
  interval_eq : other.intervals[i]? = chart.intervals[i]?
  pointCount_eq : other.pointCounts[i]? = chart.pointCounts[i]?
  ideal_eq : other.ideal[i]? = chart.ideal[i]?
  real_eq : other.real[i]? = chart.real[i]?
  count_eq : ∀ c ∈ events.map Event.category, ∃ n, chart.countAt? c i = some n ∧
    other.countAt? c i = some n
  new_count_eq : ∀ c ∈ later.map Event.category, c ∉ events.map Event.category →
    other.countAt? c i = some 0

variable {width : Int} {rate rate' : RatePolicy} {nominal : NominalRate} {chart other : Chart α}
  {w w' : Windows}

theorem agreeAt_of_take_all (shows : chart.IsOf events w) (timed : chart.IsTimedBy nominal w)
    (shows' : other.IsOf later w') (timed' : other.IsTimedBy nominal w')
    (h : Event.AddedAfter t events later)
    (made : Windows.forWidth (ofEvents events) (.fixed width) = .ok w) {i : Nat}
    (within : i < w.all.length) (within' : i < w'.all.length)
    (past : w'.all.take (i + 1) = w.all.take (i + 1)) :
    AgreeAt events later chart other i := by
  have here := getElem?_eq_of_take_eq past
  constructor
  · rw [shows.length_eq]
    exact within
  · rw [shows.intervals_eq, shows'.intervals_eq, List.getElem?_map, List.getElem?_map, here]
  · rw [shows.pointCounts_eq, shows'.pointCounts_eq, List.getElem?_map, List.getElem?_map, here]
  · rw [timed.ideal_eq, timed'.ideal_eq, List.getElem?_map, List.getElem?_map, here]
  · rw [timed.real_eq, timed'.real_eq, List.getElem?_map, List.getElem?_map, here]
  · intro c hc
    refine ⟨_, shows.countAt?_eq hc within, ?_⟩
    rw [shows'.countAt?_eq ((h.sublist.map _).subset hc) within', past]
  · intro c hc new
    rw [shows'.countAt?_eq hc within', past, Endpoint.balance_eq_zero]
    intro p hp
    obtain ⟨v, hv, hp⟩ := List.mem_flatMap.mp hp
    have inLog := Windows.mem_of_mem_points made (List.mem_of_mem_take hv) hp
    rintro rfl
    exact new (Endpoint.category_mem_of_mem_ofEvents inLog)

/-- Traffic after an instant does not bear on the windows that have ended by then: the longer log
has the same windows in the same places, with the same endpoints in the same order, and its chart
shows the same of them. -/
theorem build_addedAfter (h : Event.AddedAfter t events later)
    (same : rate.resolve events = rate'.resolve later)
    (built : build α events ⟨.fixed width, rate⟩ = .ok chart)
    (built' : build α later ⟨.fixed width, rate'⟩ = .ok other) :
    ∃ w w', Windows.forWidth (ofEvents events) (.fixed width) = .ok w ∧
      Windows.forWidth (ofEvents later) (.fixed width) = .ok w' ∧
      ∀ i v, w.all[i]? = some v → v.finish ≤ t → w'.all[i]? = some v ∧
        AgreeAt events later chart other i := by
  obtain ⟨some_event, nominal, w, rated, made, ends, rfl⟩ := build_eq_ok_iff.mp built
  obtain ⟨-, nominal', w', rated', made', -, rfl⟩ := build_eq_ok_iff.mp built'
  obtain rfl : nominal = nominal' := by
    rw [resolve_of_nominalRate rated, resolve_of_nominalRate rated'] at same
    exact Except.ok.inj same
  refine ⟨w, w', made, made', fun i v window ended => ?_⟩
  have past := Windows.take_all_of_addedAfter h some_event made made' ends window ended
  have here : w'.all[i]? = some v := (getElem?_eq_of_take_eq past).trans window
  obtain ⟨within, -⟩ := List.getElem?_eq_some_iff.mp window
  obtain ⟨within', -⟩ := List.getElem?_eq_some_iff.mp here
  exact ⟨here, agreeAt_of_take_all (isOf_ofWindows events nominal w)
    (isTimedBy_ofWindows events nominal w)
    (isOf_ofWindows later nominal w') (isTimedBy_ofWindows later nominal w') h made
      within within' past⟩

def earlierLog : List Event :=
  [⟨"org", "peer", "block", 10, .ofNanos 0, .ofNanos 50, 5, 7, 1⟩,
   ⟨"peer", "org", "nonce", 30, .ofNanos 0, .ofNanos 90, 5, 0, 2⟩]

def longerLog : List Event :=
  [⟨"org", "peer", "vote", 20, .ofNanos 60, .ofNanos 170, 5, 0, 3⟩,
   ⟨"org", "peer", "block", 10, .ofNanos 0, .ofNanos 50, 5, 7, 1⟩,
   ⟨"peer", "org", "block", 40, .ofNanos 55, .ofNanos 51, 9, 0, 4⟩,
   ⟨"peer", "org", "nonce", 30, .ofNanos 0, .ofNanos 90, 5, 0, 2⟩]

theorem build_addedAfter_longerLog :
    ∃ chart other, build Rat earlierLog ⟨.fixed 50, .firstEvent⟩ = .ok chart ∧
      build Rat longerLog ⟨.fixed 50, .firstEvent⟩ = .ok other ∧
      AgreeAt earlierLog longerLog chart other 0 ∧ chart.pointCounts = [3, 2] ∧
      other.pointCounts = [3, 5, 0, 1] := by
  have shown : ((build Rat earlierLog ⟨.fixed 50, .firstEvent⟩).toOption.map Chart.pointCounts) =
      some [3, 2] := by cbv
  have shown' : ((build Rat longerLog ⟨.fixed 50, .firstEvent⟩).toOption.map Chart.pointCounts) =
      some [3, 5, 0, 1] := by
    cbv
  obtain ⟨chart, built, counts⟩ := exists_build_of_shown shown
  obtain ⟨other, built', counts'⟩ := exists_build_of_shown shown'
  have added : Event.AddedAfter (.ofNanos 50) earlierLog longerLog :=
    .add (by decide) (by decide) (.keep _ (.add (by decide) (by decide) (.keep _ .nil)))
  obtain ⟨w, w', made, -, past⟩ := build_addedAfter added rfl built built'
  have first : ((Windows.forWidth (ofEvents earlierLog) (.fixed 50)).toOption.bind fun w =>
      w.all[0]?.map Window.finish) = some (.ofNanos 50) := by cbv
  rw [made] at first
  obtain ⟨v, window, finish⟩ := Option.map_eq_some_iff.mp first
  exact ⟨chart, other, built, built', (past 0 v window (le_of_eq finish)).2, counts, counts'⟩

end Chart

end InFlight
