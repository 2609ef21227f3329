import InFlight.Proofs.Chart.Refusal
import InFlight.Proofs.Latency
/-!
Categories as names. Giving the categories of a log other names, one name to several of them
perhaps, leaves its windows and latencies as they are, and the counts under a new name are the sums
of those of the categories that got it.
-/
namespace InFlight

open Endpoint (InOrder)

def Event.relabel (f : String → String) (e : Event) : Event := { e with category := f e.category }
def Endpoint.relabel (f : String → String) (p : Endpoint) :
    Endpoint := { p with category := f p.category }
def Window.relabel (f : String → String) (v : Window) : Window :=
  { v with points := v.points.map (Endpoint.relabel f) }
def Windows.relabel (f : String → String) (w : Windows) : Windows :=
  { w with sorted := w.sorted.map (Endpoint.relabel f) }

variable (f : String → String)

theorem Endpoint.ofEvents_relabel (events : List Event) :
    ofEvents (events.map (Event.relabel f)) = (ofEvents events).map (Endpoint.relabel f) :=
  ofEvents_map (fun _ _ => rfl) fun _ _ _ _ => Iff.rfl

theorem Endpoint.map_time_relabel (points : List Endpoint) :
    (points.map (Endpoint.relabel f)).map Endpoint.time = points.map Endpoint.time := by
  rw [List.map_map]
  rfl

section Balance

/-- In a list without repetitions one name at most has the share of a name. -/
theorem sum_map_ite_of_nodup {names : List String} (once : names.Nodup) (name : String) (n : Int) :
    (names.map fun c => if c = name then n else 0).sum = if name ∈ names then n else 0 := by
  rw [List.sum_map_ite_eq, once.count]
  split <;> simp

/-- Each endpoint of a new name has one of the categories that got it. -/
theorem Endpoint.balance_relabel {names : List String} (once : names.Nodup) {points : List Endpoint}
    (named : ∀ p ∈ points, p.category ∈ names) (name : String) :
    balance name (points.map (relabel f)) =
      ((names.filter fun c => f c = name).map fun c => balance c points).sum := by
  induction points with
  | nil => simp
  | cons p points ih =>
    obtain ⟨here, behind⟩ := List.forall_mem_cons.mp named
    have share := sum_map_ite_of_nodup (once.filter fun c => f c = name) p.category p.delta
    simp only [List.mem_filter, here, true_and, decide_eq_true_eq] at share
    simp only [List.map_cons, balance_cons, List.sum_map_add, ih behind, share]
    congr 1
    exact if_congr eq_comm rfl rfl

end Balance

namespace Windows

variable {sorted : List Endpoint} {w : Windows}

theorem forWidth_relabel (sorted : List Endpoint) (width : Width) :
    forWidth (sorted.map (Endpoint.relabel f)) width = (forWidth sorted width).map (relabel f) := by
  have times := Endpoint.map_time_relabel f sorted
  have first := firstTime_eq_of_times times
  have last := lastTime_eq_of_times times
  have span : spanOf (sorted.map (Endpoint.relabel f)) = spanOf sorted := by
    rw [spanOf, spanOf, first, last]
  unfold forWidth
  dsimp only
  rw [span, first, last]
  cases width.resolve (spanOf sorted) with
  | error why => simp [bind, Except.bind, Except.map]
  | ok step => simp [bind, Except.bind, pure, Except.pure, Except.map, relabel]

theorem all_relabel (order : InOrder sorted) (sortedEq : w.sorted = sorted.toArray) :
    (w.relabel f).all = w.all.map (Window.relabel f) := by
  have order' : InOrder (sorted.map (Endpoint.relabel f)) := List.pairwise_map.mpr order
  unfold all upTo
  rw [List.map_map]
  apply List.map_congr_left
  rintro ⟨start, finish⟩ _
  simp only [relabel, sortedEq, List.map_toArray, Window.select_eq_filter order',
    Window.select_eq_filter order, Function.comp_apply, Window.relabel, List.filter_map]
  rfl

end Windows

namespace Chart

variable {α : Type} {events : List Event}

def mergedCount (f : String → String) (chart : Chart α) (name : String) (i : Nat) : Int :=
  ((chart.categories.toList.filter fun c => f c = name).filterMap fun c => chart.countAt? c i).sum

/-- A chart with its categories under other names; those that get one name are counted together. -/
def relabel (f : String → String) (chart : Chart α) : Chart α :=
  let names := NameSet.ofList (chart.categories.toList.map f)
  { chart with
    categories := names
    counts := names.mapWithName fun name _ =>
      (List.range chart.length).map (chart.mergedCount f name) }

theorem IsOf.mergedCount_eq {chart : Chart α} {w : Windows} {width : Width}
    (shows : chart.IsOf events w)
    (categories : chart.categories = NameSet.ofList (events.map Event.category))
    (made : Windows.forWidth (Endpoint.ofEvents events) width = .ok w) (name : String) {i : Nat}
    (hi : i < w.all.length) : chart.mergedCount f name i =
      Endpoint.balance name (((w.all.take (i + 1)).flatMap Window.points).map
        (Endpoint.relabel f)) := by
  have named : ∀ c ∈ chart.categories.toList, c ∈ events.map Event.category := by
    intro c hc
    rw [categories] at hc
    exact (NameSet.mem_ofList _ c).mp hc
  have counted : ∀ p ∈ (w.all.take (i + 1)).flatMap Window.points,
      p.category ∈ chart.categories.toList := by
    intro p hp
    obtain ⟨v, hv, hp⟩ := List.mem_flatMap.mp hp
    rw [categories, NameSet.mem_ofList]
    exact Endpoint.category_mem_of_mem_ofEvents
      (Windows.mem_of_mem_points made (List.mem_of_mem_take hv) hp)
  rw [Endpoint.balance_relabel f chart.categories.nodup_keys counted, mergedCount,
    ← List.filterMap_eq_map]
  congr 1
  apply List.filterMap_congr
  intro c hc
  exact shows.countAt?_eq (named c (List.mem_of_mem_filter hc)) hi

variable [Arithmetic α]

theorem ofWindows_relabel {w : Windows} {width : Width} (nominal : NominalRate)
    (made : Windows.forWidth (Endpoint.ofEvents events) width = .ok w) :
    ofWindows α (events.map (Event.relabel f)) nominal (w.relabel f) =
      (ofWindows α events nominal w).relabel f := by
  have all := Windows.all_relabel f (Endpoint.inOrder_ofEvents events)
    (Windows.sorted_eq_of_forWidth made)
  have shows : (ofWindows α events nominal w).IsOf events w := isOf_ofWindows events nominal w
  have shows' : (ofWindows α (events.map (Event.relabel f)) nominal (w.relabel f)).IsOf _ _ :=
    isOf_ofWindows _ _ _
  have timed : (ofWindows α events nominal w).IsTimedBy nominal w :=
    isTimedBy_ofWindows events nominal w
  have timed' : (ofWindows α (events.map (Event.relabel f)) nominal (w.relabel f)).IsTimedBy _ _ :=
    isTimedBy_ofWindows _ _ _
  have names : NameSet.ofList ((events.map (Event.relabel f)).map Event.category) =
      NameSet.ofList ((ofWindows α events nominal w).categories.toList.map f) := by
    apply NameSet.ofList_eq_ofList
    intro name
    simp [ofWindows, assemble, NameSet.mem_ofList, Event.relabel]
  have counts (name : String) : ((Sweep.buckets α nominal
      (Counts.zeroed ((Endpoint.ofEvents (events.map (Event.relabel f))).map Endpoint.category))
      (w.relabel f).all).map fun b => b.counts.count name) =
      (List.range (ofWindows α events nominal w).length).map
        ((ofWindows α events nominal w).mergedCount f name) := by
    rw [Sweep.map_count_buckets, all, List.length_map, shows.length_eq]
    apply List.map_congr_left
    intro i hi
    rw [shows.mergedCount_eq f rfl made name (List.mem_range.mp hi),
      Counts.count_zeroed, Int.zero_add, ← List.map_take, ← Endpoint.balance_flatMap,
      List.map_flatMap, List.flatMap_map]
    rfl
  apply Chart.ext
  · rw [shows'.intervals_eq, all, List.map_map]
    exact shows.intervals_eq.symm
  · exact names
  · simp only [ofWindows, assemble] at counts names ⊢
    simp only [counts, names, relabel]
  · rw [timed'.ideal_eq, all, List.map_map]
    have ideal (points : List Endpoint) :=
      Latency.meanIdeal_map (α := α) (f := Endpoint.relabel f) (fun _ => rfl)
      (fun _ => rfl) nominal points
    simp only [Function.comp_def, Window.relabel, ideal]
    exact timed.ideal_eq.symm
  · rw [timed'.real_eq, all, List.map_map]
    have real (points : List Endpoint) :=
      Latency.meanReal_map (α := α) (f := Endpoint.relabel f) (fun _ => rfl) points
    simp only [Function.comp_def, Window.relabel, real]
    exact timed.real_eq.symm
  · rw [shows'.pointCounts_eq, all, List.map_map]
    simp only [Function.comp_def, Window.relabel, List.length_map]
    exact shows.pointCounts_eq.symm

theorem overWindows_relabel {w : Windows} {width : Width} (nominal : NominalRate)
    (made : Windows.forWidth (Endpoint.ofEvents events) width = .ok w) :
    overWindows α (events.map (Event.relabel f)) nominal (w.relabel f) =
      (overWindows α events nominal w).map (relabel f) := by
  have all := Windows.all_relabel f (Endpoint.inOrder_ofEvents events)
    (Windows.sorted_eq_of_forWidth made)
  have finishes : (w.relabel f).all.map Window.finish = w.all.map Window.finish := by
    rw [all, List.map_map]
    rfl
  have stepping : (w.relabel f).stepping = w.stepping := rfl
  have last : (w.relabel f).last = w.last := rfl
  rcases Windows.ends_or_error_of_same stepping last finishes with
    ⟨ends', ends⟩ | ⟨b, broken', broken⟩
  · rw [overWindows_of_ends _ _ ends', overWindows_of_ends _ _ ends,
      ofWindows_relabel f nominal made]
    rfl
  · rw [overWindows_of_error _ _ broken', overWindows_of_error _ _ broken]
    rfl

/-- Renaming the categories of a log renames those of its chart, and changes nothing else about the
result: the same refusal, or the same windows, endpoint counts and latencies, with the counts of the
categories of one name summed up. -/
theorem build_relabel (options : ChartOptions) :
    build α (events.map (Event.relabel f)) options = (build α events options).map (relabel f) := by
  by_cases empty : events = []
  · subst empty
    rfl
  have some_event' : events.map (Event.relabel f) ≠ [] :=
    fun none_ => empty (List.map_eq_nil_iff.mp none_)
  have rate : nominalRate (events.map (Event.relabel f)) options.rate =
      nominalRate events options.rate :=
    nominalRate_map (f := Event.relabel f) (fun _ => rfl) (fun _ => rfl) _
  rw [build_eq some_event', build_eq empty, rate, Endpoint.ofEvents_relabel,
    Windows.forWidth_relabel]
  cases nominalRate events options.rate with
  | error e => rfl
  | ok nominal =>
    cases made : Windows.forWidth (Endpoint.ofEvents events) options.width with
    | error why => rfl
    | ok w => exact overWindows_relabel f nominal made

/-- Two categories under one name: of two transfers one is left in the first window, and none in the
second. -/
example : ((build Rat [⟨"org", "peer", "block", 10, .ofNanos 0, .ofNanos 40, 5, 7, 1⟩,
    ⟨"org", "peer", "vote", 10, .ofNanos 0, .ofNanos 90, 5, 7, 2⟩] ⟨.fixed 50,
    .firstEvent⟩).toOption.bind fun chart =>
      (chart.relabel fun _ => "any").series "any") = some [1, 0] := by
  cbv

end Chart

end InFlight
