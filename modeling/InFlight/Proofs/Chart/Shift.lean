import InFlight.Proofs.Chart.Refusal
import InFlight.Proofs.Latency
/-!
A log moved in time. Windows are laid relative to the first endpoint, so they move along, save that
a window is cut off at the end of the calendar. Only the last window can be, and it holds the last
endpoint all the same.
-/
namespace InFlight

open Endpoint (InOrder)
open Instant (ofNanos)

def Event.shift (d : Int) (e : Event) : Event :=
  { e with start := e.start.plus d, finish := e.finish.plus d }
def Endpoint.shift (d : Int) (p : Endpoint) : Endpoint := { p with time := p.time.plus d }

variable {d : Int}

theorem Event.IsPlain.endpoints_shift {e : Event} (plain : e.IsPlain) (d : Int) :
    (e.shift d).endpoints = e.endpoints.map (Endpoint.shift d) := by
  have elapsed : (e.shift d).elapsed = e.elapsed :=
    Instant.since_plus plain.start.noLeap plain.finish.noLeap d
  simp only [endpoints, startpoint, finishpoint, endpoint, elapsed, List.map_cons, List.map_nil]
  rfl

theorem Endpoint.ofEvents_shift {events : List Event} (plain : ∀ e ∈ events, e.IsPlain) (d : Int) :
    ofEvents (events.map (Event.shift d)) = (ofEvents events).map (Endpoint.shift d) := by
  have noLeap : ∀ p ∈ events.flatMap Event.endpoints, p.time.isLeap = false := by
    intro p hp
    exact (plain_ofEvents plain p ((perm_ofEvents events).mem_iff.mpr hp)).noLeap
  apply ofEvents_map
  · exact fun e he => (plain e he).endpoints_shift d
  · exact fun p hp q hq => Instant.plus_le_plus_iff (noLeap p hp) (noLeap q hq) d

theorem Endpoint.InOrder.shift {sorted : List Endpoint} (order : InOrder sorted)
    (plain : ∀ p ∈ sorted, p.time.IsPlain) (d : Int) : InOrder (sorted.map (Endpoint.shift d)) := by
  apply List.pairwise_map.mpr
  apply List.Pairwise.imp_of_mem _ order
  intro p q hp hq le
  exact (Instant.plus_le_plus_iff (plain p hp).noLeap (plain q hq).noLeap d).mpr le

/-- A window later by `d` whose endpoints are the same, later by `d`. Its finish only matters for
them. -/
structure Window.IsShifted (d : Int) (v w : Window) : Prop where
  start_eq : w.start = v.start.plus d
  points_eq : w.points = v.points.map (Endpoint.shift d)

namespace Windows

def shift (d : Int) (w : Windows) : Windows :=
  { w with
    sorted := w.sorted.map (Endpoint.shift d)
    first := w.first.plus d
    last := w.last.plus d }

variable {sorted : List Endpoint} {w : Windows} {width : Width}

theorem firstTime_shift (some_point : sorted ≠ []) :
    firstTime (sorted.map (Endpoint.shift d)) = (firstTime sorted).plus d := by
  obtain ⟨p, rest, rfl⟩ := List.exists_cons_of_ne_nil some_point
  rfl

theorem lastTime_shift (some_point : sorted ≠ []) :
    lastTime (sorted.map (Endpoint.shift d)) = (lastTime sorted).plus d := by
  unfold lastTime
  rw [List.getLast?_map, List.getLast?_eq_some_getLast some_point]
  rfl

theorem forWidth_shift (some_point : sorted ≠ []) (plain : ∀ p ∈ sorted, p.time.IsPlain) :
    forWidth (sorted.map (Endpoint.shift d)) width = (forWidth sorted width).map (shift d) := by
  have span : spanOf (sorted.map (Endpoint.shift d)) = spanOf sorted := by
    rw [spanOf, spanOf, firstTime_shift some_point, lastTime_shift some_point]
    exact Instant.since_plus (plain_firstTime plain).noLeap (plain_lastTime plain).noLeap d
  unfold forWidth
  dsimp only
  rw [span, firstTime_shift some_point, lastTime_shift some_point]
  cases width.resolve (spanOf sorted) with
  | error why => simp [bind, Except.bind, Except.map]
  | ok step => simp [bind, Except.bind, pure, Except.pure, Except.map, shift]

/-- A boundary before the last endpoint is not cut off, neither before the move nor after it. -/
theorem exists_edge_shift (first : w.first.IsPlain) (last : w.last.IsPlain)
    (first' : (w.first.plus d).IsPlain) (last' : (w.last.plus d).IsPlain) (fits : w.Fits) {k : Nat}
    (before : w.edge k < w.last) :
    ∃ n, w.edge k = ofNanos n ∧ (w.shift d).edge k = ofNanos (n + d) := by
  obtain ⟨f, firstEq, hf, -⟩ := first.exists_ofNanos
  obtain ⟨l, lastEq, -, hl⟩ := last.exists_ofNanos
  rw [firstEq, Instant.plus_ofNanos, Instant.isPlain_ofNanos] at first'
  rw [lastEq, Instant.plus_ofNanos, Instant.isPlain_ofNanos] at last'
  unfold Fits at fits
  unfold edge shift at *
  dsimp only at *
  rw [firstEq, Instant.plus_ofNanos]
  cases stepping : w.stepping with
  | fixed step =>
    rw [stepping] at fits before
    have offset : 0 ≤ (k : Int) * step := Int.mul_nonneg (Int.natCast_nonneg k) (Int.le_of_lt fits)
    dsimp only at before ⊢
    rw [firstEq, lastEq, Instant.plusWithin_ofNanos hf offset, Instant.ofNanos_lt_ofNanos] at before
    refine ⟨f + k * step, ?_, ?_⟩
    · rw [Instant.plusWithin_ofNanos hf offset, min_eq_left (by omega)]
    · rw [Instant.plusWithin_ofNanos first'.1 offset, min_eq_left (by omega)]
      congr 1
      omega
  | divided n span =>
    refine ⟨f + k * span / n, Instant.plus_ofNanos f _, ?_⟩
    dsimp only
    rw [boundary, Instant.plus_ofNanos]
    congr 1
    omega

theorem count_shift (first : w.first.IsPlain) (last : w.last.IsPlain) :
    (w.shift d).count = w.count := by
  have span : (w.last.plus d).since (w.first.plus d) = w.last.since w.first :=
    Instant.since_plus first.noLeap last.noLeap d
  simp only [count, shift, span]

section Laid

variable (order : InOrder sorted) (plain : ∀ p ∈ sorted, p.time.IsPlain)
  (plain' : ∀ p ∈ sorted.map (Endpoint.shift d), p.time.IsPlain) (some_point : sorted ≠ [])
  (made : forWidth sorted width = .ok w)

include plain some_point made

theorem forWidth_shift_eq_ok : forWidth (sorted.map (Endpoint.shift d)) width =
    .ok (w.shift d) := by
  rw [forWidth_shift some_point plain, made]
  rfl

include plain'

theorem exists_edge_of_forWidth {k : Nat} (before : w.edge k < lastTime sorted) :
    ∃ n, w.edge k = ofNanos n ∧ (w.shift d).edge k = ofNanos (n + d) := by
  have fits := fits_of_forWidth made
  have first' := plain_firstTime plain'
  have last' := plain_lastTime plain'
  rw [firstTime_shift some_point] at first'
  rw [lastTime_shift some_point] at last'
  obtain ⟨step, -, rfl⟩ := forWidth_eq_ok_iff.mp made
  exact exists_edge_shift (plain_firstTime plain) (plain_lastTime plain) first' last' fits before

include order

theorem isShifted_window {k : Nat} (hk : k < w.count) (same : (w.shift d).count = w.count) :
    (w.window k).IsShifted d ((w.shift d).window k) := by
  have order' := order.shift plain d
  have laid := isLaidOver_of_forWidth order plain made
  have laid' := isLaidOver_of_forWidth order' plain' (forWidth_shift_eq_ok plain some_point made)
  have edges : ∀ j < w.count, ∃ n, w.edge j = ofNanos n ∧ (w.shift d).edge j = ofNanos (n + d) :=
    fun j hj => exists_edge_of_forWidth plain plain' some_point made (laid.grid.edge_lt_last j hj)
  have below : ∀ p ∈ sorted, (w.shift d).edge k ≤ p.time.plus d ↔ w.edge k ≤ p.time := by
    intro p hp
    obtain ⟨n, here, there⟩ := edges k hk
    rw [here, there, ← Instant.plus_ofNanos]
    exact Instant.plus_le_plus_iff (Instant.isLeap_ofNanos n) (plain p hp).noLeap d
  have above : ∀ p ∈ sorted, p.time.plus d ≤ (w.shift d).edge (k + 1) ↔
      p.time ≤ w.edge (k + 1) := by
    intro p hp
    by_cases inner : k + 1 < w.count
    · obtain ⟨n, here, there⟩ := edges (k + 1) inner
      rw [here, there, ← Instant.plus_ofNanos]
      exact Instant.plus_le_plus_iff (plain p hp).noLeap (Instant.isLeap_ofNanos n) d
    · -- either end may be cut off, but both reach the last endpoint
      have end_ : k + 1 = w.count := by omega
      have reach' := laid'.grid.last_le_edge
      rw [same] at reach'
      rw [end_]
      apply iff_of_true
      · exact le_trans (le_lastTime order' (List.mem_map_of_mem hp)) reach'
      · exact le_trans (le_lastTime order hp) laid.grid.last_le_edge
  constructor
  · obtain ⟨n, here, there⟩ := edges k hk
    change (w.shift d).edge k = (w.edge k).plus d
    rw [here, there, Instant.plus_ofNanos]
  · rw [laid.points_eq, laid'.points_eq, List.filter_map]
    congr 1
    apply List.filter_congr
    intro p hp
    rw [Function.comp_apply, decide_eq_decide]
    exact and_congr (below p hp) (above p hp)

theorem isShifted_all : List.Forall₂ (Window.IsShifted d) w.all (w.shift d).all := by
  have laid := isLaidOver_of_forWidth order plain made
  have laid' := isLaidOver_of_forWidth (order.shift plain d) plain'
    (forWidth_shift_eq_ok plain some_point made)
  have same : (w.shift d).count = w.count := by
    obtain ⟨step, -, rfl⟩ := forWidth_eq_ok_iff.mp made
    exact count_shift (plain_firstTime plain) (plain_lastTime plain)
  rw [laid.all_eq, laid'.all_eq, same, List.forall₂_map_left_iff, List.forall₂_map_right_iff]
  apply List.forall₂_same.mpr
  intro k hk
  exact isShifted_window order plain plain' some_point made (List.mem_range.mp hk) same

end Laid

end Windows

section Sweep

variable {α : Type} [Arithmetic α]

theorem Counts.advance_shift (c : Counts) (points : List Endpoint) (d : Int) :
    c.advance (points.map (Endpoint.shift d)) = c.advance points := by
  unfold Counts.advance
  rw [List.foldl_map]
  rfl

def Bucket.shift (d : Int) (b : Bucket α) : Bucket α := { b with start := b.start.plus d }

theorem Sweep.bucket_shift {v w : Window} (moved : v.IsShifted d w) (nominal : NominalRate)
    (counts : Counts) :
    bucket α nominal counts w = (bucket α nominal counts v).shift d := by
  have ideal := Latency.meanIdeal_map (α := α) (f := Endpoint.shift d) (fun _ => rfl) (fun _ =>
    rfl) nominal v.points
  have real := Latency.meanReal_map (α := α) (f := Endpoint.shift d) (fun _ => rfl) v.points
  simp only [bucket, Bucket.shift, moved.start_eq, moved.points_eq, List.length_map, ideal, real]

/-- The counts run on alike, since no window brings other starts or finishes. -/
theorem Sweep.buckets_shift {vs ws : List Window} (moved : List.Forall₂ (Window.IsShifted d) vs ws)
    (nominal : NominalRate) (counts : Counts) :
    buckets α nominal counts ws = (buckets α nominal counts vs).map (Bucket.shift d) := by
  induction moved generalizing counts with
  | nil => rfl
  | cons here _ ih =>
    rw [buckets, buckets, List.map_cons, ih, here.points_eq, Counts.advance_shift,
      bucket_shift here]

end Sweep

namespace Chart

variable {α : Type} {events : List Event} {options : ChartOptions}

def shift (d : Int) (c : Chart α) : Chart α :=
  { c with intervals := c.intervals.map fun t => t.plus d }

theorem assemble_shift (categories : NameSet) (buckets : List (Bucket α)) :
    assemble categories (buckets.map (Bucket.shift d)) = (assemble categories buckets).shift d := by
  simp only [assemble, shift, List.map_map]
  rfl

variable [Arithmetic α]

theorem ofWindows_shift {v w : Windows} (plain : ∀ e ∈ events, e.IsPlain) (nominal : NominalRate)
    (moved : List.Forall₂ (Window.IsShifted d) v.all w.all) :
    ofWindows α (events.map (Event.shift d)) nominal w =
      (ofWindows α events nominal v).shift d := by
  have categories : (events.map (Event.shift d)).map Event.category =
      events.map Event.category := by
    rw [List.map_map]
    rfl
  have names : ((Endpoint.ofEvents events).map (Endpoint.shift d)).map Endpoint.category =
      (Endpoint.ofEvents events).map Endpoint.category := by
    rw [List.map_map]
    rfl
  rw [ofWindows, ofWindows, categories, Endpoint.ofEvents_shift plain, names,
    Sweep.buckets_shift moved, assemble_shift]

/-- A log moved within the calendar has the chart of the log, moved, or is refused as the log is.
Only its windows are elsewhere: categories, counts, endpoint counts and latencies stay as they
are. -/
theorem build_shift (d : Int) (plain : ∀ e ∈ events, e.IsPlain)
    (moved : ∀ e ∈ events, (e.shift d).IsPlain) :
    build α (events.map (Event.shift d)) options = (build α events options).map (shift d) := by
  by_cases empty : events = []
  · subst empty
    rfl
  have some_point := Endpoint.ofEvents_ne_nil empty
  have plain' : ∀ p ∈ (Endpoint.ofEvents events).map (Endpoint.shift d), p.time.IsPlain := by
    rw [← Endpoint.ofEvents_shift plain]
    apply Endpoint.plain_ofEvents
    intro e' he'
    obtain ⟨e, he, rfl⟩ := List.mem_map.mp he'
    exact moved e he
  have rate : nominalRate (events.map (Event.shift d)) options.rate =
      nominalRate events options.rate :=
    nominalRate_map (f := Event.shift d) (fun _ => rfl) (fun _ => rfl) _
  have some_event' : events.map (Event.shift d) ≠ [] :=
    fun none_ => empty (List.map_eq_nil_iff.mp none_)
  rw [build_eq some_event', build_eq empty, rate, Endpoint.ofEvents_shift plain,
    Windows.forWidth_shift some_point (Endpoint.plain_ofEvents plain)]
  cases nominalRate events options.rate with
  | error e => rfl
  | ok nominal =>
    cases made : Windows.forWidth (Endpoint.ofEvents events) options.width with
    | error why => rfl
    | ok v =>
      have all := Windows.isShifted_all (Endpoint.inOrder_ofEvents events)
        (Endpoint.plain_ofEvents plain) plain'
        some_point made
      have made' : Windows.forWidth ((Endpoint.ofEvents events).map (Endpoint.shift d))
          options.width =
          .ok (v.shift d) := by
        rw [Windows.forWidth_shift some_point (Endpoint.plain_ofEvents plain), made]
        rfl
      have order' : Endpoint.InOrder ((Endpoint.ofEvents events).map (Endpoint.shift d)) :=
        Endpoint.ofEvents_shift plain d ▸ Endpoint.inOrder_ofEvents _
      change overWindows α _ nominal (v.shift d) = (overWindows α events nominal v).map (shift d)
      rw [overWindows_of_ends _ _ (Windows.ends_ofEvents plain made),
        overWindows_of_ends _ _ (Windows.ends_of_plain order' plain' made')]
      exact congrArg Except.ok (ofWindows_shift plain nominal all)

def lateLog : List Event :=
  [⟨"org", "peer", "block", 10, .ofNanos 8210266876799999999939,
    .ofNanos 8210266876799999999989, 5, 0, 1⟩,
    ⟨"org", "peer", "nonce", 30, .ofNanos 8210266876799999999959,
      .ofNanos 8210266876799999999979, 6, 0, 2⟩]

theorem build_shift_late :
    (∃ chart, build Rat lateLog ⟨.fixed 40, .perEvent⟩ = .ok chart ∧
      chart.series "block" = some [1, 0] ∧
      build Rat (lateLog.map (Event.shift (-100))) ⟨.fixed 40, .perEvent⟩ =
        .ok (chart.shift (-100))) ∧
    ((Windows.forWidth (Endpoint.ofEvents lateLog) (.fixed 40)).toOption.map fun w =>
      w.all.map Window.finish) =
      some [.ofNanos 8210266876799999999979, .last] ∧
    ((Windows.forWidth (Endpoint.ofEvents (lateLog.map (Event.shift (-100))))
      (.fixed 40)).toOption.map fun w =>
      w.all.map Window.finish) = some [.ofNanos 8210266876799999999879,
      .ofNanos 8210266876799999999919] := by
  refine ⟨?_, by cbv, by cbv⟩
  have shown : ((build Rat lateLog ⟨.fixed 40, .perEvent⟩).toOption.map fun c => c.series "block") =
      some (some [1, 0]) := by cbv
  have moved : build Rat (lateLog.map (Event.shift (-100))) ⟨.fixed 40, .perEvent⟩ = _ :=
    build_shift (-100) (by decide) (by decide)
  obtain ⟨chart, built, series_eq⟩ := exists_build_of_shown shown
  rw [built] at moved
  exact ⟨chart, built, series_eq, moved⟩

end Chart

end InFlight
