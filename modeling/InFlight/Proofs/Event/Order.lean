import InFlight.Event
import InFlight.Proofs.Time.Scale
import Mathlib.Data.List.Basic
/-!
The endpoints of a log: a start and a finish for each event, in order of time, and those of one time
in the order of the log.
-/
namespace InFlight

structure Event.IsPlain (e : Event) : Prop where
  start : e.start.IsPlain
  finish : e.finish.IsPlain

instance (e : Event) : Decidable e.IsPlain :=
  decidable_of_iff (e.start.IsPlain ∧ e.finish.IsPlain) ⟨fun h => ⟨h.1, h.2⟩, fun h => ⟨h.1, h.2⟩⟩

namespace Endpoint

def InOrder (points : List Endpoint) : Prop := points.Pairwise fun p q => p.time ≤ q.time

instance (points : List Endpoint) : Decidable (InOrder points) :=
  inferInstanceAs (Decidable (points.Pairwise fun p q => p.time ≤ q.time))

variable {events : List Event}

theorem earlier_iff (p q : Endpoint) : Earlier p q = true ↔ p.time ≤ q.time := decide_eq_true_iff

theorem earlier_trans (p q r : Endpoint) (pq : Earlier p q) (qr : Earlier q r) : Earlier p r := by
  rw [earlier_iff] at *
  exact le_trans pq qr

theorem earlier_total (p q : Endpoint) : Earlier p q || Earlier q p := by
  rw [Bool.or_eq_true, earlier_iff, earlier_iff]
  exact le_total p.time q.time

theorem inOrder_sort (points : List Endpoint) : InOrder (sort points) :=
  (List.pairwise_mergeSort earlier_trans earlier_total points).imp fun h => (earlier_iff _ _).mp h

section Stable

/-- Endpoints of one time keep their order. -/
theorem filter_time_sort (points : List Endpoint) (t : Instant) :
    ((sort points).filter fun p => p.time = t) = points.filter fun p => p.time = t := by
  have tied : (points.filter fun p => p.time = t).Pairwise fun p q => Earlier p q := by
    apply List.pairwise_of_forall_mem_list
    intro p hp q hq
    rw [earlier_iff, of_decide_eq_true (List.mem_filter.mp hp).2,
      of_decide_eq_true (List.mem_filter.mp hq).2]
  have kept := (List.sublist_mergeSort earlier_trans earlier_total tied List.filter_sublist).filter
    fun p => p.time = t
  rw [List.filter_filter] at kept
  simp only [Bool.and_self] at kept
  exact (kept.eq_of_length ((List.mergeSort_perm points Earlier).filter _).length_eq.symm).symm

theorem mem_iff_of_filter_time {points others : List Endpoint}
    (same : ∀ t, (points.filter fun p => p.time = t) = others.filter fun p => p.time = t)
    (p : Endpoint) :
    p ∈ points ↔ p ∈ others := by
  have here := congrArg (p ∈ ·) (same p.time)
  simpa [List.mem_filter] using here

/-- What stands at each time, and in which order, is all there is to endpoints in order of time. -/
theorem InOrder.eq_of_filter_time {points others : List Endpoint} (h : InOrder points)
    (k : InOrder others) (same : ∀ t, (points.filter fun p => p.time = t) = others.filter fun p =>
      p.time = t) : points = others := by
  have members := mem_iff_of_filter_time same
  induction points generalizing others with
  | nil =>
    cases others with
    | nil => rfl
    | cons q others => exact absurd ((members q).mpr List.mem_cons_self) List.not_mem_nil
  | cons p points ih =>
    cases others with
    | nil => exact absurd ((members p).mp List.mem_cons_self) List.not_mem_nil
    | cons q others =>
      obtain ⟨first, rest⟩ := List.pairwise_cons.mp h
      obtain ⟨first', rest'⟩ := List.pairwise_cons.mp k
      -- each head is among the others, so both stand at the least time of all
      have tied : q.time = p.time := by
        apply le_antisymm
        · rcases List.mem_cons.mp ((members p).mp List.mem_cons_self) with rfl | hp
          · exact le_rfl
          · exact first' p hp
        · rcases List.mem_cons.mp ((members q).mpr List.mem_cons_self) with rfl | hq
          · exact le_rfl
          · exact first q hq
      have heads := same p.time
      rw [List.filter_cons_of_pos (by simp), List.filter_cons_of_pos (by simpa using tied)] at heads
      obtain ⟨rfl, tails⟩ := List.cons.inj heads
      have behind : ∀ t, (points.filter fun x => x.time = t) = others.filter fun x =>
          x.time = t := by
        intro t
        by_cases here : p.time = t
        · exact here ▸ tails
        · have both := same t
          rwa [List.filter_cons_of_neg (by simpa using here),
            List.filter_cons_of_neg (by simpa using here)] at both
      rw [ih rest rest' behind (mem_iff_of_filter_time behind)]

/-- Sorting and leaving out endpoints may change places. -/
theorem filter_sort (kind : Endpoint → Bool) (points : List Endpoint) :
    (sort points).filter kind = sort (points.filter kind) := by
  apply InOrder.eq_of_filter_time ((inOrder_sort points).filter kind) (inOrder_sort _)
  intro t
  rw [filter_time_sort, List.filter_comm, filter_time_sort, List.filter_comm]

end Stable

theorem inOrder_ofEvents (events : List Event) : InOrder (ofEvents events) := inOrder_sort _

@[simp] theorem ofEvents_nil : ofEvents [] = [] := List.mergeSort_nil

theorem perm_ofEvents (events : List Event) :
    (ofEvents events).Perm (events.flatMap Event.endpoints) := List.mergeSort_perm _ _

/-- What changes each event, and its endpoints with it, but not their order in time, changes the
sorted endpoints one by one. -/
theorem ofEvents_map {f : Event → Event} {g : Endpoint → Endpoint}
    (endpoints : ∀ e ∈ events, (f e).endpoints = e.endpoints.map g)
    (order : ∀ p ∈ events.flatMap Event.endpoints, ∀ q ∈ events.flatMap Event.endpoints,
      (g p).time ≤ (g q).time ↔ p.time ≤ q.time) :
    ofEvents (events.map f) = (ofEvents events).map g := by
  have each : (events.map f).flatMap Event.endpoints = (events.flatMap Event.endpoints).map g := by
    rw [List.flatMap_map, List.map_flatMap]
    exact List.flatMap_congr endpoints
  unfold ofEvents sort
  rw [each, List.map_mergeSort]
  intro p hp q hq
  exact decide_eq_decide.mpr (order p hp q hq).symm

theorem mem_ofEvents {p : Endpoint} :
    p ∈ ofEvents events ↔ ∃ e ∈ events, p = e.startpoint ∨ p = e.finishpoint := by
  rw [(perm_ofEvents events).mem_iff, List.mem_flatMap]
  simp [Event.endpoints]

theorem category_mem_of_mem_ofEvents {p : Endpoint} (h : p ∈ ofEvents events) :
    p.category ∈ events.map Event.category := by
  obtain ⟨e, he, rfl | rfl⟩ := mem_ofEvents.mp h
  · exact List.mem_map_of_mem he
  · exact List.mem_map_of_mem he

theorem countP_ofEvents (q : Endpoint → Bool) (events : List Event) :
    (ofEvents events).countP q =
      (events.countP fun e => q e.startpoint) + events.countP fun e => q e.finishpoint := by
  rw [(perm_ofEvents events).countP_eq]
  induction events with
  | nil => rfl
  | cons e events ih =>
    rw [List.flatMap_cons, List.countP_append, ih, List.countP_cons, List.countP_cons]
    simp only [Event.endpoints, List.countP_cons, List.countP_nil]
    omega

/-- Two endpoints for each event. -/
theorem length_ofEvents (events : List Event) : (ofEvents events).length = 2 * events.length := by
  have all := countP_ofEvents (fun _ => true) events
  simp only [List.countP_true] at all
  omega

theorem plain_ofEvents (plain : ∀ e ∈ events, e.IsPlain) :
    ∀ p ∈ ofEvents events, p.time.IsPlain := by
  intro p hp
  obtain ⟨e, he, rfl | rfl⟩ := mem_ofEvents.mp hp
  · exact (plain e he).start
  · exact (plain e he).finish

theorem ofEvents_ne_nil (h : events ≠ []) : ofEvents events ≠ [] := by
  intro empty
  have := length_ofEvents events
  have := List.length_pos_iff.mpr h
  rw [empty] at *
  simp only [List.length_nil] at *
  omega

end Endpoint

end InFlight
