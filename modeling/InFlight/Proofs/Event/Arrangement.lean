import InFlight.Proofs.Event.Order
import Mathlib
/-!
Where each endpoint of a log comes to stand. Endpoints that are equal are told apart by the places
they come from: an arrangement names for each place of the ordered list the place before the
ordering. There is one arrangement in order of time that lets endpoints of one time keep their
order, and in it a start stands before its finish unless the finish is earlier.
-/
namespace InFlight

namespace Endpoint

/-- Place `k` of `sorted` holds what stood at `source k` of `points`. Times do not go back, and
endpoints of one time stand as they stood in `points`. -/
structure IsArrangement (points sorted : List Endpoint) (source : Equiv.Perm (Fin points.length)) :
    Prop where
  sorted_eq : sorted = List.ofFn fun k => points[source k]
  inOrder : InOrder sorted
  stable : ∀ i j, i < j → points[source i].time = points[source j].time → source i < source j

section Places

variable (points : List Endpoint)

def timeAt (k : Fin points.length) : Instant := points[k].time

def placesAt (t : Instant) : List (Fin points.length) :=
  (List.finRange points.length).filter fun k => timeAt points k = t

theorem map_finRange : ((List.finRange points.length).map fun k => points[k]) = points := by
  rw [← List.ofFn_eq_map]
  exact List.ofFn_getElem

theorem filter_time_eq_map (t : Instant) :
    (points.filter fun p => p.time = t) = (placesAt points t).map fun k => points[k] := by
  conv_lhs => rw [← map_finRange points]
  rw [List.filter_map]
  rfl

variable {points}

theorem filter_map_source {source : Equiv.Perm (Fin points.length)}
    (stable : ∀ i j, i < j → points[source i].time = points[source j].time → source i < source j)
    (t : Instant) :
    (((List.finRange points.length).map source).filter fun k => timeAt points k = t) =
      placesAt points t := by
  have ascending := (List.sortedLT_finRange points.length).pairwise
  apply (source.map_finRange_perm.filter _).eq_of_pairwise' (r := (· < ·)) _ (ascending.filter _)
  -- two places of one time, the earlier one first
  rw [List.pairwise_filter, List.pairwise_map]
  apply ascending.imp
  intro i j before here there
  exact stable i j before ((of_decide_eq_true here).trans (of_decide_eq_true there).symm)

end Places

namespace IsArrangement

variable {points sorted : List Endpoint} {source : Equiv.Perm (Fin points.length)}

theorem eq_map (h : IsArrangement points sorted source) :
    sorted = ((List.finRange points.length).map source).map fun k => points[k] := by
  rw [h.sorted_eq, List.ofFn_eq_map, List.map_map]
  rfl

theorem perm (h : IsArrangement points sorted source) : sorted.Perm points := by
  have moved := source.map_finRange_perm.map fun k => points[k]
  rwa [← h.eq_map, map_finRange] at moved

theorem monotone (h : IsArrangement points sorted source) : Monotone (timeAt points ∘ source) := by
  have order := h.inOrder
  rw [h.sorted_eq, InOrder, List.pairwise_ofFn] at order
  intro i j le
  rcases lt_or_eq_of_le le with lt | rfl
  · exact order lt
  · exact le_rfl

theorem source_eq (h : IsArrangement points sorted source) : source = Tuple.sort (timeAt points) :=
  Tuple.eq_sort_iff.mpr ⟨h.monotone, h.stable⟩

theorem eq_sort (h : IsArrangement points sorted source) : sorted = sort points := by
  apply h.inOrder.eq_of_filter_time (inOrder_sort points)
  intro t
  rw [filter_time_sort, filter_time_eq_map points, ← filter_map_source h.stable t, h.eq_map,
    List.filter_map]
  rfl

/-- An endpoint stands before another one if it is earlier, or of the same time and before it from
the first. -/
theorem before_iff (h : IsArrangement points sorted source) (i j : Fin points.length) :
    source.symm i < source.symm j ↔
      points[i].time < points[j].time ∨ points[i].time = points[j].time ∧ i < j := by
  have onwards : ∀ i j : Fin points.length, source.symm i < source.symm j →
      points[i].time < points[j].time ∨ points[i].time = points[j].time ∧ i < j := by
    intro i j before
    have later := h.monotone before.le
    have tied := h.stable _ _ before
    simp only [Function.comp, Equiv.apply_symm_apply] at later tied
    rcases lt_or_eq_of_le later with earlier | same
    · exact Or.inl earlier
    · exact Or.inr ⟨same, tied same⟩
  constructor
  · exact onwards i j
  · intro first
    rcases lt_trichotomy (source.symm i) (source.symm j) with before | same | behind
    · exact before
    · obtain rfl := source.symm.injective same
      rcases first with earlier | ⟨-, lt⟩
      · exact absurd earlier (lt_irrefl _)
      · exact absurd lt (lt_irrefl _)
    · rcases first with earlier | ⟨same, lt⟩ <;>
        rcases onwards j i behind with earlier' | ⟨same', lt'⟩
      · exact absurd earlier' (lt_asymm earlier)
      · exact absurd same' (ne_of_gt earlier)
      · exact absurd same (ne_of_gt earlier')
      · exact absurd lt' (lt_asymm lt)

end IsArrangement

theorem exists_isArrangement (points : List Endpoint) :
    ∃ source, IsArrangement points (sort points) source := by
  obtain ⟨rising, stable⟩ := Tuple.eq_sort_iff.mp (Eq.refl (Tuple.sort (timeAt points)))
  have arranged : IsArrangement points (List.ofFn fun k => points[Tuple.sort (timeAt points) k])
      (Tuple.sort (timeAt points)) := by
    refine ⟨rfl, ?_, stable⟩
    rw [InOrder, List.pairwise_ofFn]
    intro i j before
    exact rising before.le
  exact ⟨_, arranged.eq_sort ▸ arranged⟩

section Log

variable {events : List Event}

theorem length_flatMap_endpoints (events : List Event) :
    (events.flatMap Event.endpoints).length = 2 * events.length := by
  rw [← length_ofEvents, (perm_ofEvents events).length_eq]

/-- Where the endpoints of an event stand in the order of the log. -/
def startPlace (k : Fin events.length) : Fin (events.flatMap Event.endpoints).length :=
  ⟨2 * k, by rw [length_flatMap_endpoints]; omega⟩

def finishPlace (k : Fin events.length) : Fin (events.flatMap Event.endpoints).length :=
  ⟨2 * k + 1, by rw [length_flatMap_endpoints]; omega⟩

theorem getElem?_flatMap_endpoints (events : List Event) (k : Nat) :
    (events.flatMap Event.endpoints)[2 * k]? = events[k]?.map Event.startpoint ∧
      (events.flatMap Event.endpoints)[2 * k + 1]? = events[k]?.map Event.finishpoint := by
  induction events generalizing k with
  | nil => simp
  | cons e events ih =>
    cases k with
    | zero => simp [Event.endpoints]
    | succ k => simpa [Event.endpoints, Nat.mul_succ] using ih k

theorem getElem_startPlace (k : Fin events.length) :
    (events.flatMap Event.endpoints)[startPlace k] = events[k].startpoint := by
  have here := (getElem?_flatMap_endpoints events k).1
  rw [List.getElem?_eq_getElem k.isLt] at here
  exact List.getElem_eq_iff _ |>.mpr here

theorem getElem_finishPlace (k : Fin events.length) :
    (events.flatMap Event.endpoints)[finishPlace k] = events[k].finishpoint := by
  have here := (getElem?_flatMap_endpoints events k).2
  rw [List.getElem?_eq_getElem k.isLt] at here
  exact List.getElem_eq_iff _ |>.mpr here

/-- The ordered endpoints are two for each event, and their one arrangement in order of time that
leaves endpoints of one time as they were: by the order of the log, and the start first within an
event. -/
theorem ofEvents_arranged_once (events : List Event) :
    (ofEvents events).length = 2 * events.length ∧
    (ofEvents events).Perm (events.flatMap Event.endpoints) ∧
    ∃ source, IsArrangement (events.flatMap Event.endpoints) (ofEvents events) source ∧
      (∀ sorted source', IsArrangement (events.flatMap Event.endpoints) sorted source' →
        sorted = ofEvents events ∧ source' = source) ∧
      ∀ k : Fin events.length,
        (events.flatMap Event.endpoints)[startPlace k] = events[k].startpoint ∧
        (events.flatMap Event.endpoints)[finishPlace k] = events[k].finishpoint ∧
        (source.symm (startPlace k) < source.symm (finishPlace k) ↔
          events[k].start ≤ events[k].finish) := by
  obtain ⟨source, arranged⟩ := exists_isArrangement (events.flatMap Event.endpoints)
  refine ⟨length_ofEvents events, arranged.perm, source, arranged, ?_, ?_⟩
  · intro sorted source' other
    exact ⟨other.eq_sort, other.source_eq.trans arranged.source_eq.symm⟩
  · intro k
    refine ⟨getElem_startPlace k, getElem_finishPlace k, ?_⟩
    have first : startPlace k < finishPlace k := Nat.lt_succ_self _
    rw [arranged.before_iff, getElem_startPlace, getElem_finishPlace, le_iff_lt_or_eq]
    exact or_congr_right (and_iff_left first)

def tangledLog : List Event :=
  [⟨"org", "peer", "block", 10, .ofNanos 50, .ofNanos 50, 5, 0, 1⟩,
   ⟨"org", "peer", "nonce", 30, .ofNanos 50, .ofNanos 20, 6, 0, 2⟩,
   ⟨"org", "peer", "block", 10, .ofNanos 50, .ofNanos 50, 5, 0, 1⟩]

theorem ofEvents_arranged_once_tangled :
    (ofEvents tangledLog).map (fun p => (p.id, p.isStart)) =
      [(2, false), (1, true), (1, false), (2, true), (1, true), (1, false)] ∧
    (∃ source, IsArrangement (tangledLog.flatMap Event.endpoints) (ofEvents tangledLog) source ∧
      ∀ k : Fin tangledLog.length, source.symm (startPlace k) < source.symm (finishPlace k) ↔
        k.val ≠ 1) ∧
    ∀ sorted source, IsArrangement (tangledLog.flatMap Event.endpoints) sorted source →
      sorted.map Endpoint.id ≠ [2, 2, 1, 1, 1, 1] := by
  obtain ⟨-, -, source, arranged, once, places⟩ := ofEvents_arranged_once tangledLog
  have shown : (ofEvents tangledLog).map (fun p => (p.id, p.isStart)) =
      [(2, false), (1, true), (1, false), (2, true), (1, true), (1, false)] := by cbv
  have forward : ∀ k : Fin tangledLog.length, tangledLog[k].start ≤ tangledLog[k].finish ↔
      k.val ≠ 1 := by decide
  refine ⟨shown, ⟨source, arranged, fun k => (places k).2.2.trans (forward k)⟩, ?_⟩
  · intro sorted other arranged'
    rw [(once sorted other arranged').1]
    have ids := congrArg (List.map Prod.fst) shown
    rw [List.map_map] at ids
    change (ofEvents tangledLog).map Endpoint.id = _ at ids
    rw [ids]
    decide

end Log

end Endpoint

end InFlight
