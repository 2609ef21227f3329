import InFlight.Counts
import InFlight.Proofs.Event.Order
import InFlight.Proofs.NameMap
import Mathlib.Algebra.BigOperators.Group.List.Basic
import Mathlib.Algebra.GroupWithZero.Nat
import Mathlib.Algebra.Ring.Int.Defs
/-!
The balance of a category over some endpoints: its starts less its finishes. Running counts are
balances of the endpoints they have passed, and over a whole log a balance counts events.
-/
namespace InFlight

namespace Event

def starts (events : List Event) (category : String) (kind : Instant → Bool) : Nat :=
  events.countP fun e => e.category = category && kind e.start

def finishes (events : List Event) (category : String) (kind : Instant → Bool) : Nat :=
  events.countP fun e => e.category = category && kind e.finish

end Event

namespace Endpoint

def balance (category : String) (points : List Endpoint) : Int :=
  (points.map fun p => if category = p.category then p.delta else 0).sum

variable {category : String}

@[simp] theorem balance_nil : balance category [] = 0 := rfl

theorem balance_cons (p : Endpoint) (points : List Endpoint) :
    balance category (p :: points) =
      (if category = p.category then p.delta else 0) + balance category points := by
  simp [balance]

theorem balance_append (points others : List Endpoint) :
    balance category (points ++ others) = balance category points + balance category others := by
  simp [balance]

/-- Endpoints of other categories add nothing. -/
theorem balance_eq_zero {points : List Endpoint} (other : ∀ p ∈ points, category ≠ p.category) :
    balance category points = 0 := by
  induction points with
  | nil => rfl
  | cons p points ih =>
    obtain ⟨here, behind⟩ := List.forall_mem_cons.mp other
    rw [balance_cons, if_neg here, ih behind, Int.add_zero]

theorem balance_perm {points others : List Endpoint} (h : points.Perm others) :
    balance category points = balance category others := (h.map _).sum_eq

/-- A closed stretch of time balances to the time up to its end less the time up to its start, plus
the start itself. -/
theorem balance_between {a b : Instant} (h : a ≤ b) (points : List Endpoint) :
    balance category (points.filter fun p => a ≤ p.time ∧ p.time ≤ b) =
      balance category (points.filter fun p => p.time ≤ b) -
        balance category (points.filter fun p => p.time ≤ a) +
        balance category (points.filter fun p => p.time = a) := by
  induction points with
  | nil => rfl
  | cons p points ih =>
    simp only [List.filter_cons, decide_eq_true_eq]
    rcases lt_trichotomy p.time a with before | at_ | behind
    · have within : p.time ≤ b := le_trans (le_of_lt before) h
      simp only [not_le.mpr before, within, le_of_lt before, ne_of_lt before, false_and,
        if_true, if_false, balance_cons]
      omega
    · simp only [at_, h, le_refl, and_self, if_true, balance_cons]
      omega
    · by_cases within : p.time ≤ b
      · simp only [le_of_lt behind, within, not_le.mpr behind, ne_of_gt behind, and_self,
          if_true, if_false, balance_cons]
        omega
      · simp only [within, not_le.mpr behind, ne_of_gt behind, and_false, if_false]
        exact ih

theorem balance_ofEvents (kind : Instant → Bool) (events : List Event) :
    balance category ((ofEvents events).filter fun p => kind p.time) =
      Event.starts events category kind - Event.finishes events category kind := by
  rw [balance_perm ((perm_ofEvents events).filter _)]
  unfold Event.starts Event.finishes
  induction events with
  | nil => rfl
  | cons e events ih =>
    have two : balance category (e.endpoints.filter fun p => kind p.time) =
        ((if e.category = category && kind e.start then 1 else 0 : Nat) : Int) -
          (if e.category = category && kind e.finish then 1 else 0 : Nat) := by
      simp only [Event.endpoints, Event.startpoint, Event.finishpoint, Event.endpoint,
        List.filter_cons, List.filter_nil, eq_comm]
      by_cases hs : kind e.start <;> by_cases hf : kind e.finish <;>
        by_cases hc : category = e.category <;> simp [hs, hf, hc, balance_cons, delta]
    rw [List.flatMap_cons, List.filter_append, balance_append, ih, two, List.countP_cons,
      List.countP_cons]
    push_cast
    omega

end Endpoint

namespace Counts

theorem count_zeroed (categories : List String) (category : String) :
    (zeroed categories).count category = 0 := by
  have held := NameMap.get?_foldl_upsert id (fun _ _ => (0 : Int)) categories NameMap.empty category
  change (zeroed categories).get? category = _ at held
  rw [count, held]
  cases categories.filter fun x => id x = category with
  | nil => rfl
  | cons x l =>
    have constant : ∀ (l : List String), l.foldl (fun _ _ => some (0 : Int)) (some 0) = some 0 := by
      intro l
      induction l with
      | nil => rfl
      | cons _ _ ih => exact ih
    rw [List.foldl_cons, constant]
    rfl

theorem count_advance (c : Counts) (points : List Endpoint) (category : String) :
    (c.advance points).count category = c.count category + Endpoint.balance category points := by
  induction points generalizing c with
  | nil => simp
  | cons p points ih =>
    change ((c.step p).advance points).count category = _
    rw [ih, count_step, Endpoint.balance_cons]
    omega

end Counts

end InFlight
