import InFlight.Proofs.Time.Scale
import InFlight.Window
import Mathlib.Order.Monotone.Basic
/-!
The boundaries of windows. In either stepping the windows lie end to end: they start at the first
endpoint, every one of them before the last endpoint, and the last window reaches it.
-/
namespace InFlight

open Instant (ofNanos)

/-- Boundaries that rise from one instant to another: boundary `k` is the start of window `k` and
the finish of the window before it. -/
structure IsGrid (first last : Instant) (edge : Nat → Instant) (count : Nat) : Prop where
  edge_zero : edge 0 = first
  edge_lt_succ : ∀ k < count, edge k < edge (k + 1)
  edge_lt_last : ∀ k < count, edge k < last
  last_le_edge : last ≤ edge count

namespace IsGrid

variable {first last : Instant} {edge : Nat → Instant} {count : Nat}

theorem edge_lt (g : IsGrid first last edge count) {j k : Nat} (h : j < k) (hk : k ≤ count) :
    edge j < edge k := by
  induction k with
  | zero => omega
  | succ k ih =>
    have step := g.edge_lt_succ k hk
    rcases Nat.lt_succ_iff_lt_or_eq.mp h with h | rfl
    · exact lt_trans (ih h (by omega)) step
    · exact step

theorem edge_le (g : IsGrid first last edge count) {j k : Nat} (h : j ≤ k) (hk : k ≤ count) :
    edge j ≤ edge k := by
  rcases Nat.lt_or_eq_of_le h with h | rfl
  · exact le_of_lt (g.edge_lt h hk)
  · exact le_rfl

theorem lt_of_edge_lt (g : IsGrid first last edge count) {j k : Nat} (hj : j ≤ count)
    (h : edge j < edge k) : j < k := by
  by_contra le
  exact absurd h (not_lt.mpr (g.edge_le (Nat.le_of_not_lt le) hj))

/-- A window takes a reading of the clock at least. -/
theorem ticks_add_le (g : IsGrid first last edge count) {k : Nat} (hk : k ≤ count) :
    first.ticks + k ≤ (edge k).ticks := by
  induction k with
  | zero => simp [g.edge_zero]
  | succ k ih =>
    have before := ih (by omega)
    have step := (Instant.lt_iff _ _).mp (g.edge_lt_succ k hk)
    push_cast
    omega

theorem count_le_readings (g : IsGrid first last edge count) :
    count ≤ (last.ticks - first.ticks).toNat := by
  cases count with
  | zero => exact Nat.zero_le _
  | succ m =>
    have before := g.ticks_add_le (Nat.le_succ m)
    have reach := (Instant.lt_iff _ _).mp (g.edge_lt_last m (Nat.lt_succ_self m))
    omega

/-- Some window holds any instant from the first start to before the last finish. -/
theorem exists_window (g : IsGrid first last edge count) {t : Instant} (h : first ≤ t)
    (ht : t < edge count) : ∃ k < count, edge k ≤ t ∧ t < edge (k + 1) := by
  have walk : ∀ n, t < edge n → ∃ k < n, edge k ≤ t ∧ t < edge (k + 1) := by
    intro n
    induction n with
    | zero =>
      intro lt
      exact absurd lt (not_lt.mpr (g.edge_zero.symm ▸ h))
    | succ n ih =>
      intro lt
      by_cases le : edge n ≤ t
      · exact ⟨n, Nat.lt_succ_self n, le, lt⟩
      · obtain ⟨k, hk, within⟩ := ih (lt_of_not_ge le)
        exact ⟨k, Nat.lt_succ_of_lt hk, within⟩
  exact walk count ht

end IsGrid

/-- A number of steps of one width reaches a span at the first multiple of the width that is not
below it. -/
theorem lt_ceil_iff (span : Int) {width : Int} (hw : 0 < width) (k : Nat) :
    k < ((span + width - 1) / width).toNat ↔ k * width < span := by
  have reach : (k : Int) + 1 ≤ (span + width - 1) / width ↔
      ((k : Int) + 1) * width ≤ span + width - 1 :=
    Int.le_ediv_iff_mul_le hw
  rw [Int.add_mul, Int.one_mul] at reach
  omega

/-- A share of at least a nanosecond moves the boundary. -/
theorem share_succ_le {span : Int} {count : Nat} (hc : 0 < count)
    (h : (count : Int) ≤ span) (k : Nat) :
    (k : Int) * span / count + 1 ≤ ((k + 1 : Nat) : Int) * span / count := by
  have positive : (0 : Int) < count := by omega
  rw [← Int.add_mul_ediv_right _ _ (by omega : (count : Int) ≠ 0)]
  apply Int.ediv_le_ediv positive
  push_cast
  rw [Int.add_mul, Int.one_mul]
  omega

theorem isGrid_fixed {f l width : Int} (hf : Instant.first.toNanos ≤ f)
    (hl : l ≤ Instant.last.toNanos) (hfl : f ≤ l) (hw : 0 < width) :
    IsGrid (ofNanos f) (ofNanos l) (fun k => (ofNanos f).plusWithin (k * width))
      (((l - f) + width - 1) / width).toNat := by
  have edge_eq : ∀ k : Nat, (ofNanos f).plusWithin (k * width) =
      ofNanos (min (f + k * width) Instant.last.toNanos) := fun k =>
    Instant.plusWithin_ofNanos hf (Int.mul_nonneg (Int.natCast_nonneg k) (by omega))
  have next : ∀ k : Nat, ((k + 1 : Nat) : Int) * width = k * width + width := by
    intro k
    push_cast
    rw [Int.add_mul, Int.one_mul]
  constructor
  · rw [edge_eq]
    congr 1
    push_cast
    omega
  · intro k hk
    rw [lt_ceil_iff _ hw] at hk
    rw [edge_eq, edge_eq, Instant.ofNanos_lt_ofNanos, next]
    omega
  · intro k hk
    rw [lt_ceil_iff _ hw] at hk
    rw [edge_eq, Instant.ofNanos_lt_ofNanos]
    omega
  · have enough := (lt_ceil_iff (l - f) hw _).not.mp (Nat.lt_irrefl _)
    rw [edge_eq, Instant.ofNanos_le_ofNanos]
    omega

/-- All shares make up the whole span. -/
theorem boundary_count {count : Nat} (hc : 0 < count) (f span : Int) :
    Windows.boundary (ofNanos f) span count count = ofNanos (f + span) := by
  rw [Windows.boundary, Instant.plus_ofNanos, Int.mul_ediv_cancel_left _ (by omega)]

theorem isGrid_divided {f l : Int} {count : Nat} (hc : 0 < count) (h : (count : Int) ≤ l - f) :
    IsGrid (ofNanos f) (ofNanos l) (Windows.boundary (ofNanos f) (l - f) count) count := by
  have edge_eq : ∀ k : Nat, Windows.boundary (ofNanos f) (l - f) count k =
      ofNanos (f + k * (l - f) / count) := fun k => Instant.plus_ofNanos f _
  have edge_count : Windows.boundary (ofNanos f) (l - f) count count = ofNanos l := by
    rw [boundary_count hc]
    congr 1
    omega
  have rises : ∀ k : Nat, Windows.boundary (ofNanos f) (l - f) count k <
      Windows.boundary (ofNanos f) (l - f) count (k + 1) := by
    intro k
    rw [edge_eq, edge_eq, Instant.ofNanos_lt_ofNanos]
    have := share_succ_le hc h k
    omega
  constructor
  · rw [edge_eq]
    simp
  · exact fun k _ => rises k
  · intro k hk
    rw [← edge_count]
    exact strictMono_nat_of_lt_succ rises hk
  · exact le_of_eq edge_count.symm

namespace Windows

variable {w : Windows}

def count (w : Windows) : Nat :=
  match w.stepping with
  | .fixed width => ((w.last.since w.first + width - 1) / width).toNat
  | .divided count _ => count

def edge (w : Windows) : Nat → Instant :=
  match w.stepping with
  | .fixed width => fun k => w.first.plusWithin (k * width)
  | .divided count span => boundary w.first span count

theorem count_of_divided {count : Nat} {span : Int} (h : w.stepping = .divided count span) :
    w.count = count := by
  rw [Windows.count, h]

theorem edge_of_divided {count : Nat} {span : Int} (h : w.stepping = .divided count span) :
    w.edge = boundary w.first span count := by
  rw [edge, h]

/-- A positive width, or a share of the whole span that is a nanosecond at least. -/
def Fits (w : Windows) : Prop :=
  match w.stepping with
  | .fixed width => 0 < width
  | .divided count span => 0 < count ∧ (count : Int) ≤ span ∧ span = w.last.since w.first

theorem Fits.of_fixed {width : Int} (fits : w.Fits) (stepping : w.stepping = .fixed width) :
    0 < width := by
  rwa [Fits, stepping] at fits

theorem Fits.of_divided {count : Nat} {span : Int} (fits : w.Fits)
    (stepping : w.stepping = .divided count span) :
    0 < count ∧ (count : Int) ≤ span ∧ span = w.last.since w.first := by
  rwa [Fits, stepping] at fits

theorem isGrid (plainFirst : w.first.IsPlain) (plainLast : w.last.IsPlain)
    (order : w.first ≤ w.last) (fits : w.Fits) : IsGrid w.first w.last w.edge w.count := by
  obtain ⟨f, firstEq, hf, -⟩ := plainFirst.exists_ofNanos
  obtain ⟨l, lastEq, -, hl⟩ := plainLast.exists_ofNanos
  rw [firstEq, lastEq, Instant.ofNanos_le_ofNanos] at order
  have span : w.last.since w.first = l - f := by rw [firstEq, lastEq, Instant.since_ofNanos]
  unfold edge count
  cases stepping : w.stepping with
  | fixed width =>
    rw [span, firstEq, lastEq]
    exact isGrid_fixed hf hl order (fits.of_fixed stepping)
  | divided count s =>
    obtain ⟨positive, enough, whole⟩ := fits.of_divided stepping
    rw [whole, span] at enough ⊢
    rw [firstEq, lastEq]
    exact isGrid_divided positive enough

end Windows

end InFlight
