import InFlight.Proofs.Window.Layout
import Mathlib.Tactic.Linarith
/-!
The walk of windows of one width, from the first endpoint until it has reached the last. A later
last endpoint takes the same walk further. Each step of a walk that arrives is a step on in time,
whatever the clock reads; one to a reading behind the last instant of the calendar may be held at
that instant, and never arrive.
-/
namespace InFlight

theorem windowCount_le (span width : Int) : windowCount span width ≤ span.toNat := by
  unfold windowCount
  split
  · exact Nat.zero_le _
  · rename_i positive
    obtain ⟨some_span, some_width⟩ : 0 < span ∧ 0 < width := by omega
    have enough : span + width - 1 < (span + 1) * width := by nlinarith
    have fewer : (span + width - 1) / width < span + 1 := Int.ediv_lt_of_lt_mul some_width enough
    exact Nat.le_trans (Nat.mod_le _ _) (by omega)

namespace Windows

def cursorAt (width : Int) (cursor : Instant) : Nat → Instant
  | 0 => cursor
  | n + 1 => cursorAt width (cursor.plusWithin width) n

theorem cursorAt_last {width : Int} (positive : 0 < width) (n : Nat) :
    cursorAt width Instant.last n = Instant.last := by
  induction n with
  | zero => rfl
  | succ n ih => rw [cursorAt, Instant.plusWithin_last positive, ih]

theorem cursorAt_le_last {cursor : Instant} (h : cursor ≤ Instant.last) (width : Int) (n : Nat) :
    cursorAt width cursor n ≤ Instant.last := by
  induction n generalizing cursor with
  | zero => exact h
  | succ n ih => exact ih (Instant.plusWithin_le_last h width)

section Bounds

variable {width : Int} {last other cursor : Instant} {most more : Nat}

theorem fixedBounds_of_lt (before : cursor < last) : fixedBounds width last (most + 1) cursor =
    (cursor, cursor.plusWithin width) :: fixedBounds width last most (cursor.plusWithin width) :=
  if_pos before

theorem fixedBounds_of_le (reached : last ≤ cursor) : fixedBounds width last most cursor = [] := by
  cases most with
  | zero => rfl
  | succ most => exact if_neg (not_lt.mpr reached)

theorem fixedBounds_eq_nil_iff :
    fixedBounds width last most cursor = [] ↔ most = 0 ∨ last ≤ cursor := by
  constructor
  · intro empty
    cases most with
    | zero => exact Or.inl rfl
    | succ most =>
      right
      by_contra before
      rw [fixedBounds_of_lt (not_le.mp before)] at empty
      cases empty
  · rintro (rfl | reached)
    · rfl
    · exact fixedBounds_of_le reached

theorem head?_fixedBounds {b : Instant × Instant}
    (h : b ∈ (fixedBounds width last most cursor).head?) :
    b = (cursor, cursor.plusWithin width) := by
  cases most with
  | zero => cases h
  | succ most =>
    rcases lt_or_ge cursor last with before | reached
    · rw [fixedBounds_of_lt before] at h
      exact (Option.some.inj h).symm
    · rw [fixedBounds_of_le reached] at h
      cases h

/-- A later end makes the walk longer, and no part of it different. -/
theorem fixedBounds_further (later : last ≤ other) (le : most ≤ more) (cursor : Instant) :
    fixedBounds width last most cursor <+: fixedBounds width other more cursor := by
  induction most generalizing cursor more with
  | zero => exact List.nil_prefix
  | succ most ih =>
    obtain ⟨more, rfl⟩ : ∃ m, more = m + 1 := ⟨more - 1, by omega⟩
    rcases lt_or_ge cursor last with before | reached
    · rw [fixedBounds_of_lt before, fixedBounds_of_lt (lt_of_lt_of_le before later)]
      exact (List.prefix_cons_inj _).mpr (ih (by omega) _)
    · rw [fixedBounds_of_le reached]
      exact List.nil_prefix

/-- At the last instant of the calendar the walk stands still. -/
theorem finish_of_mem_fixedBounds_last (positive : 0 < width) {b : Instant × Instant}
    (h : b ∈ fixedBounds width last most Instant.last) : b.2 = Instant.last := by
  induction most with
  | zero => cases h
  | succ most ih =>
    rcases lt_or_ge Instant.last last with before | reached
    · rw [fixedBounds_of_lt before, Instant.plusWithin_last positive] at h
      rcases List.mem_cons.mp h with rfl | h
      · rfl
      · exact ih h
    · rw [fixedBounds_of_le reached] at h
      cases h

def ReachedBy (last : Instant) (bounds : List (Instant × Instant)) :
    Prop := ∀ b ∈ bounds.getLast?, last ≤ b.2

theorem reachedBy_nil : ReachedBy last [] := by
  intro b hb
  cases hb

theorem ReachedBy.tail {b : Instant × Instant} {bounds : List (Instant × Instant)}
    (h : ReachedBy last (b :: bounds)) :
    ReachedBy last bounds := by
  intro c hc
  apply h c
  rw [Option.mem_def] at hc ⊢
  rw [List.getLast?_cons, hc, Option.getD_some]

/-- A step back leads to the last instant of the calendar, and no step leads away from it. -/
theorem ReachedBy.lt_plusWithin (positive : 0 < width) (before : cursor < last)
    (h : ReachedBy last ((cursor, cursor.plusWithin width) ::
      fixedBounds width last most (cursor.plusWithin width))) :
    cursor < cursor.plusWithin width := by
  by_contra back
  have held := Instant.plusWithin_eq_last positive (not_lt.mp back)
  have behind : Instant.last ≤ cursor := held ▸ not_lt.mp back
  obtain ⟨b, final⟩ :=
    Option.ne_none_iff_exists'.mp (mt List.getLast?_eq_none_iff.mp (List.cons_ne_nil
    (cursor, cursor.plusWithin width) (fixedBounds width last most (cursor.plusWithin width))))
  have still : b.2 = Instant.last := by
    rcases List.mem_cons.mp (List.mem_of_getLast? final) with rfl | hb
    · exact held
    · rw [held] at hb
      exact finish_of_mem_fixedBounds_last positive hb
  have reached : last ≤ b.2 := h b final
  rw [still] at reached
  exact absurd before (not_lt.mpr (le_trans reached behind))

theorem ReachedBy.lt_finish (positive : 0 < width)
    (h : ReachedBy last (fixedBounds width last most cursor)) {b : Instant × Instant}
    (hb : b ∈ fixedBounds width last most cursor) : cursor < b.2 := by
  induction most generalizing cursor with
  | zero => cases hb
  | succ most ih =>
    rcases lt_or_ge cursor last with before | reached
    · rw [fixedBounds_of_lt before] at h hb
      have step := h.lt_plusWithin positive before
      rcases List.mem_cons.mp hb with rfl | hb
      · exact step
      · exact lt_trans step (ih h.tail hb)
    · rw [fixedBounds_of_le reached] at hb
      cases hb

theorem ReachedBy.pairwise_finish (positive : 0 < width)
    (h : ReachedBy last (fixedBounds width last most cursor)) :
    (fixedBounds width last most cursor).Pairwise fun a b => a.2 < b.2 := by
  induction most generalizing cursor with
  | zero => exact List.Pairwise.nil
  | succ most ih =>
    rcases lt_or_ge cursor last with before | reached
    · rw [fixedBounds_of_lt before] at h ⊢
      apply List.Pairwise.cons
      · intro b hb
        exact h.tail.lt_finish positive hb
      · exact ih h.tail
    · rw [fixedBounds_of_le reached]
      exact List.Pairwise.nil

theorem ReachedBy.finish_le (positive : 0 < width)
    (h : ReachedBy last (fixedBounds width last most cursor)) {i : Nat} {b c : Instant × Instant}
    (hb : (fixedBounds width last most cursor)[i]? = some b)
    (hc : c ∈ (fixedBounds width last most cursor).take (i + 1)) : c.2 ≤ b.2 := by
  have order := (h.pairwise_finish positive).sublist (List.take_sublist (i + 1) _)
  rw [List.take_add_one, hb, Option.toList_some] at hc order
  rcases List.mem_append.mp hc with hc | hc
  · exact le_of_lt ((List.pairwise_append.mp order).2.2 c hc b List.mem_cons_self)
  · rw [List.mem_singleton.mp hc]

theorem ReachedBy.cons {start next : Instant} (enough : (last.ticks - next.ticks).toNat ≤ most)
    (h : ReachedBy last (fixedBounds width last most next)) :
    ReachedBy last ((start, next) :: fixedBounds width last most next) := by
  intro b hb
  rw [Option.mem_def, List.getLast?_cons, Option.some.injEq] at hb
  cases final : (fixedBounds width last most next).getLast? with
  | none =>
    rw [final, Option.getD_none] at hb
    rw [List.getLast?_eq_none_iff, fixedBounds_eq_nil_iff] at final
    rw [← hb]
    rcases final with rfl | reached
    · rw [Instant.le_iff]
      dsimp only
      omega
    · exact reached
  | some c =>
    rw [final, Option.getD_some] at hb
    exact hb ▸ h c final

/-- Up to the last instant of the calendar every walk arrives that is given a step for each reading
of the clock. -/
theorem reachedBy_fixedBounds (positive : 0 < width) (inCalendar : last ≤ Instant.last)
    (enough : (last.ticks - cursor.ticks).toNat ≤ most) :
    ReachedBy last (fixedBounds width last most cursor) := by
  induction most generalizing cursor with
  | zero => exact reachedBy_nil
  | succ most ih =>
    rcases lt_or_ge cursor last with before | reached
    · have step := Instant.lt_plusWithin positive (lt_of_lt_of_le before inCalendar)
      rw [Instant.lt_iff] at step
      have rest : (last.ticks - (cursor.plusWithin width).ticks).toNat ≤ most := by omega
      rw [fixedBounds_of_lt before]
      exact (ih rest).cons rest
    · rw [fixedBounds_of_le reached]
      exact reachedBy_nil

/-- A walk that gets anywhere gets there without a step back: from the last instant of the calendar
it would go nowhere. -/
theorem lt_plusWithin_of_le_cursorAt (positive : 0 < width) (before : cursor < last) {n : Nat}
    (there : last ≤ cursorAt width cursor (n + 1)) : cursor < cursor.plusWithin width := by
  by_contra back
  have held := Instant.plusWithin_eq_last positive (not_lt.mp back)
  have behind : Instant.last ≤ cursor := held ▸ not_lt.mp back
  rw [cursorAt, held, cursorAt_last positive] at there
  exact absurd before (not_lt.mpr (le_trans there behind))

/-- With a step for each reading of the clock a walk arrives if it would ever arrive. -/
theorem reachedBy_fixedBounds_iff (positive : 0 < width)
    (enough : (last.ticks - cursor.ticks).toNat ≤ most) :
    ReachedBy last (fixedBounds width last most cursor) ↔ ∃ n, last ≤ cursorAt width cursor n := by
  constructor
  · intro h
    induction most generalizing cursor with
    | zero =>
      refine ⟨0, (Instant.le_iff _ _).mpr ?_⟩
      dsimp only [cursorAt]
      omega
    | succ most ih =>
      rcases lt_or_ge cursor last with before | reached
      · rw [fixedBounds_of_lt before] at h
        have step := h.lt_plusWithin positive before
        rw [Instant.lt_iff] at step
        obtain ⟨n, there⟩ := ih (by omega) h.tail
        exact ⟨n + 1, there⟩
      · exact ⟨0, reached⟩
  · rintro ⟨n, there⟩
    induction n generalizing cursor most with
    | zero =>
      rw [cursorAt] at there
      rw [fixedBounds_of_le there]
      exact reachedBy_nil
    | succ n ih =>
      rcases lt_or_ge cursor last with before | reached
      · have step := lt_plusWithin_of_le_cursorAt positive before there
        rw [Instant.lt_iff] at before step
        obtain ⟨most, rfl⟩ : ∃ m, most = m + 1 := ⟨most - 1, by omega⟩
        have rest : (last.ticks - (cursor.plusWithin width).ticks).toNat ≤ most := by omega
        rw [fixedBounds_of_lt before]
        exact (ih rest there).cons rest
      · rw [fixedBounds_of_le reached]
        exact reachedBy_nil

end Bounds

variable {sorted : List Endpoint} {width : Int} {w : Windows}

structure Walks (w : Windows) (sorted : List Endpoint) (width : Int) : Prop where
  positive : 0 < width
  last_eq : w.last = lastTime sorted
  all_eq : w.all = (fixedBounds width (lastTime sorted)
    ((lastTime sorted).ticks - (firstTime sorted).ticks).toNat
    (firstTime sorted)).map fun b => ⟨b.1, b.2, Window.select sorted.toArray b.1 b.2⟩

/-- Windows of one width are laid by walking, also where that width was derived. -/
theorem walks_of_stepping {any : Width} (order : Endpoint.InOrder sorted)
    (h : forWidth sorted any = .ok w) (steps : w.stepping = .fixed width) :
    w.Walks sorted width := by
  obtain ⟨step, resolved, rfl⟩ := forWidth_eq_ok_iff.mp h
  dsimp only at steps
  obtain rfl : step = width := by
    unfold steppingFor at steps
    split at steps
    · exact Stepping.fixed.inj steps
    · split at steps
      · cases steps
      · exact Stepping.fixed.inj steps
  refine ⟨Width.pos_of_resolve resolved, rfl, ?_⟩
  have span := Instant.since_le_ticks (firstTime_le_lastTime order)
  have few := windowCount_le ((lastTime sorted).since (firstTime sorted)) step
  -- a window takes a reading at least, so the readings are as many steps as the walk is ever given
  have most : max ((lastTime sorted).ticks - (firstTime sorted).ticks).toNat
      (windowCount ((lastTime sorted).since (firstTime sorted)) step) =
        ((lastTime sorted).ticks - (firstTime sorted).ticks).toNat := by
    apply Nat.max_eq_left
    omega
  simp only [all, upTo, bounds, readings, expectedLength, steps, most]

theorem stepping_of_forWidth_fixed (h : forWidth sorted (.fixed width) = .ok w) :
    w.stepping = .fixed width := by
  obtain ⟨step, resolved, rfl⟩ := forWidth_eq_ok_iff.mp h
  have same : step = width := by
    by_cases low : width ≤ 0
    · simp [Width.resolve, low] at resolved
    · simpa [Width.resolve, low, eq_comm] using resolved
  exact congrArg Stepping.fixed same

theorem walks_of_forWidth (order : Endpoint.InOrder sorted)
    (h : forWidth sorted (.fixed width) = .ok w) :
    w.Walks sorted width := walks_of_stepping order h (stepping_of_forWidth_fixed h)

def Arrives (w : Windows) : Prop := ∀ v ∈ w.all.getLast?, w.last ≤ v.finish

theorem Walks.arrives_iff (walks : w.Walks sorted width) : w.Arrives ↔
    ReachedBy (lastTime sorted) (fixedBounds width (lastTime sorted)
      ((lastTime sorted).ticks - (firstTime sorted).ticks).toNat (firstTime sorted)) := by
  unfold Arrives ReachedBy
  rw [walks.last_eq, walks.all_eq]
  simp only [List.getLast?_map, Option.mem_def, Option.map_eq_some_iff]
  constructor
  · intro reach b hb
    exact reach _ ⟨b, hb, rfl⟩
  · rintro reach v ⟨b, hb, rfl⟩
    exact reach b hb

theorem Walks.arrives_iff_exists (walks : w.Walks sorted width) : w.Arrives ↔
    ∃ n, lastTime sorted ≤ cursorAt width (firstTime sorted) n := by
  rw [walks.arrives_iff, reachedBy_fixedBounds_iff walks.positive (Nat.le_refl _)]

theorem Walks.arrives (walks : w.Walks sorted width) (inCalendar : lastTime sorted ≤ Instant.last) :
    w.Arrives :=
  walks.arrives_iff.mpr (reachedBy_fixedBounds walks.positive inCalendar (Nat.le_refl _))

end Windows

end InFlight
