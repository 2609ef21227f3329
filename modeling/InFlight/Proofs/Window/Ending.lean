import InFlight.Proofs.Window.Walk
/-!
How a sweep over windows ends. It has an end where a walk of one width arrives, and where a divided
span has all its boundaries in the calendar; else it breaks down. Within the calendar no sweep does:
only the leap second behind the last instant leads out of it.
-/
namespace InFlight.Windows

variable {sorted : List Endpoint} {width : Width} {w : Windows}

instance (w : Windows) : Decidable w.Arrives :=
  inferInstanceAs (Decidable (∀ v ∈ w.all.getLast?, w.last ≤ v.finish))

theorem sweep_of_fixed {step : Int} (stepping : w.stepping = .fixed step) :
    w.sweep = if w.Arrives then .ok w.all else .error .endless := by
  rw [sweep, stepping]
  rfl

theorem sweep_of_divided {count : Nat} {span : Int} (stepping : w.stepping = .divided count span) :
    w.sweep = if w.all.length = count then .ok w.all else .error .pastCalendar := by
  rw [sweep, stepping]

/-- The windows have an end: a walk of one width ends where it arrives, and a divided span has all
its windows. -/
def Ends (w : Windows) : Prop :=
  match w.stepping with
  | .fixed _ => w.Arrives
  | .divided count _ => w.all.length = count

theorem ends_iff_arrives {step : Int} (stepping : w.stepping = .fixed step) :
    w.Ends ↔ w.Arrives := by
  rw [Ends, stepping]

theorem ends_iff_length {count : Nat} {span : Int} (stepping : w.stepping = .divided count span) :
    w.Ends ↔ w.all.length = count := by
  rw [Ends, stepping]

theorem sweep_eq_ok_iff {windows : List Window} :
    w.sweep = .ok windows ↔ w.Ends ∧ w.all = windows := by
  cases stepping : w.stepping with
  | fixed step =>
    rw [sweep_of_fixed stepping, ends_iff_arrives stepping]
    by_cases arrives : w.Arrives <;> simp [arrives]
  | divided count span =>
    rw [sweep_of_divided stepping, ends_iff_length stepping]
    by_cases whole : w.all.length = count <;> simp [whole]

theorem sweep_of_ends (ends : w.Ends) : w.sweep = .ok w.all := sweep_eq_ok_iff.mpr ⟨ends, rfl⟩

theorem ends_or_error (w : Windows) : w.Ends ∨ ∃ b, w.sweep = .error b := by
  cases swept : w.sweep with
  | ok windows => exact Or.inl (sweep_eq_ok_iff.mp swept).1
  | error b => exact Or.inr ⟨b, rfl⟩

/-- Whether a sweep has an end shows in the times at which the windows finish. -/
theorem ends_or_error_of_same {v w : Windows} (stepping : v.stepping = w.stepping)
    (last : v.last = w.last) (finishes : v.all.map Window.finish = w.all.map Window.finish) :
    (v.Ends ∧ w.Ends) ∨ ∃ b, v.sweep = .error b ∧ w.sweep = .error b := by
  cases same : w.stepping with
  | fixed step =>
    have arrives : v.Arrives ↔ w.Arrives := by
      have finish : v.all.getLast?.map Window.finish = w.all.getLast?.map Window.finish := by
        rw [← List.getLast?_map, finishes, List.getLast?_map]
      have shown (u : Windows) :
          u.Arrives ↔ ∀ t ∈ u.all.getLast?.map Window.finish, u.last ≤ t := by
        simp [Arrives]
      rw [shown v, shown w, finish, last]
    rw [ends_iff_arrives (stepping.trans same), ends_iff_arrives same,
      sweep_of_fixed (stepping.trans same), sweep_of_fixed same]
    by_cases here : w.Arrives
    · exact Or.inl ⟨arrives.mpr here, here⟩
    · exact Or.inr ⟨.endless, if_neg (mt arrives.mp here), if_neg here⟩
  | divided count span =>
    have length : v.all.length = w.all.length := by
      rw [← List.length_map Window.finish, finishes, List.length_map]
    rw [ends_iff_length (stepping.trans same), ends_iff_length same,
      sweep_of_divided (stepping.trans same), sweep_of_divided same, length]
    by_cases whole : w.all.length = count
    · exact Or.inl ⟨whole, whole⟩
    · exact Or.inr ⟨.pastCalendar, if_neg whole, if_neg whole⟩

/-- Why a sweep has no end: the walk never gets to the last endpoint, or a boundary is not in the
calendar. -/
inductive BreaksDown (w : Windows) : Breakdown → Prop where
  | endless {step : Int} : w.stepping = .fixed step →
      (∀ n, cursorAt step w.first n < w.last) → BreaksDown w .endless
  | pastCalendar {count k : Nat} {span : Int} : w.stepping = .divided count span → k ≤ count →
      ¬ (boundary w.first span count k).InCalendar → BreaksDown w .pastCalendar

theorem arrives_iff_exists {step : Int} (order : Endpoint.InOrder sorted)
    (h : forWidth sorted width = .ok w) (stepping : w.stepping = .fixed step) :
    w.Arrives ↔ ∃ n, w.last ≤ cursorAt step w.first n := by
  rw [(walks_of_stepping order h stepping).arrives_iff_exists, first_eq_of_forWidth h,
    last_eq_of_forWidth h]

theorem ends_iff_inCalendar {count : Nat} {span : Int} (stepping : w.stepping = .divided count span)
    (some_window : 0 < count) :
    w.Ends ↔ ∀ k ≤ count, (boundary w.first span count k).InCalendar := by
  have most : min (max w.readings w.expectedLength) count = count := by
    rw [expectedLength, stepping]
    exact Nat.min_eq_right (Nat.le_max_right _ _)
  rw [ends_iff_length stepping, all, upTo, List.length_map, bounds, stepping]
  dsimp only
  rw [most, length_dividedBounds_eq_iff some_window]

/-- A sweep that has no end breaks down in one of the two ways. -/
theorem sweep_eq_error_iff (order : Endpoint.InOrder sorted) (h : forWidth sorted width = .ok w)
    {b : Breakdown} :
    w.sweep = .error b ↔ w.BreaksDown b := by
  cases stepping : w.stepping with
  | fixed step =>
    have held : w.sweep = .error b ↔ ¬ w.Arrives ∧ b = .endless := by
      rw [sweep_of_fixed stepping]
      by_cases arrives : w.Arrives <;> simp [arrives, eq_comm]
    rw [held, arrives_iff_exists order h stepping]
    constructor
    · rintro ⟨never, rfl⟩
      exact .endless stepping fun n => not_le.mp fun there => never ⟨n, there⟩
    · rintro (⟨same, before⟩ | ⟨other, -, -⟩)
      · obtain rfl := Stepping.fixed.inj (stepping.symm.trans same)
        exact ⟨fun ⟨n, there⟩ => absurd (before n) (not_lt.mpr there), rfl⟩
      · cases stepping.symm.trans other
  | divided count span =>
    obtain ⟨positive, -, -⟩ := (fits_of_forWidth h).of_divided stepping
    have short : w.sweep = .error b ↔ ¬ w.Ends ∧ b = .pastCalendar := by
      rw [sweep_of_divided stepping, ends_iff_length stepping]
      by_cases whole : w.all.length = count <;> simp [whole, eq_comm]
    rw [short, ends_iff_inCalendar stepping positive]
    constructor
    · rintro ⟨outside, rfl⟩
      simp only [not_forall] at outside
      obtain ⟨k, hk, out⟩ := outside
      exact .pastCalendar stepping hk out
    · rintro (⟨other, -⟩ | ⟨same, hk, out⟩)
      · cases stepping.symm.trans other
      · obtain ⟨rfl, rfl⟩ := Stepping.divided.inj (stepping.symm.trans same)
        exact ⟨fun inside => out (inside _ hk), rfl⟩

theorem ends_iff_not_breaksDown (order : Endpoint.InOrder sorted)
    (h : forWidth sorted width = .ok w) :
    w.Ends ↔ ∀ b, ¬ w.BreaksDown b := by
  simp only [← sweep_eq_error_iff order h]
  rcases w.ends_or_error with ends | ⟨b, broken⟩
  · simp [sweep_of_ends ends, ends]
  · refine iff_of_false (fun ends => ?_) fun sound => sound b broken
    rw [sweep_of_ends ends] at broken
    cases broken

/-- Within the calendar every sweep has an end. -/
theorem ends_of_forWidth (order : Endpoint.InOrder sorted)
    (early : Instant.first ≤ firstTime sorted) (late : lastTime sorted ≤ Instant.last)
    (h : forWidth sorted width = .ok w) : w.Ends := by
  cases stepping : w.stepping with
  | fixed step =>
    exact (ends_iff_arrives stepping).mpr ((walks_of_stepping order h stepping).arrives late)
  | divided count span =>
    obtain ⟨positive, enough, whole⟩ := (fits_of_forWidth h).of_divided stepping
    rw [first_eq_of_forWidth h, last_eq_of_forWidth h] at whole
    rw [ends_iff_inCalendar stepping positive, first_eq_of_forWidth h]
    intro k hk
    apply Instant.inCalendar_plus_of_le_since early (firstTime_le_lastTime order) late
    · exact Int.ediv_nonneg (Int.mul_nonneg (Int.natCast_nonneg k) (by omega))
        (Int.natCast_nonneg count)
    · rw [← whole]
      have share : (k : Int) * span ≤ count * span :=
        Int.mul_le_mul_of_nonneg_right (by omega) (by omega)
      exact Int.ediv_le_of_le_mul (by omega) (by rwa [Int.mul_comm span])

theorem ends_of_plain (order : Endpoint.InOrder sorted) (plain : ∀ p ∈ sorted, p.time.IsPlain)
    (h : forWidth sorted width = .ok w) : w.Ends :=
  ends_of_forWidth order (plain_firstTime plain).first_le (plain_lastTime plain).le_last h

theorem ends_ofEvents {events : List Event} (plain : ∀ e ∈ events, e.IsPlain)
    (h : forWidth (Endpoint.ofEvents events) width = .ok w) : w.Ends :=
  ends_of_plain (Endpoint.inOrder_ofEvents events) (Endpoint.plain_ofEvents plain) h

/-- Behind the last instant of the calendar lies a leap second. No walk gets there from a plain
reading, and no divided span that ends in it has all its boundaries in the calendar. -/
theorem exists_breaksDown_of_lt_lastTime (plain : (firstTime sorted).IsPlain)
    (inside : (lastTime sorted).InCalendar) (late : Instant.last < lastTime sorted)
    (h : forWidth sorted width = .ok w) : ∃ b, w.BreaksDown b := by
  cases stepping : w.stepping with
  | fixed step =>
    refine ⟨_, .endless stepping fun n => ?_⟩
    rw [first_eq_of_forWidth h, last_eq_of_forWidth h]
    exact lt_of_le_of_lt (cursorAt_le_last plain.le_last step n) late
  | divided count span =>
    obtain ⟨positive, -, whole⟩ := (fits_of_forWidth h).of_divided stepping
    obtain ⟨f, first, -, -⟩ := plain.exists_ofNanos
    refine ⟨_, .pastCalendar stepping (Nat.le_refl count) ?_⟩
    rw [first_eq_of_forWidth h, last_eq_of_forWidth h, first] at whole
    rw [first_eq_of_forWidth h, first, boundary_count positive, Instant.inCalendar_ofNanos, whole]
    have out := Instant.last_lt_since f inside late
    omega

/-- The first window begins with the first endpoint, and ends behind it. -/
theorem start_and_finish_of_head? (order : Endpoint.InOrder sorted)
    (h : forWidth sorted width = .ok w) (ends : w.Ends) {v : Window} (hv : v ∈ w.all.head?) :
    v.start = firstTime sorted ∧ firstTime sorted < v.finish := by
  cases stepping : w.stepping with
  | fixed step =>
    have walks := walks_of_stepping order h stepping
    have reach := walks.arrives_iff.mp ((ends_iff_arrives stepping).mp ends)
    rw [walks.all_eq, List.head?_map] at hv
    obtain ⟨b, hb, rfl⟩ := Option.map_eq_some_iff.mp hv
    obtain rfl := head?_fixedBounds hb
    exact ⟨rfl, reach.lt_finish walks.positive (List.mem_of_mem_head? hb)⟩
  | divided count span =>
    obtain ⟨positive, enough, -⟩ := (fits_of_forWidth h).of_divided stepping
    have share : 0 < span / (count : Int) :=
      Int.le_ediv_of_mul_le (Int.natCast_pos.mpr positive) (by rwa [Int.zero_add, Int.one_mul])
    simp only [all, upTo, bounds, stepping, List.head?_map, Option.mem_def] at hv
    obtain ⟨b, front, rfl⟩ := Option.map_eq_some_iff.mp hv
    obtain rfl := head?_dividedBounds front
    simp only [boundary, first_eq_of_forWidth h, Nat.cast_zero, zero_mul, Int.zero_ediv,
      Instant.plus_zero, Nat.cast_one, one_mul]
    exact ⟨trivial, Instant.lt_plus _ share⟩

theorem points_ne_nil_of_head? (order : Endpoint.InOrder sorted) (some_endpoint : sorted ≠ [])
    (h : forWidth sorted width = .ok w) (ends : w.Ends) {v : Window} (hv : v ∈ w.all.head?) :
    v.points ≠ [] := by
  obtain ⟨start, finish⟩ := start_and_finish_of_head? order h ends hv
  obtain ⟨p, hp, time⟩ := exists_mem_of_firstTime some_endpoint
  rw [points_eq_filter order h (List.mem_of_mem_head? hv)]
  apply List.ne_nil_of_mem (a := p)
  rw [List.mem_filter, decide_eq_true_eq, start, time]
  exact ⟨hp, le_refl _, le_of_lt finish⟩

end InFlight.Windows
