import InFlight.Time.Span
/-!
Instants of universal time. A clock may read a leap second behind any second, so a second has two
thousand million readings: its nanoseconds, and those of the leap second that may follow.
-/
namespace InFlight

/-- A clock reading, as the number of readings since 1970-01-01T00:00:00Z. -/
structure Instant where
  ticks : Int
  deriving DecidableEq, Repr, Inhabited

namespace Instant

/-- The reading `nanos` behind the start of a second; from a thousand million on, in its leap
second. -/
def ofReading (second : Int) (nanos : Nat) : Instant := ⟨second * 2000000000 + nanos⟩

def second (t : Instant) : Int := t.ticks / 2000000000
def nanos (t : Instant) : Int := t.ticks % 2000000000
def isLeap (t : Instant) : Bool := 1000000000 ≤ t.nanos

/-- The instant a number of nanoseconds after 1970-01-01T00:00:00Z, leap seconds not counted. -/
def ofNanos (n : Int) : Instant := ⟨n / 1000000000 * 2000000000 + n % 1000000000⟩
def toNanos (t : Instant) : Int := t.second * 1000000000 + t.nanos

instance : LE Instant := ⟨fun a b => a.ticks ≤ b.ticks⟩
instance : LT Instant := ⟨fun a b => a.ticks < b.ticks⟩
instance (a b : Instant) : Decidable (a ≤ b) := inferInstanceAs (Decidable (a.ticks ≤ b.ticks))
instance (a b : Instant) : Decidable (a < b) := inferInstanceAs (Decidable (a.ticks < b.ticks))

def secondOfDay (t : Instant) : Int := t.second % 86400
def day (t : Instant) : Int := t.second / 86400

/-- The first and the last day of the calendar: -262143-01-01 and +262142-12-31. -/
def firstDay : Int := -96465292
def lastDay : Int := 95026236

def first : Instant := ofNanos (-8334601228800000000000)
def last : Instant := ofNanos 8210266876799999999999

def InCalendar (t : Instant) : Prop := firstDay ≤ t.day ∧ t.day ≤ lastDay
instance (t : Instant) : Decidable t.InCalendar := inferInstanceAs (Decidable (_ ∧ _))

/-- The leap second between two times of day: behind the earlier one, or before the later one. -/
def leapBetween (t s : Instant) : Int :=
  if s.secondOfDay < t.secondOfDay ∧ s.isLeap then 1
  else if t.secondOfDay < s.secondOfDay ∧ t.isLeap then -1
  else 0

def since (t s : Instant) : Int :=
  (t.second - s.second + leapBetween t s) * 1000000000 + (t.nanos - s.nanos)

/-- The instant a span after `t`. From inside a leap second a span of less than a second may stay in
it or reach back before it; any other leaves it. -/
def plus (t : Instant) (d : Int) : Instant :=
  let seconds := Int.tdiv d 1000000000
  let rest := Int.tmod d 1000000000
  if t.isLeap then
    if 0 < seconds ∨ 2000000000 ≤ t.nanos + rest then ofNanos (t.toNanos - 1000000000 + d)
    else if seconds < 0 then ofNanos (t.toNanos + d)
    else ⟨t.ticks + rest⟩
  else ofNanos (t.toNanos + d)

def plusWithin (t : Instant) (d : Int) : Instant :=
  if (t.plus d).InCalendar then t.plus d else last

theorem ext_ticks {a b : Instant} (h : a.ticks = b.ticks) : a = b := by
  cases a; cases b; simp_all

theorem le_iff (a b : Instant) : a ≤ b ↔ a.ticks ≤ b.ticks := Iff.rfl
theorem lt_iff (a b : Instant) : a < b ↔ a.ticks < b.ticks := Iff.rfl

@[simp] theorem toNanos_ofNanos (n : Int) : (ofNanos n).toNanos = n := by
  simp only [toNanos, ofNanos, second, nanos]; omega

theorem isLeap_eq_false_iff (t : Instant) : t.isLeap = false ↔ t.nanos < 1000000000 := by
  simp [isLeap]

@[simp] theorem isLeap_ofNanos (n : Int) : (ofNanos n).isLeap = false := by
  rw [isLeap_eq_false_iff]; simp only [ofNanos, nanos]; omega

theorem ofNanos_toNanos {t : Instant} (h : t.isLeap = false) : ofNanos t.toNanos = t := by
  rw [isLeap_eq_false_iff] at h
  apply ext_ticks
  simp only [nanos] at h
  simp only [toNanos, ofNanos, second, nanos]; omega

theorem ofNanos_le_ofNanos (m n : Int) : ofNanos m ≤ ofNanos n ↔ m ≤ n := by
  simp only [le_iff, ofNanos]; omega

theorem ofNanos_lt_ofNanos (m n : Int) : ofNanos m < ofNanos n ↔ m < n := by
  simp only [lt_iff, ofNanos]; omega

theorem leapBetween_eq_zero {t s : Instant} (ht : t.isLeap = false) (hs : s.isLeap = false) :
    leapBetween t s = 0 := by simp [leapBetween, ht, hs]

theorem since_eq_sub {t s : Instant} (ht : t.isLeap = false) (hs : s.isLeap = false) :
    t.since s = t.toNanos - s.toNanos := by
  simp only [since, leapBetween_eq_zero ht hs, toNanos]; omega

theorem since_ofNanos (m n : Int) : (ofNanos m).since (ofNanos n) = m - n := by
  simp [since_eq_sub]

theorem plus_ofNanos (n : Int) (d : Int) : (ofNanos n).plus d = ofNanos (n + d) := by
  simp [plus]

end Instant

end InFlight
