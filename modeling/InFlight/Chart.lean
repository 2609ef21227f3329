import InFlight.Sweep
/-!
The usage chart of a log: for every window its start, the transfers of each category in flight and
the mean latencies, as series of one length.
-/
namespace InFlight

structure Chart (α : Type) where
  intervals : List Instant
  categories : NameSet
  counts : NameMap (List Int)
  ideal : List α
  real : List α
  pointCounts : List Nat

inductive RatePolicy where
  | firstEvent
  | fixed (rate : Int)
  | perEvent
  deriving DecidableEq, Repr

structure ChartOptions where
  width : Width
  rate : RatePolicy
  deriving DecidableEq, Repr

def ChartOptions.standard : ChartOptions := ⟨Width.standard, .firstEvent⟩

def RatePolicy.resolve (policy : RatePolicy) (events : List Event) :
    Except ChartError NominalRate :=
  match policy with
  | firstEvent => match events with
    | [] => .error .emptyLog
    | e :: _ => .ok (.runWide e.localRate)
  | fixed rate => .ok (.runWide rate)
  | perEvent => .ok .perEvent

namespace Chart

variable {α : Type}

def length (c : Chart α) : Nat := c.intervals.length
def isEmpty (c : Chart α) : Bool := c.intervals.isEmpty

/-- Every series has one entry for each window, save that the endpoint counts may be missing. -/
def isAligned (c : Chart α) : Bool :=
  c.ideal.length == c.length && c.real.length == c.length &&
    (c.pointCounts.isEmpty || c.pointCounts.length == c.length) &&
    c.categories.size == c.counts.size && c.counts.values.all (·.length == c.length)

def activeWindows (c : Chart α) : List Nat :=
  (c.pointCounts.zipIdx.filter fun (n, _) => 0 < n).map (·.2)

def CoversActive (c : Chart α) : Prop :=
  ∀ i ∈ c.activeWindows, i < c.ideal.length ∧ i < c.real.length

def series (c : Chart α) (category : String) : Option (List Int) := c.counts.get? category

/-- Buckets as series. A category without a count in some bucket has a zero there. -/
def assemble (categories : NameSet) (buckets : List (Bucket α)) : Chart α :=
  { intervals := buckets.map Bucket.start
    categories := categories
    counts := categories.mapWithName fun name _ => buckets.map fun b => b.counts.count name
    ideal := buckets.map Bucket.ideal
    real := buckets.map Bucket.real
    pointCounts := buckets.map Bucket.points }

theorem lt_of_mem_activeWindows {c : Chart α} {i : Nat} (h : i ∈ c.activeWindows) :
    i < c.pointCounts.length := by
  simp only [activeWindows, List.mem_map, List.mem_filter] at h
  obtain ⟨⟨n, j⟩, ⟨mem, _⟩, rfl⟩ := h
  have := List.snd_lt_of_mem_zipIdx mem
  simpa using this

theorem coversActive_assemble (categories : NameSet) (buckets : List (Bucket α)) :
    (assemble categories buckets).CoversActive := by
  intro i hi
  have := lt_of_mem_activeWindows hi
  simpa [assemble] using this

variable (α) [Arithmetic α]

def nominalRate (events : List Event) (policy : RatePolicy) : Except ChartError NominalRate := do
  let nominal ← policy.resolve events
  match nominal.check events with
  | .ok nominal => .ok nominal
  | .error e => .error (.rate e)

def build (events : List Event) (options : ChartOptions) : Except ChartError (Chart α) :=
  if events = [] then .error .emptyLog
  else do
    let nominal ← nominalRate events options.rate
    let buckets ← Sweep.run α (Endpoint.ofEvents events) options.width nominal
    return assemble (NameSet.ofList (events.map Event.category)) buckets

variable {α}

theorem exists_assemble_of_build {events : List Event} {options : ChartOptions} {c : Chart α}
    (h : build α events options = .ok c) :
    ∃ buckets, c = assemble (NameSet.ofList (events.map Event.category)) buckets := by
  unfold build at h
  split at h
  · cases h
  · cases rate : nominalRate events options.rate with
    | error e => simp [rate, bind, Except.bind] at h
    | ok nominal =>
      cases run : Sweep.run α (Endpoint.ofEvents events) options.width nominal with
      | error e => simp [rate, run, bind, Except.bind] at h
      | ok buckets =>
        simp only [rate, run, bind, Except.bind, pure, Except.pure, Except.ok.injEq] at h
        exact ⟨buckets, h.symm⟩

theorem coversActive_of_build {events : List Event} {options : ChartOptions} {c : Chart α}
    (h : build α events options = .ok c) : c.CoversActive := by
  obtain ⟨buckets, rfl⟩ := exists_assemble_of_build h
  exact coversActive_assemble _ buckets

end Chart

end InFlight
