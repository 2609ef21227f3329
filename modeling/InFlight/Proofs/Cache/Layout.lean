import InFlight.Cache.Layout
import InFlight.Proofs.Time.Timestamp
/-!
What a cache holds is what was put in it: every reader takes exactly the bytes that its writer gave,
and nothing of fewer.
-/
namespace InFlight.Cache

section Reads

variable {α β : Type} {f : Bytes → Option (α × Bytes)} {s t : Bytes} {a : α} {b : β}

/-- A reader takes these bytes for a value whatever stands behind them, and a part of them for
nothing. -/
structure Reads (f : Bytes → Option (α × Bytes)) (bytes : Bytes) (a : α) : Prop where
  whole : ∀ rest, f (bytes ++ rest) = some (a, rest)
  part : ∀ p, p <+: bytes → p ≠ bytes → f p = none

theorem Reads.pure (a : α) : Reads (fun x => some (a, x)) [] a where
  whole _ := rfl
  part _ before less := absurd (List.prefix_nil.mp before) less

/-- One reader behind another. -/
theorem Reads.bind {g : α × Bytes → Option (β × Bytes)} (hf : Reads f s a)
    (hg : Reads (fun x => g (a, x)) t b) :
    Reads (fun x => (f x).bind g) (s ++ t) b where
  whole rest := by rw [List.append_assoc, hf.whole, Option.bind_some, hg.whole]
  part p before less := by
    -- the part ends within the bytes of the first, or goes on into those of the second
    rcases List.prefix_or_prefix_of_prefix before (List.prefix_append s t) with inside | ⟨q, rfl⟩
    · by_cases all : p = s
      · subst all
        have some_left : [] ≠ t := fun empty => less (by rw [← empty, List.append_nil])
        have read := hf.whole []
        rw [List.append_nil] at read
        rw [read, Option.bind_some, hg.part [] List.nil_prefix some_left]
      · rw [hf.part p inside all, Option.bind_none]
    · have behind : q <+: t := (List.prefix_append_right_inj s).mp before
      have fewer : q ≠ t := fun same => less (by rw [same])
      rw [hf.whole, Option.bind_some, hg.part q behind fewer]

theorem Reads.map (hf : Reads f s a) (φ : α → β) :
    Reads (fun x => (f x).map fun y => (φ y.1, y.2)) s (φ a) where
  whole rest := by simp [hf.whole]
  part p before less := by simp [hf.part p before less]

/-- What was read is looked up or decoded. -/
theorem Reads.decode {g : α × Bytes → Option (β × Bytes)} (hf : Reads f s a)
    (h : ∀ x, g (a, x) = some (b, x)) :
    Reads (fun x => (f x).bind g) s b where
  whole rest := by rw [hf.whole, Option.bind_some, h]
  part p before less := by rw [hf.part p before less, Option.bind_none]

end Reads

theorem length_littleEndian (count n : Nat) : (littleEndian count n).length = count := by
  induction count generalizing n with
  | zero => rfl
  | succ count ih => simp [littleEndian, ih]

theorem takeLittleEndian?_eq_none {count : Nat} {s : Bytes} (h : s.length < count) :
    takeLittleEndian? count s = none := by
  induction count generalizing s with
  | zero => omega
  | succ count ih =>
    cases s with
    | nil => rfl
    | cons b s =>
      rw [List.length_cons] at h
      rw [takeLittleEndian?, ih (by omega), Option.map_none]

theorem length_lt_of_prefix {p s : Bytes} (before : p <+: s) (less : p ≠ s) : p.length < s.length :=
  Nat.lt_of_le_of_ne before.length_le fun same => less (before.eq_of_length same)

theorem reads_littleEndian (count n : Nat) :
    Reads (takeLittleEndian? count) (littleEndian count n) (n % 256 ^ count) where
  whole rest := by
    induction count generalizing n with
    | zero => simp [takeLittleEndian?, littleEndian, Nat.mod_one]
    | succ count ih =>
      rw [littleEndian, List.cons_append, takeLittleEndian?, ih, Option.map_some, Nat.pow_succ,
        Nat.mul_comm _ 256, Nat.mod_mul]
      simp
  part p before less := by
    have fewer := length_lt_of_prefix before less
    rw [length_littleEndian] at fewer
    exact takeLittleEndian?_eq_none fewer

def IsWord (n : Nat) : Prop := n < Word.count64

instance (n : Nat) : Decidable (IsWord n) := inferInstanceAs (Decidable (_ < _))

def IsShort (s : String) : Prop := IsWord s.utf8ByteSize

theorem reads_word {n : Nat} (h : IsWord n) : Reads takeWord? (word n) n := by
  have same : n % 256 ^ 8 = n := Nat.mod_eq_of_lt h
  have reads := reads_littleEndian 8 n
  rwa [same] at reads

theorem reads_signed {n : Int} (h : Word.IsSigned64 n) : Reads takeSigned? (signed n) n := by
  have bounds := h
  simp only [Word.IsSigned64, Word.least64, Word.most64] at bounds
  have word : IsWord (n % Word.count64).toNat := by
    simp only [IsWord, Word.count64]
    omega
  have wrapped : Word.wrap64 ((n % Word.count64).toNat : Nat) = n := by
    simp only [Word.wrap64, Word.count64, Int.bmod]
    omega
  have reads := (reads_word word).map fun n => Word.wrap64 n
  rwa [wrapped] at reads

theorem reads_bytes (s : Bytes) : Reads (takeBytes? s.length) s s where
  whole rest := by simp [takeBytes?]
  part p before less := by
    have fewer := length_lt_of_prefix before less
    simp [takeBytes?, fewer]

theorem fromUTF8?_toUTF8 (s : String) :
    String.fromUTF8? (ByteArray.mk s.toUTF8.data.toList.toArray) = some s :=
  dif_pos s.isValidUTF8

theorem reads_text {s : String} (h : IsShort s) : Reads takeText? (text s) s := by
  have length := reads_word (n := s.toUTF8.data.toList.length) h
  refine length.bind ((reads_bytes _).decode fun x => ?_)
  change (String.fromUTF8? (ByteArray.mk s.toUTF8.data.toList.toArray)).bind _ = _
  rw [fromUTF8?_toUTF8, Option.bind_some]

theorem reads_instant {t : Instant} (h : Timestamp.IsNameable t) :
    Reads takeInstant? (instant t) t := by
  have short : IsShort (Timestamp.render t) := by
    have length := Timestamp.length_render_le h.inCalendar
    have size := Text.byteSize_le_four_mul_length (Timestamp.render t).toList
    unfold IsShort
    rw [Text.utf8ByteSize_eq_byteSize]
    exact Nat.lt_of_le_of_lt (Nat.le_trans size (Nat.mul_le_mul_left 4 length)) (by decide)
  refine (reads_text short).decode fun x => ?_
  change (Timestamp.read? (Timestamp.render t).toList).bind _ = _
  rw [Timestamp.read?_render h, Option.bind_some]

structure IsStorable (e : Event) : Prop where
  sender : IsShort e.sender
  receiver : IsShort e.receiver
  category : IsShort e.category
  size : Word.IsSigned64 e.size
  start : Timestamp.IsNameable e.start
  finish : Timestamp.IsNameable e.finish
  localRate : Word.IsSigned64 e.localRate
  globalRate : Word.IsSigned64 e.globalRate
  id : IsWord e.id

theorem reads_event {e : Event} (h : IsStorable e) : Reads takeEvent? (event e) e := by
  have bytes : event e = text e.sender ++
      (text e.receiver ++ (text e.category ++ (signed e.size ++ (instant e.start ++
      (instant e.finish ++
        (signed e.localRate ++ (signed e.globalRate ++ (word e.id ++ [])))))))) := by
    simp [event]
  rw [bytes]
  refine (reads_text h.sender).bind ?_
  refine (reads_text h.receiver).bind ?_
  refine (reads_text h.category).bind ?_
  refine (reads_signed h.size).bind ?_
  refine (reads_instant h.start).bind ?_
  refine (reads_instant h.finish).bind ?_
  refine (reads_signed h.localRate).bind ?_
  refine (reads_signed h.globalRate).bind ?_
  exact (reads_word h.id).bind (.pure e)

theorem reads_events {events : List Event} (h : ∀ e ∈ events, IsStorable e) :
    Reads (takeEvents? events.length) (events.flatMap event) events := by
  induction events with
  | nil => exact .pure []
  | cons e events ih =>
    obtain ⟨first, others⟩ := List.forall_mem_cons.mp h
    have bytes : (e :: events).flatMap event = event e ++ (events.flatMap event ++ []) := by simp
    rw [bytes]
    refine (reads_event first).bind ?_
    exact (ih others).bind (.pure (e :: events))

/-- The events of a cache, and the bytes behind them. -/
theorem reads_encode {events : List Event} (count : IsWord events.length)
    (h : ∀ e ∈ events, IsStorable e) :
    Reads (fun s => (takeWord? s).bind fun y => takeEvents? y.1 y.2) (encode events) events := by
  refine (reads_word count).bind ?_
  exact reads_events h

theorem decode?_eq_map (s : Bytes) :
    decode? s = ((takeWord? s).bind fun y => takeEvents? y.1 y.2).map Prod.fst := by
  unfold decode?
  cases takeWord? s with
  | none => rfl
  | some y =>
    simp only [Option.bind_eq_bind, Option.bind_some]
    cases takeEvents? y.1 y.2 <;> rfl

theorem decode?_encode {events : List Event} (count : IsWord events.length)
    (h : ∀ e ∈ events, IsStorable e) :
    decode? (encode events) = some events := by
  have read := (reads_encode count h).whole []
  rw [List.append_nil] at read
  rw [decode?_eq_map, read, Option.map_some]

/-- A cache that was cut off holds nothing. -/
theorem decode?_of_prefix {events : List Event} (count : IsWord events.length)
    (h : ∀ e ∈ events, IsStorable e) {p : Bytes} (before : p <+: encode events)
    (less : p ≠ encode events) : decode? p = none := by
  have read := (reads_encode count h).part p before less
  rw [decode?_eq_map, read, Option.map_none]

end InFlight.Cache
