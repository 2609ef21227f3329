import InFlight.Proofs.Decimal
import InFlight.Proofs.Text
import InFlight.Proofs.Time.Calendar
import InFlight.Time.Timestamp
/-!
An instant is read back from its text: the calendar gives the date its day, and a leap second stands
at the end of a minute.
-/
namespace InFlight.Timestamp

open Decimal (padded takeNumber? takeNumber?_padded length_padded isDigit_of_mem_padded
  padded_ne_nil ofDigits_padded)
open Text (trimStart isBlank)

/-- An instant that a text can name: one of the calendar, and a leap second only behind the last
second of a minute. -/
structure IsNameable (t : Instant) : Prop where
  inCalendar : t.InCalendar
  leapAtEnd : t.isLeap → t.secondOfDay % 60 = 59

section Parts

variable {r : List Char} {n width : Nat}

theorem isDigit_of_padded_append_eq {c : Char} {t : List Char}
    (h : (padded width n).toList ++ r = c :: t) :
    c.isDigit := by
  obtain ⟨d, u, same⟩ := List.exists_cons_of_ne_nil (padded_ne_nil width n)
  rw [same, List.cons_append] at h
  obtain rfl := (List.cons.inj h).1
  exact isDigit_of_mem_padded (by rw [same]; exact List.mem_cons_self)

theorem trimStart_padded_append (width n : Nat) (r : List Char) :
    trimStart ((padded width n).toList ++ r) = (padded width n).toList ++ r := by
  obtain ⟨c, t, same⟩ : ∃ c t, (padded width n).toList ++ r = c :: t :=
    List.exists_cons_of_ne_nil fun empty =>
      padded_ne_nil width n (List.append_eq_nil_iff.mp empty).1
  have decimal := Text.isDecimal_of_isDigit (isDigit_of_padded_append_eq same)
  rw [same]
  exact Text.trimStart_eq_self_of_head (Text.isBlank_eq_false_of_isDecimal decimal)

/-- A number of two digits, whatever follows it. -/
theorem number?_padded (h : n < 100) (r : List Char) :
    number? 2 ((padded 2 n).toList ++ r) = some (n, r) := by
  have two : (padded 2 n).toList.length = 2 := length_padded (by decide) h
  unfold number?
  rw [trimStart_padded_append]
  exact takeNumber?_padded (by omega) (Or.inl two)

theorem separator?_cons {c : Char} (solid : isBlank c = false) (r : List Char) :
    separator? c (c :: r) = some r := by
  simp [separator?, expect, Text.trimStart_eq_self_of_head solid]

theorem year?_minus (r : List Char) :
    year? ('-' :: r) = (takeNumber? r.length r).map fun n => (-(n.1 : Int), n.2) := by
  unfold year?
  rw [Text.trimStart_eq_self_of_head (by decide)]
  rfl

theorem year?_plus (r : List Char) :
    year? ('+' :: r) = (takeNumber? r.length r).map fun n => ((n.1 : Int), n.2) := by
  unfold year?
  rw [Text.trimStart_eq_self_of_head (by decide)]
  rfl

/-- Years of more than four digits, and those before the year zero, have a sign. -/
theorem toList_yearText_of_signed {year : Int} (h : ¬ (0 ≤ year ∧ year ≤ 9999)) :
    (yearText year).toList = (if year < 0 then '-' else '+') :: (padded 4 year.natAbs).toList := by
  unfold yearText
  rw [if_neg h, String.toList_append]
  split <;> rfl

theorem year?_yearText (year : Int) (r : List Char) :
    year? ((yearText year).toList ++ '-' :: r) = some (year, '-' :: r) := by
  have dash : ∀ c, ('-' :: r).head? = some c → c.isDigit = false := by
    rintro c h
    obtain rfl := Option.some.inj h
    rfl
  by_cases plain : 0 ≤ year ∧ year ≤ 9999
  · unfold yearText
    rw [if_pos plain]
    have four : (padded 4 year.toNat).toList.length = 4 := length_padded (by decide) (by omega)
    have taken : takeNumber? 4 ((padded 4 year.toNat).toList ++ '-' :: r) =
        some (year.toNat, '-' :: r) :=
      takeNumber?_padded (by omega) (Or.inl four)
    have value : ((year.toNat : Nat) : Int) = year := by omega
    unfold year?
    rw [trimStart_padded_append]
    split
    · rename_i t same
      exact absurd (isDigit_of_padded_append_eq same) (by decide)
    · rename_i t same
      exact absurd (isDigit_of_padded_append_eq same) (by decide)
    · simp [taken, value]
  · have taken : takeNumber? ((padded 4 year.natAbs).toList ++ '-' :: r).length
        ((padded 4 year.natAbs).toList ++ '-' :: r) = some (year.natAbs, '-' :: r) :=
      takeNumber?_padded (by simp) (Or.inr dash)
    rw [toList_yearText_of_signed plain, List.cons_append]
    by_cases negative : year < 0
    · have value : -((year.natAbs : Nat) : Int) = year := by omega
      rw [if_pos negative, year?_minus, taken, Option.map_some, value]
    · have value : ((year.natAbs : Nat) : Int) = year := by omega
      rw [if_neg negative, year?_plus, taken, Option.map_some, value]

theorem date?_of_isValid {date : Date} (h : date.IsValid) (r : List Char) :
    date? ((yearText date.year).toList ++ '-' :: ((padded 2 date.month).toList ++
      '-' :: ((padded 2 date.day).toList ++ r))) = some (date, r) := by
  have dash : isBlank '-' = false := by decide
  simp [date?, year?_yearText, separator?_cons dash, number?_padded h.month_lt,
    number?_padded h.day_lt, h]

theorem fraction?_point (r : List Char) :
    fraction? ('.' :: r) = match Decimal.takeDigits r.length r with
    | ([], _) => none
    | (digits, r) =>
      some (Decimal.ofDigits 10 (digits.take 9) * Decimal.tenTo (9 - (digits.take 9).length), r) :=
  rfl

/-- A fraction of three, six or nine digits. -/
theorem fraction?_padded {places : Nat} (pos : 0 < places) (most : places ≤ 9) (h : n < 10 ^ places)
    (r : List Char) :
    fraction? ('.' :: ((padded places n).toList ++ 'Z' :: r)) =
      some (n * 10 ^ (9 - places), 'Z' :: r) := by
  have length := length_padded pos h
  have taken : Decimal.takeDigits ((padded places n).toList ++ 'Z' :: r).length
      ((padded places n).toList ++ 'Z' :: r) =
      ((padded places n).toList, 'Z' :: r) := by
    refine Decimal.takeDigits_append (fun c hc => isDigit_of_mem_padded hc) (by simp) (Or.inr ?_)
    rintro c head
    obtain rfl := Option.some.inj head
    rfl
  rw [fraction?_point, taken]
  split
  · rename_i empty
    exact absurd (Prod.mk.inj empty).1 (padded_ne_nil places n)
  · rename_i digits rest _ same
    obtain ⟨rfl, rfl⟩ := Prod.mk.inj same
    have all : (padded places n).toList.take 9 = (padded places n).toList :=
      List.take_of_length_le (by omega)
    rw [all, ofDigits_padded, length]
    rfl

theorem fraction?_fractionText (h : n < 1000000000) (r : List Char) :
    fraction? ((fractionText n).toList ++ 'Z' :: r) = some (n, 'Z' :: r) := by
  unfold fractionText
  by_cases whole : n = 0
  · simp [whole, fraction?]
  · rw [if_neg whole]
    by_cases milli : n % 1000000 = 0
    · have value : n / 1000000 * 10 ^ (9 - 3) = n := by omega
      have read := fraction?_padded (show 0 < 3 by decide) (by decide)
        (show n / 1000000 < 10 ^ 3 by omega) r
      rw [value] at read
      rw [if_pos milli]
      simpa using read
    · rw [if_neg milli]
      by_cases micro : n % 1000 = 0
      · have value : n / 1000 * 10 ^ (9 - 6) = n := by omega
        have read := fraction?_padded (show 0 < 6 by decide) (by decide)
          (show n / 1000 < 10 ^ 6 by omega) r
        rw [value] at read
        rw [if_pos micro]
        simpa using read
      · rw [if_neg micro]
        simpa using fraction?_padded (show 0 < 9 by decide) (by decide) (show n < 10 ^ 9 by omega) r

/-- The sixtieth second is the leap second behind the one before it. -/
theorem time?_render {hour minute second : Nat} (hours : hour < 24) (minutes : minute < 60)
    (seconds : second ≤ 60) (h : n < 1000000000) (r : List Char) :
    time? ((padded 2 hour).toList ++ ':' ::
      ((padded 2 minute).toList ++ ':' :: ((padded 2 second).toList ++
      ((fractionText n).toList ++ 'Z' :: r)))) =
      some (if second = 60 then (hour * 3600 + minute * 60 + 59, n + 1000000000, 'Z' :: r)
        else (hour * 3600 + minute * 60 + second, n, 'Z' :: r)) := by
  have colon : isBlank ':' = false := by decide
  have all : hour < 24 ∧ minute < 60 ∧ second ≤ 60 := ⟨hours, minutes, seconds⟩
  simp only [time?, number?_padded (show hour < 100 by omega),
    number?_padded (show minute < 100 by omega), number?_padded (show second < 100 by omega),
    separator?_cons colon, fraction?_fractionText h, Option.bind_eq_bind, Option.bind_some,
    if_pos all]
  split <;> rfl

end Parts

theorem toList_render (t : Instant) : (render t).toList =
    (yearText (Date.ofDay t.day).year).toList ++ '-' ::
    ((padded 2 (Date.ofDay t.day).month).toList ++
      '-' :: ((padded 2 (Date.ofDay t.day).day).toList ++ 'T' ::
        ((padded 2 (t.secondOfDay.toNat / 3600)).toList ++
        ':' :: ((padded 2 (t.secondOfDay.toNat / 60 % 60)).toList ++ ':' ::
          ((padded 2 (if t.isLeap then t.secondOfDay.toNat % 60 + 1
            else t.secondOfDay.toNat % 60)).toList ++
            ((fractionText (t.nanos.toNat % 1000000000)).toList ++ ['Z'])))))) := by
  simp [render, localText]

/-- The time of day that is read: in a leap second, the second before it with a thousand million
nanoseconds more. -/
theorem time?_of_isNameable {t : Instant} (h : IsNameable t) (r : List Char) :
    time? ((padded 2 (t.secondOfDay.toNat / 3600)).toList ++ ':' ::
      ((padded 2 (t.secondOfDay.toNat / 60 % 60)).toList ++ ':' ::
        ((padded 2 (if t.isLeap then t.secondOfDay.toNat % 60 + 1
            else t.secondOfDay.toNat % 60)).toList ++
          ((fractionText (t.nanos.toNat % 1000000000)).toList ++ 'Z' :: r)))) =
      some (t.secondOfDay.toNat, t.nanos.toNat, 'Z' :: r) := by
  have day : 0 ≤ t.secondOfDay ∧ t.secondOfDay < 86400 := by
    simp only [Instant.secondOfDay]
    omega
  have nanos : 0 ≤ t.nanos ∧ t.nanos < 2000000000 := by
    simp only [Instant.nanos]
    omega
  have seconds : (if t.isLeap then t.secondOfDay.toNat % 60 + 1 else t.secondOfDay.toNat % 60) ≤
      60 := by
    split <;> omega
  rw [time?_render (by omega) (by omega) seconds (by omega) r]
  cases leap : t.isLeap with
  | true =>
    have last := h.leapAtEnd leap
    have behind : 1000000000 ≤ t.nanos := by simpa [Instant.isLeap] using leap
    have sixty : t.secondOfDay.toNat % 60 + 1 = 60 := by omega
    simp only [if_true, sixty, Option.some.injEq, Prod.mk.injEq, and_true]
    omega
  | false =>
    have before := (Instant.isLeap_eq_false_iff t).mp leap
    have not_sixty : t.secondOfDay.toNat % 60 ≠ 60 := by omega
    simp only [Bool.false_eq_true, if_false, not_sixty, Option.some.injEq, Prod.mk.injEq, and_true]
    omega

theorem read?_render {t : Instant} (h : IsNameable t) : read? (render t).toList = some t := by
  have offset : offset? (trimStart ['Z']) = some (0, []) := by decide
  have mark (r : List Char) : dateTimeMark? ('T' :: r) = some r := rfl
  have instant : Instant.ofReading ((Date.ofDay t.day).toDay * 86400 +
      (t.secondOfDay.toNat : Nat) - 0)
      t.nanos.toNat = t := by
    apply Instant.ext_ticks
    rw [Date.toDay_ofDay]
    simp only [Instant.ofReading, Instant.day, Instant.secondOfDay, Instant.second, Instant.nanos]
    omega
  have ends : trimStart [] = [] ∧ Instant.firstDay ≤ (Date.ofDay t.day).toDay ∧
      (Date.ofDay t.day).toDay ≤ Instant.lastDay ∧ t.InCalendar := by
    rw [Date.toDay_ofDay]
    exact ⟨rfl, h.inCalendar.1, h.inCalendar.2, h.inCalendar⟩
  simp only [read?, toList_render, date?_of_isValid (Date.isValid_ofDay t.day), mark,
    time?_of_isNameable h, offset, instant, Option.bind_eq_bind, Option.bind_some, if_pos ends]

theorem length_fractionText_le {n : Nat} (h : n < 1000000000) :
    (fractionText n).toList.length ≤ 10 := by
  have three : n / 1000000 < 10 ^ 3 := by omega
  have six : n / 1000 < 10 ^ 6 := by omega
  unfold fractionText
  repeat' split
  · simp
  · simp [length_padded (show 0 < 3 by decide) three]
  · simp [length_padded (show 0 < 6 by decide) six]
  · simp [length_padded (show 0 < 9 by decide) h]

theorem length_yearText_le {year : Int} (h : year.natAbs < 1000000) :
    (yearText year).toList.length ≤ 7 := by
  have six : (padded 4 year.natAbs).toList.length ≤ 6 := by
    have digits := (Nat.length_toDigits_le_iff (b := 10) (k := 6) (by decide) (by decide)).mpr h
    rw [Decimal.toList_padded, List.length_append, List.length_replicate]
    omega
  by_cases plain : 0 ≤ year ∧ year ≤ 9999
  · unfold yearText
    rw [if_pos plain, length_padded (by decide) (by omega)]
    decide
  · rw [toList_yearText_of_signed plain, List.length_cons]
    omega

/-- Within the calendar no text is longer than that. -/
theorem length_render_le {t : Instant} (h : t.InCalendar) : (render t).toList.length ≤ 33 := by
  have valid := Date.isValid_ofDay t.day
  have year := length_yearText_le (Date.natAbs_year_ofDay_lt h.1 h.2)
  have month := length_padded (show 0 < 2 by decide) valid.month_lt
  have day := length_padded (show 0 < 2 by decide) valid.day_lt
  have within : t.secondOfDay.toNat < 86400 := by
    simp only [Instant.secondOfDay]
    omega
  have hour := length_padded (show 0 < 2 by decide)
    (show t.secondOfDay.toNat / 3600 < 10 ^ 2 by omega)
  have minute := length_padded (show 0 < 2 by decide)
    (show t.secondOfDay.toNat / 60 % 60 < 10 ^ 2 by omega)
  have second := length_padded (show 0 < 2 by decide)
    (show (if t.isLeap then t.secondOfDay.toNat % 60 + 1 else t.secondOfDay.toNat % 60) <
      10 ^ 2 by split <;> omega)
  have fraction := length_fractionText_le (show t.nanos.toNat % 1000000000 < 1000000000 by omega)
  rw [toList_render]
  simp only [List.length_append, List.length_cons, List.length_nil, month, day, hour,
    minute, second]
  omega

section Read

variable {s r : List Char} {n : Nat}

theorem lt_of_fraction? (h : fraction? s = some (n, r)) : n < 1000000000 := by
  unfold fraction? at h
  split at h
  · split at h
    · cases h
    · rename_i digits rest _ taken
      obtain ⟨rfl, -⟩ := Prod.mk.inj (Option.some.inj h)
      have all : ∀ c ∈ digits.take 9, c.isDigit := by
        intro c hc
        have among := List.mem_of_mem_take hc
        rw [← (Prod.mk.inj taken).1] at among
        exact List.mem_takeWhile_imp among
      have short : (digits.take 9).length ≤ 9 := List.length_take_le 9 digits
      calc Decimal.ofDigits 10 (digits.take 9) * Decimal.tenTo (9 - (digits.take 9).length)
          < 10 ^ (digits.take 9).length * 10 ^ (9 - (digits.take 9).length) :=
            Nat.mul_lt_mul_of_pos_right (Decimal.ofDigits_lt all) (Nat.pow_pos (by decide))
        _ = 1000000000 := by rw [← Nat.pow_add, Nat.add_sub_cancel' short]
  · obtain ⟨rfl, -⟩ := Prod.mk.inj (Option.some.inj h)
    decide

/-- A time of day that is read as a leap second stands at the end of a minute. -/
theorem leap_of_time? {second nanos : Nat} (h : time? s = some (second, nanos, r)) :
    nanos < 2000000000 ∧ (1000000000 ≤ nanos → second % 60 = 59) := by
  simp only [time?, Option.bind_eq_bind, Option.bind_eq_some_iff, Prod.exists] at h
  obtain ⟨hour, _, -, _, -, minute, _, -, _, -, sec, _, -, fraction, _, found, h⟩ := h
  have below := lt_of_fraction? found
  split at h
  · split at h
    · simp only [Option.some.injEq, Prod.mk.injEq] at h
      omega
    · simp only [Option.some.injEq, Prod.mk.injEq] at h
      omega
  · cases h

theorem hoursMinutes?_dvd (h : hoursMinutes? s = some (n, r)) : n % 60 = 0 := by
  simp only [hoursMinutes?, Option.bind_eq_bind, Option.bind_eq_some_iff, Prod.exists] at h
  obtain ⟨hours, _, -, minutes, _, -, h⟩ := h
  split at h
  · simp only [Option.some.injEq, Prod.mk.injEq] at h
    omega
  · cases h

theorem offset?_dvd {offset : Int} (h : offset? s = some (offset, r)) : offset % 60 = 0 := by
  unfold offset? at h
  split at h
  · cases h
  · split at h
    · obtain ⟨rfl, -⟩ := Prod.mk.inj (Option.some.inj h)
      rfl
    · split at h
      · obtain ⟨rfl, -⟩ := Prod.mk.inj (Option.some.inj h)
        rfl
      · split at h
        · obtain ⟨⟨n, t⟩, found, same⟩ := Option.map_eq_some_iff.mp h
          have whole := hoursMinutes?_dvd found
          simp only [Prod.mk.injEq] at same
          omega
        · split at h
          · obtain ⟨⟨n, t⟩, found, same⟩ := Option.map_eq_some_iff.mp h
            have whole := hoursMinutes?_dvd found
            simp only [Prod.mk.injEq] at same
            omega
          · cases h

theorem isNameable_of_read? {t : Instant} (h : read? s = some t) : IsNameable t := by
  simp only [read?, Option.bind_eq_bind, Option.bind_eq_some_iff, Prod.exists] at h
  obtain ⟨date, _, -, _, -, second, nanos, _, timed, offset, _, shifted, h⟩ := h
  split at h
  · rename_i fine
    obtain ⟨below, leap⟩ := leap_of_time? timed
    have minutes := offset?_dvd shifted
    obtain rfl := Option.some.inj h
    refine ⟨fine.2.2.2, fun leaps => ?_⟩
    have past : 1000000000 ≤ ((date.toDay * 86400 + second - offset) * 2000000000 + (nanos : Int)) %
        2000000000 := by
      simpa [Instant.isLeap, Instant.nanos, Instant.ofReading] using leaps
    have late := leap (by omega)
    simp only [Instant.secondOfDay, Instant.second, Instant.ofReading]
    omega
  · cases h

end Read

end InFlight.Timestamp
