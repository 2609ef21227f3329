import InFlight.Proofs.NameMap
import InFlight.Proofs.Time.Scale
import InFlight.Summary
import Mathlib.Algebra.BigOperators.Group.List.Lemmas
import Mathlib.Algebra.GroupWithZero.Nat
import Mathlib.Algebra.Ring.Int.Defs
import Mathlib.Order.Bounds.Basic
/-!
The totals of a summary: one for each category of the log, with its transfers, their bytes and the
peak of its series. The bytes are summed up in words, and are the sum of the sizes as long as no sum
on the way leaves them.
-/
namespace InFlight.Summary

variable {events : List Event} {chart : Chart Float}

theorem categories_of_of? {timestamp : String} {width : Width} {summary : Summary}
    (h : of? timestamp events chart width = some summary) :
    summary.categories = categoryTotals events chart := by
  unfold of? at h
  simp only [bind, Option.bind_eq_some_iff, pure, Option.some.injEq] at h
  obtain ⟨_, _, _, _, rfl⟩ := h
  rfl

theorem isSome_totals (events : List Event) (category : String) :
    ((totals events).get? category).isSome ↔ category ∈ events.map Event.category :=
  NameMap.isSome_get?_foldl_upsert Event.category _ events category

/-- A category has a total if it has an event. -/
theorem exists_total {category : String} (h : category ∈ events.map Event.category) :
    ∃ total ∈ categoryTotals events chart, total.category = category := by
  obtain ⟨sums, held⟩ := Option.isSome_iff_exists.mp ((isSome_totals events category).mpr h)
  exact ⟨_, List.mem_map_of_mem ((NameMap.mem_entries_iff _ _ _).mpr held), rfl⟩

theorem category_and_peak_of_mem {total : CategoryTotal} (h : total ∈ categoryTotals events chart) :
    total.category ∈ events.map Event.category ∧
      total.peak = peakOf ((chart.series total.category).getD []) := by
  obtain ⟨⟨category, sums⟩, held, rfl⟩ := List.mem_map.mp h
  have found := (NameMap.mem_entries_iff _ _ _).mp held
  exact ⟨(isSome_totals events category).mp (Option.isSome_iff_exists.mpr ⟨sums, found⟩), rfl⟩

theorem isGreatest_peakOf {series : List Int} (h : series ≠ []) :
    IsGreatest {n | n ∈ series} (peakOf series) := by
  obtain ⟨peak, greatest⟩ : ∃ peak, series.max? = some peak := by
    rw [← Option.isSome_iff_exists, List.isSome_max?_iff]
    exact h
  have least := List.max?_eq_some_iff.mp greatest
  rw [peakOf, greatest]
  exact ⟨least.1, fun n hn => least.2 n hn⟩

theorem counts_of_of? {timestamp : String} {width : Width} {summary : Summary}
    (h : of? timestamp events chart width = some summary) :
    summary.events = events.length ∧ summary.windows = chart.length ∧
      summary.activeWindows = chart.activeWindows.length := by
  unfold of? at h
  simp only [bind, Option.bind_eq_some_iff, pure, Option.some.injEq] at h
  obtain ⟨_, _, _, _, rfl⟩ := h
  exact ⟨rfl, rfl, rfl⟩

theorem length_activeWindows (chart : Chart Float) :
    chart.activeWindows.length = chart.pointCounts.countP fun n => 0 < n := by
  rw [Chart.activeWindows, List.length_map, ← List.countP_eq_length_filter]
  conv_rhs => rw [← List.zipIdx_map_fst 0 chart.pointCounts, List.countP_map]
  rfl

section Bytes

/-- No sum of the first sizes leaves the words of 64 bits. -/
def SumsFit (sizes : List Int) : Prop := ∀ k, Word.IsSigned64 (sizes.take k).sum

theorem foldl_wrap64_add {sizes : List Int} {before : Int}
    (fit : ∀ k, Word.IsSigned64 (before + (sizes.take k).sum)) :
    sizes.foldl (fun bytes size => Word.wrap64 (bytes + size)) before = before + sizes.sum := by
  induction sizes generalizing before with
  | nil => simp
  | cons size sizes ih =>
    have here : Word.wrap64 (before + size) = before + size :=
      Word.wrap64_eq_self (by simpa using fit 1)
    have behind (k : Nat) : Word.IsSigned64 (before + size + (sizes.take k).sum) := by
      have next := fit (k + 1)
      rwa [List.take_succ_cons, List.sum_cons, ← add_assoc] at next
    rw [List.foldl_cons, here, ih behind, List.sum_cons, add_assoc]

theorem foldl_wrap64_eq_sum {sizes : List Int} (fit : SumsFit sizes) :
    sizes.foldl (fun bytes size => Word.wrap64 (bytes + size)) 0 = sizes.sum := by
  rw [foldl_wrap64_add fun k => by simpa using fit k, zero_add]

end Bytes

section Totals

def ofCategory (events : List Event) (category : String) :
    List Event := events.filter fun e => e.category = category

def tally (e : Event) (old : Option (Nat × Int)) : Nat × Int :=
  let (transfers, bytes) := old.getD (0, 0)
  (transfers + 1, Word.wrap64 (bytes + e.size))

theorem totals_eq (events : List Event) :
    totals events = events.foldl (fun m e => m.upsert e.category (tally e)) NameMap.empty := rfl

theorem foldl_tally (l : List Event) (transfers : Nat) (bytes : Int) :
    l.foldl (fun old e => some (tally e old)) (some (transfers, bytes)) =
      some (transfers + l.length, (l.map Event.size).foldl (fun b size =>
        Word.wrap64 (b + size)) bytes) := by
  induction l generalizing transfers bytes with
  | nil => rfl
  | cons e l ih =>
    rw [List.foldl_cons, tally, Option.getD_some, ih, List.map_cons, List.foldl_cons,
      List.length_cons]
    congr 2
    omega

/-- Under each name stand the number of its events and the sum of their sizes, in words. -/
theorem get?_totals {category : String} (h : category ∈ events.map Event.category) :
    (totals events).get? category = some ((ofCategory events category).length,
      ((ofCategory events category).map Event.size).foldl (fun b size =>
        Word.wrap64 (b + size)) 0) := by
  have some_event : ofCategory events category ≠ [] := by
    obtain ⟨e, he, same⟩ := List.mem_map.mp h
    exact List.ne_nil_of_mem (List.mem_filter.mpr ⟨he, by simpa using same⟩)
  rw [totals_eq, NameMap.get?_foldl_upsert, NameMap.get?_empty]
  change (ofCategory events category).foldl _ none = _
  cases split : ofCategory events category with
  | nil => exact absurd split some_event
  | cons e l =>
    -- the first event of a name counts from zero, as if zeros had stood there
    have first : tally e none = (1, Word.wrap64 (0 + e.size)) := rfl
    rw [List.foldl_cons, first, foldl_tally, List.map_cons, List.foldl_cons,
      List.length_cons, Nat.add_comm]

theorem keys_totals (events : List Event) :
    (totals events).keys = (NameSet.ofList (events.map Event.category)).toList := by
  have names : (totals events).mapWithName (fun _ _ => PUnit.unit) =
      NameSet.ofList (events.map Event.category) := by
    apply NameMap.ext_get?
    intro name
    have held := isSome_totals events name
    rw [NameMap.get?_mapWithName, NameSet.get?_ofList]
    by_cases mem : name ∈ events.map Event.category
    · obtain ⟨sums, found⟩ := Option.isSome_iff_exists.mp (held.mpr mem)
      rw [if_pos mem, found]
      rfl
    · rw [if_neg mem, Option.not_isSome_iff_eq_none.mp (mt held.mp mem)]
      rfl
  rw [NameSet.toList, ← names, NameMap.keys_mapWithName]

theorem map_category_categoryTotals (events : List Event) (chart : Chart Float) :
    (categoryTotals events chart).map CategoryTotal.category =
      (NameSet.ofList (events.map Event.category)).toList := by
  rw [← keys_totals, categoryTotals, List.map_map]
  rfl

theorem transfers_and_bytes_of_mem {total : CategoryTotal}
    (h : total ∈ categoryTotals events chart) :
    total.transfers = (ofCategory events total.category).length ∧
      (SumsFit ((ofCategory events total.category).map Event.size) →
        total.bytes = ((ofCategory events total.category).map Event.size).sum) := by
  have named := (category_and_peak_of_mem h).1
  obtain ⟨⟨category, transfers, bytes⟩, held, rfl⟩ := List.mem_map.mp h
  have found := ((NameMap.mem_entries_iff _ _ _).mp held).symm.trans (get?_totals named)
  obtain ⟨counted, summed⟩ := Prod.mk.inj (Option.some.inj found)
  exact ⟨counted, fun fit => summed.trans (foldl_wrap64_eq_sum fit)⟩

theorem length_ofCategory (events : List Event) (category : String) :
    (ofCategory events category).length = (events.map Event.category).count category := by
  rw [ofCategory, ← List.countP_eq_length_filter, List.count, List.countP_map]
  apply List.countP_congr
  simp

theorem sum_transfers (events : List Event) (chart : Chart Float) :
    ((categoryTotals events chart).map CategoryTotal.transfers).sum = events.length := by
  have counted : (categoryTotals events chart).map CategoryTotal.transfers =
      ((categoryTotals events chart).map CategoryTotal.category).map fun c =>
        (events.map Event.category).count c := by
    rw [List.map_map]
    apply List.map_congr_left
    intro total ht
    rw [(transfers_and_bytes_of_mem ht).1, length_ofCategory, Function.comp_apply]
  have once : ((NameSet.ofList (events.map Event.category)).toList).Perm
      (events.map Event.category).dedup := by
    refine (List.perm_ext_iff_of_nodup (NameMap.nodup_keys _)
      (List.nodup_dedup _)).mpr fun name => ?_
    change name ∈ NameSet.toList _ ↔ _
    rw [NameSet.mem_ofList, List.mem_dedup]
  rw [counted, map_category_categoryTotals, (once.map _).sum_eq, List.sum_map_count_dedup_eq_length,
    List.length_map]

end Totals

end InFlight.Summary
