import InFlight.Config.Yaml
import InFlight.Proofs.Yaml.Record
import Mathlib
/-!
Keys that name no setting. Of the settings and of each section but one they are refused. Beside the
policy of the rate they are passed over: the section means what it means without them, as long as
they can be read at all.
-/
namespace InFlight

open Yaml (Node Token)
open Yaml.Node (HasOther)

namespace RateSource

def policy? (entries : List (Node × Node)) : Option String :=
  match entries.filter fun e => isPolicyKey e.1 with
  | [(_, policy)] => policy.text?
  | _ => none

def others (entries : List (Node × Node)) : List (Node × Node) :=
  entries.filter fun e => !isPolicyKey e.1

/-- A key that is read for a setting: the policy, and the rate where the policy is a fixed one. -/
def IsSetting (entries : List (Node × Node)) (key : Node) : Prop :=
  isPolicyKey key ∨ (isRateKey? key = some true ∧ policy? entries = some "fixed")

instance (entries : List (Node × Node)) (key : Node) : Decidable (IsSetting entries key) :=
  inferInstanceAs (Decidable (_ ∨ _))

def isEntryData (e : Node × Node) : Bool := e.1.isData && e.2.isData

/-- A key that might name a setting of the source. -/
def mayName (key : Node) : RateSource → Bool
  | fixed _ => (isRateKey? key).isSome
  | _ => true

def mayStandBeside (e : Node × Node) (source : RateSource) : Bool :=
  isEntryData e && source.mayName e.1

variable {before after : List (Node × Node)} {e : Node × Node} {tag : Option String}

theorem ofNode?_mapping (tag : Option String) (entries : List (Node × Node)) :
    ofNode? (.mapping tag entries) =
      if Node.isLocal tag || !(others entries).all isEntryData then none
      else (policy? entries).bind fun name => ofEntries? name (others entries) := by
  unfold ofNode? policy? others isEntryData
  dsimp only
  rw [List.partition_eq_filter_filter]
  dsimp only [Function.comp_def]
  split
  · rfl
  · split <;> simp_all

/-- A rate is read from its own entry alone, whatever other entries there are. -/
theorem rateAmong?_insert (other : isRateKey? e.1 ≠ some true) :
    rateAmong? (before ++ e :: after) =
      if (isRateKey? e.1).isSome then rateAmong? (before ++ after) else none := by
  unfold rateAmong?
  cases here : isRateKey? e.1 with
  | none => simp [here]
  | some own =>
    obtain rfl : own = false := by simpa [here] using other
    simp only [List.mapM_append, List.mapM_cons, here]
    cases before.mapM fun x : Node × Node => (isRateKey? x.1).map fun here => (here, x.2) with
    | none => simp
    | some b =>
      cases after.mapM fun x : Node × Node => (isRateKey? x.1).map fun here => (here, x.2) with
      | none => simp
      | some a => simp

theorem ofEntries?_insert {name : String} (other : name = "fixed" → isRateKey? e.1 ≠ some true) :
    ofEntries? name (before ++ e :: after) = (ofEntries? name (before ++ after)).filter
    (mayName e.1) := by
  by_cases fixed_ : name = "fixed"
  · subst fixed_
    have fixed_eq (entries : List (Node × Node)) : ofEntries? "fixed" entries =
        (rateAmong? entries).map .fixed := rfl
    rw [fixed_eq, fixed_eq, rateAmong?_insert (other rfl)]
    cases rateAmong? (before ++ after) with
    | none => simp
    | some n => cases here : (isRateKey? e.1).isSome <;> simp [mayName, here, Option.filter]
  · unfold ofEntries?
    rw [if_neg fixed_, if_neg fixed_]
    split
    · rfl
    · split <;> rfl

theorem policy?_insert (noPolicy : isPolicyKey e.1 = false) :
    policy? (before ++ e :: after) = policy? (before ++ after) := by
  have policies : (before ++ e :: after).filter (fun e => isPolicyKey e.1) =
      (before ++ after).filter fun e => isPolicyKey e.1 := by
    simp [List.filter_append, noPolicy]
  rw [policy?, policy?, policies]

theorem others_insert (noPolicy : isPolicyKey e.1 = false) :
    others (before ++ e :: after) = others before ++ e :: others after := by
  simp [others, List.filter_append, noPolicy]

theorem all_insert {α : Type} (p : α → Bool) (before after : List α) (a : α) :
    (before ++ a :: after).all p = (p a && (before ++ after).all p) := by
  rw [List.all_append, List.all_cons, List.all_append]
  exact Bool.and_left_comm _ _ _

/-- Beside the settings of a rate, an entry makes a mapping unreadable or makes no difference. -/
theorem ofNode?_insert (other : ¬ IsSetting (before ++ e :: after) e.1) :
    ofNode? (.mapping tag (before ++ e :: after)) =
      (ofNode? (.mapping tag (before ++ after))).filter (mayStandBeside e) := by
  obtain ⟨noPolicy, noRate⟩ := not_or.mp other
  rw [Bool.not_eq_true] at noPolicy
  rw [policy?_insert noPolicy] at noRate
  have rest : others (before ++ after) = others before ++ others after := List.filter_append _ _
  rw [ofNode?_mapping, ofNode?_mapping, policy?_insert noPolicy, others_insert noPolicy,
    rest, all_insert]
  cases readable : isEntryData e with
  | false =>
    have never (source : RateSource) : ¬ mayStandBeside e source := by
      simp [mayStandBeside, readable]
    rw [Option.filter_eq_none_iff.mpr fun source _ => never source]
    simp
  | true =>
    have beside : mayStandBeside e = mayName e.1 := by
      funext source
      rw [mayStandBeside, readable, Bool.true_and]
    rw [Bool.true_and, beside]
    split
    · rfl
    · cases named : policy? (before ++ after) with
      | none => rfl
      | some name =>
        rw [Option.bind_some, Option.bind_some]
        apply ofEntries?_insert
        rintro rfl rate
        exact noRate ⟨rate, named⟩

end RateSource

namespace Config

variable {tag : Option String} {before after : List (Node × Node)} {key value : Node}
  {fields : Node.Fields}

theorem ofNode?_eq_some_iff {n : Node} {c : Config} : ofNode? n = some c ↔
    ∃ fields, n.record? ["window", "bandwidth", "output", "input"] = some fields ∧
      fields.get? "window" Config.standard.window Sizing.ofNode? = some c.window ∧
      fields.get? "bandwidth" Config.standard.rate RateSource.ofNode? = some c.rate ∧
      fields.get? "output" Config.standard.output OutputSettings.ofNode? = some c.output ∧
      fields.get? "input" Config.standard.cache cacheOfNode? = some c.cache := by
  unfold ofNode?
  simp only [Option.bind_eq_bind, Option.bind_eq_some_iff, Option.some.injEq]
  constructor
  · rintro ⟨fields, accepted, window, hw, rate, hr, output, ho, cache, hc, rfl⟩
    exact ⟨fields, accepted, hw, hr, ho, hc⟩
  · rintro ⟨fields, accepted, hw, hr, ho, hc⟩
    exact ⟨fields, accepted, _, hw, _, hr, _, ho, _, hc, rfl⟩

def records : List (String × List String) :=
  [("window", ["width", "divisions"]), ("output", ["file_name", "pretty", "text_report"]),
    ("input", ["cache"])]

theorem ofNode?_eq_none_of_record {entries : List (Node × Node)} {record : String × List String}
    (of : record ∈ records) (among : (key, value) ∈ entries) (named : key.text? = some record.1)
    (refused : value.record? record.2 = none) :
    ofNode? (.mapping tag entries) = none := by
  rw [Option.eq_none_iff_forall_ne_some]
  intro c accepted
  obtain ⟨fields, found, window, -, output, cache⟩ := ofNode?_eq_some_iff.mp accepted
  simp only [records, List.mem_cons, List.not_mem_nil, or_false] at of
  rcases of with rfl | rfl | rfl
  · rw [Node.get?_of_record? found among named, Sizing.ofNode?, refused] at window
    cases window
  · rw [Node.get?_of_record? found among named, OutputSettings.ofNode?, refused] at output
    cases output
  · rw [Node.get?_of_record? found among named, cacheOfNode?, refused] at cache
    cases cache

/-- The section of the rate is decoded by itself, and the other sections do not depend on it. -/
theorem ofNode?_around_eq_some_iff {c : Config} (named : key.text? = some "bandwidth") :
    ofNode? (.mapping tag (before ++ (key, value) :: after)) = some c ↔
      RateSource.ofNode? value = some c.rate ∧
        ∃ b a, Node.Surround ["window", "bandwidth", "output", "input"] tag before after
          "bandwidth" b a ∧
          (b ++ a : Node.Fields).get? "window" Config.standard.window Sizing.ofNode? =
            some c.window ∧
          (b ++ a : Node.Fields).get? "output" Config.standard.output OutputSettings.ofNode? =
            some c.output ∧
          (b ++ a : Node.Fields).get? "input" Config.standard.cache cacheOfNode? =
            some c.cache := by
  rw [ofNode?_eq_some_iff]
  have window : "window" ≠ "bandwidth" := by decide
  have output : "output" ≠ "bandwidth" := by decide
  have input : "input" ≠ "bandwidth" := by decide
  constructor
  · rintro ⟨fields, accepted, hw, hr, ho, hc⟩
    obtain ⟨b, a, around, rfl⟩ := (Node.record?_around_eq_some_iff named).mp accepted
    rw [around.get?_self] at hr
    rw [Node.Fields.get?_around_of_ne window] at hw
    rw [Node.Fields.get?_around_of_ne output] at ho
    rw [Node.Fields.get?_around_of_ne input] at hc
    exact ⟨hr, b, a, around, hw, ho, hc⟩
  · rintro ⟨hr, b, a, around, hw, ho, hc⟩
    refine ⟨_, (Node.record?_around_eq_some_iff named).mpr ⟨b, a, around, rfl⟩, ?_, ?_, ?_, ?_⟩
    · rwa [Node.Fields.get?_around_of_ne window]
    · rwa [around.get?_self]
    · rwa [Node.Fields.get?_around_of_ne output]
    · rwa [Node.Fields.get?_around_of_ne input]

theorem ofNode?_filter_of_rate {other : Node} {holds : RateSource → Bool}
    (named : key.text? = some "bandwidth")
    (same : RateSource.ofNode? value = (RateSource.ofNode? other).filter holds) :
    ofNode? (.mapping tag (before ++ (key, value) :: after)) =
      (ofNode? (.mapping tag (before ++ (key, other) :: after))).filter fun c => holds c.rate := by
  ext c
  rw [Option.filter_eq_some_iff, ofNode?_around_eq_some_iff named,
    ofNode?_around_eq_some_iff named, same, Option.filter_eq_some_iff]
  exact and_right_comm

/-- A key that names no setting is refused among the sections and in each section that is a record.
Beside the policy of the rate it only has to be readable, with its value; the settings are then
those without it. -/
theorem ofYaml?_of_unknownKey {s : List Char} {entries : List (Node × Node)}
    (read : Node.read? s = some (.mapping tag entries)) :
    (HasOther ["window", "bandwidth", "output", "input"] entries → ofYaml? s = none) ∧
      (∀ record ∈ records, ∀ key tag section_, (key, .mapping tag section_) ∈ entries →
        key.text? = some record.1 →
        HasOther record.2 section_ → ofYaml? s = none) ∧
      ∀ before key tag' head e rest after,
        entries = before ++ (key, .mapping tag' (head ++ e :: rest)) :: after →
        key.text? = some "bandwidth" →
          ¬ RateSource.IsSetting (head ++ e :: rest) e.1 →
            ofYaml? s =
              (ofNode? (.mapping tag
                  (before ++ (key, .mapping tag' (head ++ rest)) :: after))).filter
                fun c => RateSource.mayStandBeside e c.rate := by
  have decoded : ofYaml? s = ofNode? (.mapping tag entries) := by
    rw [ofYaml?, read, Option.bind_some]
  rw [decoded]
  refine ⟨?_, ?_, ?_⟩
  · intro foreign
    rw [ofNode?, Node.record?_eq_none_of_hasOther foreign]
    rfl
  · intro record of key tag section_ among named foreign
    exact ofNode?_eq_none_of_record of among named (Node.record?_eq_none_of_hasOther foreign)
  · rintro before key tag' head e rest after rfl named other
    exact ofNode?_filter_of_rate named (RateSource.ofNode?_insert other)

def word (s : String) : Node := .scalar ⟨s, .plain, none⟩

def extraKey : String := "bandwidth:\n  policy: fixed\n  bytes_per_sec: 5\n  extra: 1"

def extraEntries : List (Node × Node) :=
  [(word "policy", word "fixed"), (word "bytes_per_sec", word "5"), (word "extra", word "1")]

theorem read?_extraKey : Node.read? extraKey.toList =
    some (.mapping none [(word "bandwidth", .mapping none extraEntries)]) := by
  have tokens : Token.ofText? extraKey.toList = some
      [.blockMapping, .key, .scalar "bandwidth" .plain, .value, .blockMapping,
        .key, .scalar "policy" .plain, .value, .scalar "fixed" .plain,
        .key, .scalar "bytes_per_sec" .plain, .value, .scalar "5" .plain,
        .key, .scalar "extra" .plain, .value, .scalar "1" .plain, .blockFinish,
          .blockFinish] := by decide +kernel
  rw [Node.read?, tokens, Option.bind_some]
  cbv

/-- A section that is misspelt. -/
theorem read?_misspelt : Node.read? "windw:\n  width: 50ms".toList =
    some (.mapping none [(word "windw", .mapping none [(word "width", word "50ms")])]) := by
  have tokens : Token.ofText? "windw:\n  width: 50ms".toList = some
      [.blockMapping, .key, .scalar "windw" .plain, .value, .blockMapping,
        .key, .scalar "width" .plain, .value, .scalar "50ms" .plain, .blockFinish,
        .blockFinish] := by decide +kernel
  rw [Node.read?, tokens, Option.bind_some]
  cbv

/-- A setting under the wrong section. -/
theorem read?_misplaced : Node.read? "input: \x7bpretty: true\x7d".toList =
    some (.mapping none [(word "input", .mapping none [(word "pretty", word "true")])]) := by
  have tokens : Token.ofText? "input: \x7bpretty: true\x7d".toList = some
      [.blockMapping, .key, .scalar "input" .plain, .value, .flowMapping,
        .key, .scalar "pretty" .plain, .value, .scalar "true" .plain, .flowMappingFinish,
        .blockFinish] := by
    decide +kernel
  rw [Node.read?, tokens, Option.bind_some]
  cbv

theorem ofYaml?_of_unknownKey_everywhere :
    ofYaml? "windw:\n  width: 50ms".toList = none ∧
    ofYaml? "input: \x7bpretty: true\x7d".toList = none ∧
      ofYaml? extraKey.toList =
        (ofNode? (.mapping none [(word "bandwidth", .mapping none
          [(word "policy", word "fixed"), (word "bytes_per_sec", word "5")])])).filter
            fun c => RateSource.mayStandBeside (word "extra", word "1") c.rate := by
  refine ⟨?_, ?_, ?_⟩
  · exact (ofYaml?_of_unknownKey read?_misspelt).1 (by decide)
  · exact (ofYaml?_of_unknownKey read?_misplaced).2.1 ("input", ["cache"]) (by decide)
      (word "input") none
      [(word "pretty", word "true")] List.mem_cons_self rfl (by decide)
  · exact (ofYaml?_of_unknownKey read?_extraKey).2.2 [] (word "bandwidth") none
      [(word "policy", word "fixed"), (word "bytes_per_sec", word "5")] (word "extra",
        word "1") [] [] rfl rfl
      (by decide +kernel)

/-- The key is no setting of its section, and yet the settings are read. -/
theorem unknownKey_passed_over :
    Node.read? extraKey.toList =
      some (.mapping none [(word "bandwidth", .mapping none extraEntries)]) ∧
      HasOther ["policy", "bytes_per_sec"] extraEntries ∧
      ofYaml? extraKey.toList = some { standard with rate := .fixed 5 } :=
  ⟨read?_extraKey, by decide, by decide +kernel⟩

end Config

end InFlight
