import InFlight.Config.Override
import InFlight.Word
/-!
The command line. Options are read from left to right, and the first word that asks for the version
or for help ends the reading.
-/
namespace InFlight

structure Command where
  input : String
  output : String
  config : Option String
  override : Override
  logLevel : String
  threads : Nat
  deriving DecidableEq, Repr

inductive Request where
  | run (c : Command)
  | version
  | help
  deriving DecidableEq, Repr

inductive Setting where
  | input
  | output
  | config
  | window
  | divisions
  | bandwidth
  | logLevel
  | threads
  deriving DecidableEq, Repr

inductive Flag where
  | perEventBandwidth
  | pretty
  | cache
  | noTextReport
  | version
  | help
  deriving DecidableEq, Repr

inductive Opt where
  | setting (s : Setting)
  | flag (f : Flag)
  deriving DecidableEq, Repr

namespace Setting

def name : Setting → String
  | input => "input"
  | output => "output"
  | config => "config"
  | window => "window"
  | divisions => "divisions"
  | bandwidth => "bandwidth"
  | logLevel => "log-level"
  | threads => "threads"

def all : List Setting := [input, output, config, window, divisions, bandwidth, logLevel, threads]

end Setting

namespace Flag

def name : Flag → String
  | perEventBandwidth => "per-event-bandwidth"
  | pretty => "pretty"
  | cache => "cache"
  | noTextReport => "no-text-report"
  | version => "version"
  | help => "help"

def all : List Flag := [perEventBandwidth, pretty, cache, noTextReport, version, help]

end Flag

namespace Opt

def all : List Opt := Setting.all.map .setting ++ Flag.all.map .flag

def name : Opt → String
  | setting s => s.name
  | flag f => f.name

def ofName? (name : List Char) : Option Opt := all.find? fun o => o.name.toList == name

def ofLetter? (c : Char) : Option Opt :=
  [('i', setting .input), ('o', setting .output), ('c', setting .config), ('j', setting .threads),
    ('V', flag .version), ('h', flag .help)].lookup c

end Opt

inductive UsageError where
  | unexpected (word : String)
  | valueMissing (s : Setting)
  | valueNotTaken (f : Flag)
  | repeated (o : Opt)
  | badValue (s : Setting) (value : String)
  | together (a b : Opt)
  | absent (s : Setting)
  deriving DecidableEq, Repr

def UsageError.message : UsageError → String
  | unexpected word => "unexpected argument '" ++ word ++ "'"
  | valueMissing s => "a value is required for '--" ++ s.name ++ "'"
  | valueNotTaken f => "'--" ++ f.name ++ "' takes no value"
  | repeated o => "'--" ++ o.name ++ "' cannot be used multiple times"
  | badValue s value => "invalid value '" ++ value ++ "' for '--" ++ s.name ++ "'"
  | together a b => "'--" ++ a.name ++ "' cannot be used with '--" ++ b.name ++ "'"
  | absent s => "'--" ++ s.name ++ "' is required"

structure Draft where
  input : Option String
  output : Option String
  config : Option String
  window : Option Nat
  divisions : Option Nat
  bandwidth : Option Nat
  logLevel : Option String
  threads : Option Nat
  flags : List Flag
  deriving DecidableEq, Repr

namespace Draft

def blank : Draft := ⟨none, none, none, none, none, none, none, none, []⟩

def take {α : Type} (s : Setting) (old : Option α) (value : String) (read? : String → Option α) :
    Except UsageError (Option α) :=
  if old.isSome then .error (.repeated (.setting s))
  else match read? value with
    | some v => .ok (some v)
    | none => .error (.badValue s value)

def path? (s : String) : Option String := if s.isEmpty then none else some s

/-- A decimal number that fits 32 bits, with a sign or without. -/
def count? (s : String) : Option Nat :=
  match s.toList with
  | '-' :: r => (Decimal.read? 10 r).filter (· = 0)
  | r => Decimal.readUpTo? (Word.count32 - 1) r

def number? (s : String) : Option Nat := Decimal.readUpTo? (Word.count64 - 1) s.toList

def put (d : Draft) (s : Setting) (value : String) : Except UsageError Draft :=
  match s with
  | .input => do return { d with input := ← take s d.input value path? }
  | .output => do return { d with output := ← take s d.output value path? }
  | .config => do return { d with config := ← take s d.config value path? }
  | .window => do
    return { d with window := ← take s d.window value fun v =>
      (HumanDuration.parseWithMillis v).toOption }
  | .divisions => do return { d with divisions := ← take s d.divisions value count? }
  | .bandwidth => do return { d with bandwidth := ← take s d.bandwidth value number? }
  | .logLevel => do return { d with logLevel := ← take s d.logLevel value some }
  | .threads => do return { d with threads := ← take s d.threads value number? }

def set (d : Draft) (f : Flag) : Except UsageError Draft :=
  if f ∈ d.flags then .error (.repeated (.flag f)) else .ok { d with flags := f :: d.flags }

def override (d : Draft) : Override :=
  { width := d.window, divisions := d.divisions, bytesPerSecond := d.bandwidth
    perEventRate := d.flags.contains .perEventBandwidth, pretty := d.flags.contains .pretty
    cache := d.flags.contains .cache, noTextReport := d.flags.contains .noTextReport }

/-- Input and output have to be given, and of two ways to set the same thing one at most. -/
def finish (d : Draft) : Except UsageError Command :=
  if d.window.isSome ∧ d.divisions.isSome then
    .error (.together (.setting .window) (.setting .divisions))
  else if d.bandwidth.isSome ∧ .perEventBandwidth ∈ d.flags then
    .error (.together (.setting .bandwidth) (.flag .perEventBandwidth))
  else match d.input, d.output with
    | none, _ => .error (.absent .input)
    | _, none => .error (.absent .output)
    | some input, some output =>
      .ok { input, output, config := d.config, override := d.override
            logLevel := d.logLevel.getD "info", threads := d.threads.getD 0 }

end Draft

namespace Command

def isValue (word : List Char) : Bool := word.head? != some '-' || word == ['-']

def splitName (word : List Char) : List Char × Option (List Char) :=
  match word.span (· ≠ '=') with
  | (name, _ :: value) => (name, some value)
  | (name, []) => (name, none)

/-- What follows a letter in its word; an equals sign between them is dropped. -/
def attached : List Char → Option (List Char)
  | [] => none
  | '=' :: value => some value
  | value => some value

/-- The option that a word names, and the value in the same word. The flags of one letter end the
reading, so nothing behind them counts. -/
def option? (word : List Char) : Option (Opt × Option (List Char)) :=
  match word with
  | '-' :: '-' :: long =>
    let (name, value) := splitName long
    (Opt.ofName? name).map fun o => (o, value)
  | '-' :: letter :: rest =>
    match Opt.ofLetter? letter with
    | some (.setting s) => some (.setting s, attached rest)
    | found => found.map fun o => (o, none)
  | _ => none

/-- Reads words into a draft. Nothing may follow the mark that ends the options. -/
def read (d : Draft) : List String → Except UsageError Request
  | [] => d.finish.map .run
  | word :: rest =>
    if word = "--" then
      match rest with
      | [] => d.finish.map .run
      | next :: _ => .error (.unexpected next)
    else match option? word.toList with
      | none => .error (.unexpected word)
      | some (.flag f, value) =>
        if value.isSome then .error (.valueNotTaken f)
        else match f with
          | .version => .ok .version
          | .help => .ok .help
          | f => match d.set f with
            | .ok d => read d rest
            | .error e => .error e
      | some (.setting s, some value) => match d.put s (String.ofList value) with
        | .ok d => read d rest
        | .error e => .error e
      | some (.setting s, none) => match rest with
        | [] => .error (.valueMissing s)
        | value :: rest =>
          if isValue value.toList then
            match d.put s value with
            | .ok d => read d rest
            | .error e => .error e
          else .error (.valueMissing s)

def parse (words : List String) : Except UsageError Request := read Draft.blank words

end Command

end InFlight
