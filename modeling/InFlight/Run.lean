import InFlight.Cache
import InFlight.Chart.Json
import InFlight.Command
import InFlight.Config.Load
import InFlight.Summary.Text
/-!
A run of the program over a tree of files: it reads the settings and the log, builds the chart, and
writes chart and report into the output directory.
-/
namespace InFlight.Run

inductive Failure where
  | noInput (path : String)
  | noOutput (path : String)
  | config (e : Config.LoadError)
  | settings (e : ConfigError)
  | log (e : FileError)
  | analysis (path : String) (e : ChartError)
  | chartNotWritten (path : String)
  | reportNotWritten (path : String)
  deriving DecidableEq, Repr

/-- The messages of a failure, the outermost first. A sweep that breaks down is not reported. -/
def Failure.messages : Failure → List String
  | analysis _ (.sweep _) => []
  | noInput path => ["Input file does not exist: " ++ path]
  | noOutput path => ["Output directory does not exist: " ++ path]
  | config e => [e.message]
  | settings e => [e.message]
  | log e => [e.message]
  | analysis path e => ["Failed to analyze " ++ path, e.message]
  | chartNotWritten path => ["Failed to write usage chart to " ++ path]
  | reportNotWritten path => ["Failed to write text report to " ++ path]

/-- The exit code of a failure. A run that stops dead has one of its own, and one that never ends
has none. -/
def Failure.code : Failure → Option Nat
  | analysis _ (.sweep .endless) => none
  | analysis _ (.sweep .pastCalendar) => some 101
  | _ => some 1

structure Clock where
  now : Int
  date : String

structure Outcome where
  result : Except Failure Summary
  files : Tree
  notices : List Notice

/-- The settings of a run: those of the file it names, or the standard ones, under the overrides of
its command line. -/
def settings (t : Tree) (c : Command) : Except Failure Config := do
  let base ← match c.config with
    | none => .ok Config.standard
    | some path => match Config.load t path with
      | .ok config => .ok config
      | .error e => .error (.config e)
  match c.override.enforce base with
  | (.ok (), config) => .ok config
  | (.error e, _) => .error (.settings e)

def settingsNotices (t : Tree) (c : Command) : List Notice :=
  match c.config with
  | none => c.override.notices
  | some path => Config.loadNotices path ++
    match Config.load t path with
    | .ok _ => c.override.notices
    | .error _ => []

def prepare (t : Tree) (c : Command) : Except Failure (Config × ChartOptions) :=
  if !t.isFile c.input then .error (.noInput c.input)
  else if !t.isDirectory c.output then .error (.noOutput c.output)
  else do
    let config ← settings t c
    match config.options with
    | .ok options => .ok (config, options)
    | .error e => .error (.settings e)

def prepareNotices (t : Tree) (c : Command) : List Notice :=
  if t.isFile c.input && t.isDirectory c.output then settingsNotices t c else []

def loadLog (t : Tree) (path : String) (cached : Bool) (now : Int) : Cache.Loaded :=
  if cached then Cache.load t path now
  else { events := Log.load t path, files := t, notices := Log.loadNotices t path }

def outputPath (directory name : String) : String :=
  String.ofList (Path.join directory.toList name.toList)

def writeChart (t : Tree) (directory : String) (output : OutputSettings)
    (chart : Chart Float) (now : Int) :
    Except Failure Tree :=
  let path := outputPath directory output.fileName
  match t.write? path (.ofText (chart.render output.pretty)) now with
  | some t => .ok t
  | none => .error (.chartNotWritten path)

def writeReport (t : Tree) (directory : String) (output : OutputSettings)
    (summary : Summary) (now : Int) :
    Except Failure Tree :=
  let path := outputPath directory output.reportName
  if !output.textReport then .ok t
  else match t.write? path (.ofText summary.report) now with
    | some t => .ok t
    | none => .error (.reportNotWritten path)

def chartNotices (directory : String) (output : OutputSettings) : List Notice :=
  [.chartWritten (outputPath directory output.fileName)]

def reportNotices (directory : String) (output : OutputSettings) : List Notice :=
  if output.textReport then [.reportWritten (outputPath directory output.reportName)] else []

/-- Writes chart and report over a tree in which the log has been loaded. A file that could be
written stays when a later one cannot be. -/
def deliver (t : Tree) (directory : String) (output : OutputSettings) (chart : Chart Float)
    (summary : Summary) (now : Int) : Outcome :=
  match writeChart t directory output chart now with
  | .error e => ⟨.error e, t, []⟩
  | .ok t => match writeReport t directory output summary now with
    | .error e => ⟨.error e, t, chartNotices directory output⟩
    | .ok t => ⟨.ok summary, t, chartNotices directory output ++ reportNotices directory output ++
        [.complete directory]⟩

def analyse (events : List Event) (options : ChartOptions) (date : String) :
    Except ChartError (Chart Float × Summary) :=
  match h : Chart.build Float events options with
  | .error e => .error e
  | .ok chart => .ok (chart, (Summary.of? date events chart options.width).get
      (Summary.isSome_of? (Chart.coversActive_of_build h) date events options.width))

def analyseAndDeliver (t : Tree) (c : Command) (config : Config) (options : ChartOptions)
    (events : List Event) (clock : Clock) : Outcome :=
  match analyse events options clock.date with
  | .error e => ⟨.error (.analysis c.input e), t, Chart.notices events options⟩
  | .ok (chart, summary) =>
    let outcome := deliver t c.output config.output chart summary clock.now
    { outcome with notices := Chart.notices events options ++ outcome.notices }

def execute (t : Tree) (c : Command) (clock : Clock) : Outcome :=
  match prepare t c with
  | .error e => ⟨.error e, t, prepareNotices t c⟩
  | .ok (config, options) =>
    let loaded := loadLog t c.input config.cache clock.now
    let before := prepareNotices t c ++ [.logLoading c.input] ++ loaded.notices
    match loaded.events with
    | .error e => ⟨.error (.log e), loaded.files, before⟩
    | .ok events =>
      let outcome := analyseAndDeliver loaded.files c config options events clock
      { outcome with notices := before ++ [.logLoaded events.length] ++ outcome.notices }

def pathsRead (c : Command) : List String :=
  [c.input, Cache.pathFor c.input, c.output] ++ c.config.toList

def pathsWritten (c : Command) (config : Config) : List String :=
  [outputPath c.output config.output.fileName, outputPath c.output config.output.reportName]

/-- What a command line comes to: the exit code if the run ends, the text it prints, and the
messages of a failure. -/
structure Report where
  code : Option Nat
  printed : String
  messages : List String
  files : Tree
  notices : List Notice

def versionText : String := "network-analyzer 0.1.0\n"

def helpText : String :=
  "Usage: network-analyzer [OPTIONS] --input <INPUT> --output <OUTPUT>\n"

def commandLine (t : Tree) (words : List String) (clock : Clock) : Report :=
  match Command.parse words with
  | .error e => ⟨some 2, "", [e.message], t, []⟩
  | .ok .version => ⟨some 0, versionText, [], t, []⟩
  | .ok .help => ⟨some 0, helpText, [], t, []⟩
  | .ok (.run c) =>
    let outcome := execute t c clock
    match outcome.result with
    | .ok summary => ⟨some 0, summary.printed, [], outcome.files, outcome.notices⟩
    | .error e => ⟨e.code, "", e.messages, outcome.files, outcome.notices⟩

end InFlight.Run
