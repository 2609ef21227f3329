import InFlight.Config.Yaml
import InFlight.Files.Tree
import InFlight.Notice
/-!
Loading settings from a file.
-/
namespace InFlight.Config

inductive LoadError where
  | unopenable (path : String)
  | unparsable (path : String)
  | invalid (e : ConfigError)
  deriving DecidableEq, Repr

def LoadError.message : LoadError → String
  | unopenable path => "Failed to open configuration '" ++ path ++ "'"
  | unparsable path => "Failed to parse configuration '" ++ path ++ "'"
  | invalid e => e.message

/-- The settings of a file, before they are checked. A directory can be opened, but holds none. -/
def readFile (t : Tree) (path : String) : Except LoadError Config :=
  match (t.content? path).map Content.text? with
  | some text => match text.bind fun s => ofYaml? s.toList with
    | some c => .ok c
    | none => .error (.unparsable path)
  | none => if t.isDirectory path then .error (.unparsable path) else .error (.unopenable path)

def load (t : Tree) (path : String) : Except LoadError Config := do
  let c ← readFile t path
  match c.validate with
  | .ok () => .ok c
  | .error e => .error (.invalid e)

def loadNotices (path : String) : List Notice := [.configLoading path]

end InFlight.Config
