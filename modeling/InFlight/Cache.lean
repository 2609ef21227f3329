import InFlight.Cache.Layout
import InFlight.Files.Tree
import InFlight.Notice
/-!
Loading a log, by itself or through the cache beside it. The cache is used while it is at least as
new as the log; one that cannot be read is passed over and written anew, and one that cannot be
written is done without.
-/
namespace InFlight

inductive FileError where
  | logUnreadable (path : String)
  | logUnparsable (path : String)
  | cacheMissing (path : String)
  | cacheUndecodable (path : String)
  | cacheUncreatable (path : String)
  deriving DecidableEq, Repr

def FileError.message : FileError → String
  | logUnreadable path => "Failed to read network log from " ++ path
  | logUnparsable path => "Failed to parse network log " ++ path
  | cacheMissing path => "Failed to open event cache " ++ path
  | cacheUndecodable path => "Failed to deserialize event cache " ++ path
  | cacheUncreatable path => "Failed to create event cache " ++ path

def Log.readFile? (t : Tree) (path : String) : Option Log.Reading :=
  ((t.content? path).bind Content.text?).map fun s => Log.read s.toList

def Log.load (t : Tree) (path : String) : Except FileError (List Event) :=
  match Log.readFile? t path with
  | none => .error (.logUnreadable path)
  | some reading => match reading.events? with
    | some events => .ok events
    | none => .error (.logUnparsable path)

def Log.loadNotices (t : Tree) (path : String) : List Notice :=
  match Log.readFile? t path with
  | none => []
  | some reading => reading.notices

namespace Cache

def suffix : List Char := ".events.zst".toList

def pathFor (path : String) : String :=
  let name := (Path.fileName? path.toList).getD []
  String.ofList (Path.withFileName path.toList (name ++ suffix))

/-- Both are there, and the cache is not older than the log. -/
def isFresh (t : Tree) (log cache : String) : Bool :=
  match t.modified? log, t.modified? cache with
  | some logTime, some cacheTime => logTime ≤ cacheTime
  | _, _ => false

/-- A compressed file with events in it. A directory can be opened, but holds none. -/
def read (t : Tree) (path : String) : Except FileError (List Event) :=
  match t.content? path with
  | some (.packed payload) => match decode? payload with
    | some events => .ok events
    | none => .error (.cacheUndecodable path)
  | some (.plain _) => .error (.cacheUndecodable path)
  | none =>
    if t.isDirectory path then .error (.cacheUndecodable path) else .error (.cacheMissing path)

def write (t : Tree) (path : String) (events : List Event) (now : Int) : Except FileError Tree :=
  match t.write? path (.packed (encode events)) now with
  | some t => .ok t
  | none => .error (.cacheUncreatable path)

structure Loaded where
  events : Except FileError (List Event)
  files : Tree
  notices : List Notice

def refresh (t : Tree) (path : String) (now : Int) : Loaded :=
  let notices := Log.loadNotices t path
  match Log.load t path with
  | .error e => ⟨.error e, t, notices⟩
  | .ok events => match write t (pathFor path) events now with
    | .ok written => ⟨.ok events, written, notices⟩
    | .error _ => ⟨.ok events, t, notices ++ [.cacheNotWritten]⟩

def load (t : Tree) (path : String) (now : Int) : Loaded :=
  let cache := pathFor path
  if isFresh t path cache then
    match read t cache with
    | .ok events => ⟨.ok events, t, [.cacheUsed events.length cache]⟩
    | .error _ =>
      let loaded := refresh t path now
      { loaded with notices := .cacheIgnored :: loaded.notices }
  else refresh t path now

end Cache

end InFlight
