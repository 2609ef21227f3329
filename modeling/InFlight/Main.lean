import InFlight.Cache.Frame
import InFlight.Run
/-!
The program: the files that a command line names are read, the run is worked out over them, and what
it changed is written back.
-/
open InFlight

namespace InFlight.Main

def nanoseconds (m : IO.FS.Metadata) : Int := m.modified.sec * 1000000000 + m.modified.nsec.toNat

def contentOf (bytes : List UInt8) : Content :=
  match Cache.Frame.unpack? bytes with
  | some payload => .packed payload
  | none => .plain bytes

def bytesOf : Content → List UInt8
  | .plain bytes => bytes
  | .packed payload => Cache.Frame.pack payload

def pathOf (place : Place) : String := "/" ++ "/".intercalate place

def placeOf (current : Place) (path : String) : Place :=
  let start := if path.toList.head? = some '/' then [] else current
  (Path.pieces path.toList).foldl (fun place piece =>
    if Path.isTrivial piece then place
    else if Path.isParent piece then place.dropLast
    else place ++ [String.ofList piece]) start

def readEntry? (place : Place) : IO (Option Entry) := do
  let path := System.mkFilePath [pathOf place]
  try
    let m ← path.metadata
    match m.type with
    | .dir => return some (.directory (nanoseconds m))
    | .file => return some (.file (contentOf (← IO.FS.readBinFile path).toList) (nanoseconds m))
    | _ => return none
  catch _ => return none

/-- The entries at some paths, and the directories above them. -/
def readTree (current : Place) (paths : List String) : IO Tree := do
  let places := (paths.map (placeOf current)).flatMap fun place =>
    (List.range place.length).map fun n => place.take (n + 1)
  places.eraseDups.foldlM (fun t place => do
    match ← readEntry? place with
    | some entry => return t.put place entry
    | none => return t) (Tree.directoriesTo current 0)

def writeChanges (before after : Tree) : IO Unit :=
  after.entries.forM fun (place, entry) => do
    match entry with
    | .file content _ =>
      if before.entry? place ≠ some entry then
        IO.FS.writeBinFile (System.mkFilePath [pathOf place])
          (ByteArray.mk (bytesOf content).toArray)
    | .directory _ => pure ()

def readClock : IO Run.Clock := do
  let (_, path) ← IO.FS.createTempFile
  let m ← path.metadata
  IO.FS.removeFile path
  let now := nanoseconds m
  return { now := now, date := Timestamp.localText (Instant.ofNanos now) ++ "+00:00" }

def readFor (current : Place) (words : List String) : IO Tree := do
  match Command.parse words with
  | .ok (.run c) =>
    let t ← readTree current (Run.pathsRead c)
    match Run.settings t c with
    | .ok config => readTree current (Run.pathsRead c ++ Run.pathsWritten c config)
    | .error _ => return t
  | _ => return Tree.directoriesTo current 0

def run (words : List String) : IO UInt32 := do
  let current := placeOf [] (← IO.currentDir).toString
  let t ← readFor current words
  let report := Run.commandLine t words (← readClock)
  writeChanges t report.files
  for n in report.notices do
    IO.eprintln n.line
  for message in report.messages do
    IO.eprintln message
  IO.print report.printed
  match report.code with
  | some code => return UInt32.ofNat code
  | none => throw (IO.userError "the sweep never ends")

end InFlight.Main

def main (words : List String) : IO UInt32 := InFlight.Main.run words
