import InFlight.Files.Path
/-!
A tree of files and directories, with the times of their last change. Paths that do not begin with a
slash lead on from the current directory.
-/
namespace InFlight

/-- The bytes of a file: as they are, or as what a compressed file unpacks to. -/
inductive Content where
  | plain (bytes : List UInt8)
  | packed (payload : List UInt8)
  deriving DecidableEq, Repr

namespace Content

def ofText (s : String) : Content := .plain s.toUTF8.data.toList

def text? : Content → Option String
  | plain bytes => String.fromUTF8? (ByteArray.mk bytes.toArray)
  | packed _ => none

end Content

/-- Times are counted in nanoseconds since 1970. -/
inductive Entry where
  | file (content : Content) (modified : Int)
  | directory (modified : Int)
  deriving DecidableEq, Repr

def Entry.modified : Entry → Int
  | file _ modified | directory modified => modified

/-- The names on the way from the root, which is the empty place. -/
abbrev Place := List String

structure Tree where
  entries : List (Place × Entry)
  current : Place
  deriving DecidableEq, Repr

namespace Tree

def directoriesTo (current : Place) (modified : Int) : Tree :=
  { entries := (List.range current.length).map fun n => (current.take (n + 1), .directory modified)
    current := current }

def entry? (t : Tree) (place : Place) : Option Entry := t.entries.lookup place

def isDirectoryAt (t : Tree) (place : Place) : Bool :=
  match place, t.entry? place with
  | [], _ => true
  | _, some (.directory _) => true
  | _, _ => false

/-- The names that files can have: no more than 255 bytes, and none of them zero. -/
def isName (name : String) : Bool := name.utf8ByteSize ≤ 255 && !name.toList.contains '\x00'

/-- The place that components lead to from a directory. All but the last are directories. -/
def walk? (t : Tree) : Place → List (List Char) → Option Place
  | place, [] => some place
  | place, piece :: rest =>
    if t.isDirectoryAt place then
      if Path.isTrivial piece then walk? t place rest
      else if Path.isParent piece then walk? t place.dropLast rest
      else if isName (String.ofList piece) then walk? t (place ++ [String.ofList piece]) rest
      else none
    else none

def place? (t : Tree) (path : String) : Option Place :=
  if path.isEmpty then none
  else t.walk? (if path.toList.head? = some '/' then [] else t.current) (Path.pieces path.toList)

def isDirectory (t : Tree) (path : String) : Bool := (t.place? path).any t.isDirectoryAt

def content? (t : Tree) (path : String) : Option Content :=
  match (t.place? path).bind t.entry? with
  | some (.file content _) => some content
  | _ => none

def isFile (t : Tree) (path : String) : Bool := (t.content? path).isSome
def contains (t : Tree) (path : String) : Bool := t.isFile path || t.isDirectory path

def modified? (t : Tree) (path : String) : Option Int :=
  ((t.place? path).bind t.entry?).map Entry.modified

def put (t : Tree) (place : Place) (entry : Entry) : Tree :=
  { t with entries := (place, entry) :: t.entries.filter fun e => e.1 ≠ place }

def erase (t : Tree) (place : Place) : Tree :=
  { t with entries := t.entries.filter fun e => e.1 ≠ place }

/-- Creates or replaces a file. None when its directory is missing or a directory is in its
place. -/
def write? (t : Tree) (path : String) (content : Content) (now : Int) : Option Tree :=
  match t.place? path with
  | none => none
  | some place => if t.isDirectoryAt place then none else some (t.put place (.file content now))

end Tree

end InFlight
