/-!
Paths as texts: components with slashes between them. Empty components and single dots mean nothing,
save a dot at the very start.
-/
namespace InFlight.Path

def pieces : List Char → List (List Char)
  | [] => [[]]
  | c :: r =>
    if c = '/' then [] :: pieces r
    else match pieces r with
      | [] => [[c]]
      | piece :: rest => (c :: piece) :: rest

def joinPieces : List (List Char) → List Char
  | [] => []
  | [piece] => piece
  | piece :: rest => piece ++ '/' :: joinPieces rest

def isTrivial (piece : List Char) : Bool := piece == [] || piece == ['.']
def isParent (piece : List Char) : Bool := piece == ['.', '.']

/-- The length of the slash of an absolute path, or of a dot at the start. -/
def headLength : List Char → Nat
  | '/' :: _ => 1
  | ['.'] => 1
  | '.' :: '/' :: _ => 1
  | _ => 0

/-- The pieces behind the head, the last one first, without those that mean nothing at the end. -/
def bodyReversed (path : List Char) : List (List Char) :=
  (pieces (path.drop (headLength path))).reverse.dropWhile isTrivial

def fileName? (path : List Char) : Option (List Char) :=
  match bodyReversed path with
  | piece :: _ => if isParent piece then none else some piece
  | [] => none

def parent (path : List Char) : List Char :=
  path.take (headLength path) ++
    joinPieces (((bodyReversed path).drop 1).dropWhile isTrivial).reverse

/-- An absolute path stands for itself; any other comes behind the first, with a slash between. -/
def join (base path : List Char) : List Char :=
  if path.head? = some '/' then path
  else if base = [] ∨ base.getLast? = some '/' then base ++ path
  else base ++ '/' :: path

def withFileName (path name : List Char) : List Char :=
  if (fileName? path).isSome then join (parent path) name else join path name

/-- A name before and behind its last dot; none without a dot, or when the only one comes first. -/
def splitExtension? (name : List Char) : Option (List Char × List Char) :=
  match name.reverse.span (· ≠ '.') with
  | (_, []) => none
  | (_, [_]) => none
  | (extension, _ :: stem) => some (stem.reverse, extension.reverse)

def stem (name : List Char) : List Char := ((splitExtension? name).map (·.1)).getD name

def extension? (path : List Char) : Option (List Char) :=
  ((fileName? path).bind splitExtension?).map (·.2)

def beforeName (path : List Char) : List Char :=
  path.take (headLength path) ++ ((bodyReversed path).drop 1).reverse.flatMap (· ++ ['/'])

/-- The extension is cut off the end of the path. What is left of two dots and an extension names
the parent. -/
def withoutExtension (path : List Char) : List Char :=
  match extension? path with
  | some extension => path.take (path.length - extension.length)
  | none => path

def withExtension (path extension : List Char) : List Char :=
  let path := withoutExtension path
  match fileName? path with
  | none => path
  | some name => beforeName path ++ stem name ++ '.' :: extension

end InFlight.Path
