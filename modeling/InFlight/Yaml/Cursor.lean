/-!
A place in a YAML text: what is left to read, and the line and column reached. A carriage return and
the line feed behind it are one line break.
-/
namespace InFlight.Yaml

def isBlank (c : Char) : Bool := c == ' ' || c == '\t'

def isBreak (c : Char) : Bool :=
  c == '\n' || c == '\r' || c == '\u0085' || c == '\u2028' || c == '\u2029'

def isSpace (c : Char) : Bool := isBlank c || isBreak c

def isNameChar (c : Char) : Bool := c.isAlphanum || c == '-' || c == '_'

def isPrintable (c : Char) : Bool :=
  let n := c.toNat
  n == 0x09 || n == 0x0A || n == 0x0D || (0x20 ≤ n && n ≤ 0x7E) || n == 0x85 ||
    (0xA0 ≤ n && n ≤ 0xD7FF) || (0xE000 ≤ n && n ≤ 0xFFFD) || 0x10000 ≤ n

structure Cursor where
  rest : List Char
  index : Nat
  line : Nat
  column : Nat
  deriving DecidableEq, Repr

namespace Cursor

def ofText (s : List Char) : Cursor := ⟨s, 0, 0, 0⟩

def head? (c : Cursor) : Option Char := c.rest.head?

def peek? (c : Cursor) (n : Nat) : Option Char := c.rest[n]?

def isAt (c : Cursor) (char : Char) : Bool := c.head? == some char

def isGapAt (c : Cursor) (n : Nat) : Bool := (c.peek? n).all isSpace

def isLineEnd (c : Cursor) : Bool := c.head?.all isBreak

def advance (c : Cursor) (n : Nat) : Cursor :=
  { c with rest := c.rest.drop n, index := c.index + n, column := c.column + n }

def takeWhile (p : Char → Bool) (c : Cursor) : List Char × Cursor :=
  let found := c.rest.takeWhile p
  (found, c.advance found.length)

def skipWhile (p : Char → Bool) (c : Cursor) : Cursor := (c.takeWhile p).2

def takeLine (c : Cursor) : List Char × Cursor := c.takeWhile fun d => !isBreak d

/-- A line break, in the form it has in the content of a scalar, and the cursor on the next line.
Without one the cursor stays. -/
def takeBreak (c : Cursor) : List Char × Cursor :=
  match c.rest with
  | '\r' :: '\n' :: r => (['\n'], ⟨r, c.index + 2, c.line + 1, 0⟩)
  | d :: r =>
    if d = '\u2028' ∨ d = '\u2029' then ([d], ⟨r, c.index + 1, c.line + 1, 0⟩)
    else if isBreak d then (['\n'], ⟨r, c.index + 1, c.line + 1, 0⟩)
    else ([], c)
  | [] => ([], c)

def skipBreak (c : Cursor) : Cursor := c.takeBreak.2

def isTripleOf (char : Char) (c : Cursor) : Bool :=
  c.rest.take 3 == [char, char, char] && c.isGapAt 3

def isDocumentMark (c : Cursor) : Bool := c.column == 0 && (c.isTripleOf '-' || c.isTripleOf '.')

/-- The cursor behind a comment, blanks before it skipped; none when something else stands there. -/
def skipRestOfLine? (c : Cursor) : Option Cursor :=
  let c := c.skipWhile isBlank
  let c := if c.isAt '#' then c.takeLine.2 else c
  if c.isLineEnd then some c.skipBreak else none

end Cursor

structure Gap where
  blanks : List Char
  breaks : List Char
  deriving DecidableEq, Repr

namespace Gap

def none : Gap := ⟨[], []⟩

/-- A single line feed becomes a space; of several breaks the first one is dropped, if it is a line
feed. -/
def text (g : Gap) : List Char :=
  match g.breaks with
  | [] => g.blanks
  | ['\n'] => [' ']
  | '\n' :: more => more
  | breaks => breaks

/-- The gap under the cursor. Blanks behind a line break belong to the indentation, in which no tab
may stand left of column `indent`. -/
def take? (indent : Nat) : Nat → Gap → Cursor → Option (Gap × Cursor)
  | 0, g, c => some (g, c)
  | fuel + 1, g, c =>
    match c.head? with
    | some d =>
      if isBlank d then
        if g.breaks = [] then take? indent fuel { g with blanks := g.blanks ++ [d] } (c.advance 1)
        else if d = '\t' ∧ c.column < indent then .none
        else take? indent fuel g (c.advance 1)
      else if isBreak d then
        let (taken, c) := c.takeBreak
        take? indent fuel { g with breaks := g.breaks ++ taken } c
      else some (g, c)
    | .none => some (g, c)

end Gap

end InFlight.Yaml
