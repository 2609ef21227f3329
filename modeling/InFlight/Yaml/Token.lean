import InFlight.Yaml.Scalar.Block
import InFlight.Yaml.Scalar.Plain
import InFlight.Yaml.Scalar.Quoted
import InFlight.Yaml.Tag
/-!
Tokens of a YAML text. Indentation becomes tokens that open and close block collections. A key is
known only by the colon behind it, so what may turn out to be one is remembered, and its tokens are
put in before it.
-/
namespace InFlight.Yaml

inductive Style where
  | plain
  | quoted
  | literal
  | folded
  deriving DecidableEq, Repr

inductive Token where
  | directive (d : Directive)
  | documentStart
  | documentFinish
  | blockSequence
  | blockMapping
  | blockFinish
  | flowSequence
  | flowSequenceFinish
  | flowMapping
  | flowMappingFinish
  | blockItem
  | flowItem
  | key
  | value
  | reference (anchor : String)
  | anchor (name : String)
  | tag (t : TagToken)
  | scalar (text : String) (style : Style)
  deriving DecidableEq, Repr

/-- What may be a key: the number of tokens before it, and its place. One at the indentation of the
block around it has to be a key. -/
structure Candidate where
  before : Nat
  index : Nat
  line : Nat
  column : Nat
  required : Bool
  deriving DecidableEq, Repr

/-- A text read up to the cursor: the columns of the open blocks, innermost first, and a candidate
for each open bracket and for what is outside of them. -/
structure Scan where
  cursor : Cursor
  tokens : Array Token
  blocks : List Nat
  keyAllowed : Bool
  outer : List (Option Candidate)
  candidate : Option Candidate

namespace Scan

def ofText (s : List Char) : Scan :=
  { cursor := Cursor.ofText s, tokens := #[], blocks := [], keyAllowed := true, outer := []
    candidate := none }

def inFlow (s : Scan) : Bool := !s.outer.isEmpty
def emit (s : Scan) (t : Token) : Scan := { s with tokens := s.tokens.push t }
def goTo (s : Scan) (c : Cursor) : Scan := { s with cursor := c }
def advance (s : Scan) (n : Nat) : Scan := s.goTo (s.cursor.advance n)
def allowKey (s : Scan) (allowed : Bool) : Scan := { s with keyAllowed := allowed }

/-- The candidate is none after all, unless it has to be a key. -/
def dropCandidate? (s : Scan) : Option Scan :=
  if s.candidate.any (·.required) then none else some { s with candidate := none }

def markCandidate? (s : Scan) : Option Scan :=
  if s.keyAllowed then do
    let here := s.cursor
    let required := !s.inFlow && s.blocks.head? == some here.column
    let s ← s.dropCandidate?
    some { s with candidate := some ⟨s.tokens.size, here.index, here.line, here.column, required⟩ }
  else some s

def openBlock (s : Scan) (column before : Nat) (t : Token) : Scan :=
  if !s.inFlow && s.blocks.head?.all (· < column) then
    { s with blocks := column :: s.blocks, tokens := s.tokens.insertIdxIfInBounds before t }
  else s

def isRightOf (column : Option Nat) (block : Nat) : Bool := column.all (· < block)

def closeBlocks (s : Scan) (column : Option Nat) : Scan :=
  if s.inFlow then s
  else
    let closed := (s.blocks.takeWhile (isRightOf column)).length
    { s with blocks := s.blocks.drop closed
             tokens := s.tokens ++ Array.replicate closed .blockFinish }

/-- Skips blanks, comments and line breaks. Tabs are blanks where no key may follow; keys are
allowed on a new line. A byte order mark is skipped at the start of the text. -/
def skipSpace : Nat → Scan → Scan
  | 0, s => s
  | fuel + 1, s =>
    let c := s.cursor
    let c := if c.index = 0 ∧ c.isAt '\ufeff' then c.advance 1 else c
    let c := c.skipWhile fun d => d == ' ' || (d == '\t' && (s.inFlow || !s.keyAllowed))
    let c := if c.isAt '#' then c.takeLine.2 else c
    if c.head?.any isBreak then
      skipSpace fuel ((s.goTo c.skipBreak).allowKey (s.keyAllowed || !s.inFlow))
    else s.goTo c

def directive? (s : Scan) : Option Scan := do
  let s ← (s.closeBlocks none).dropCandidate?
  let (d, c) ← Directive.take? s.cursor
  some (((s.allowKey false).emit (.directive d)).goTo c)

def documentMark? (s : Scan) (t : Token) : Option Scan := do
  let s ← (s.closeBlocks none).dropCandidate?
  some (((s.allowKey false).emit t).advance 3)

def openBracket? (s : Scan) (t : Token) : Option Scan := do
  let s ← s.markCandidate?
  let s := { s with outer := s.candidate :: s.outer, candidate := none }
  some (((s.allowKey true).emit t).advance 1)

def closeBracket? (s : Scan) (t : Token) : Option Scan := do
  let s ← s.dropCandidate?
  let s := match s.outer with
    | candidate :: outer => { s with outer := outer, candidate := candidate }
    | [] => s
  some (((s.allowKey false).emit t).advance 1)

def comma? (s : Scan) : Option Scan := do
  let s ← s.dropCandidate?
  some (((s.allowKey true).emit .flowItem).advance 1)

def openFor? (s : Scan) (block : Token) : Option Scan :=
  if s.inFlow then some s
  else if s.keyAllowed then some (s.openBlock s.cursor.column s.tokens.size block)
  else none

def dash? (s : Scan) : Option Scan := do
  let s ← s.openFor? .blockSequence
  let s ← s.dropCandidate?
  some (((s.allowKey true).emit .blockItem).advance 1)

def question? (s : Scan) : Option Scan := do
  let s ← s.openFor? .blockMapping
  let s ← s.dropCandidate?
  some (((s.allowKey (!s.inFlow)).emit .key).advance 1)

/-- A key lies on one line and is no longer than 1024 characters. -/
def isKey (s : Scan) (k : Candidate) : Bool :=
  k.line == s.cursor.line && s.cursor.index ≤ k.index + 1024

/-- A colon makes the candidate a key; without one the key is empty. -/
def colon? (s : Scan) : Option Scan := do
  match s.candidate.filter s.isKey with
  | some k =>
    let s := { s with tokens := s.tokens.insertIdxIfInBounds k.before .key, candidate := none }
    let s := s.openBlock k.column k.before .blockMapping
    some (((s.allowKey false).emit .value).advance 1)
  | none =>
    let s ← s.dropCandidate?
    let s ← s.openFor? .blockMapping
    some (((s.allowKey (!s.inFlow)).emit .value).advance 1)

def name? (c : Cursor) : Option (String × Cursor) :=
  let (name, c) := (c.advance 1).takeWhile isNameChar
  let ends := c.isGapAt 0 || c.head?.any fun d =>
    d == '?' || d == ':' || d == ',' || d == ']' || d == '\x7d' || d == '%' ||
      d == '@' || d == '\u0060'
  if name ≠ [] ∧ ends then some (String.ofList name, c) else none

def named? (s : Scan) (t : String → Token) : Option Scan := do
  let s ← s.markCandidate?
  let (name, c) ← name? s.cursor
  some (((s.allowKey false).emit (t name)).goTo c)

def tag? (s : Scan) : Option Scan := do
  let s ← s.markCandidate?
  let (t, c) ← Tag.take? s.inFlow s.cursor
  some (((s.allowKey false).emit (.tag t)).goTo c)

def block? (s : Scan) (style : Style) : Option Scan := do
  let s ← s.dropCandidate?
  let (text, c) ← Block.take? (style == .literal) s.blocks.head? s.cursor
  some (((s.allowKey true).emit (.scalar (String.ofList text) style)).goTo c)

def quoted? (s : Scan) (quote : Quoted.Quote) : Option Scan := do
  let s ← s.markCandidate?
  let (text, c) ← Quoted.take? quote s.cursor
  some (((s.allowKey false).emit (.scalar (String.ofList text) .quoted)).goTo c)

def indent (s : Scan) : Nat :=
  match s.blocks.head? with
  | some column => column + 1
  | none => 0

def plain? (s : Scan) : Option Scan := do
  let s ← s.markCandidate?
  let (text, broken, c) ← Plain.take? s.inFlow s.indent s.cursor
  some (((s.allowKey broken).emit (.scalar (String.ofList text) .plain)).goTo c)

/-- A plain scalar does not begin with a mark; a dash, question mark or colon is none before a
character. -/
def beginsPlain (s : Scan) (d : Char) : Bool :=
  if d == '-' then !(s.cursor.peek? 1).any isBlank
  else if d == '?' || d == ':' then !s.inFlow && !s.cursor.isGapAt 1
  else !isSpace d && !(",[]\x7b\x7d#&*!|>'\"%@\u0060".toList.contains d)

def token? (s : Scan) (d : Char) : Option Scan :=
  let c := s.cursor
  let flowOrGap := s.inFlow || c.isGapAt 1
  if c.column = 0 ∧ d = '%' then s.directive?
  else if c.column = 0 ∧ c.isTripleOf '-' then s.documentMark? .documentStart
  else if c.column = 0 ∧ c.isTripleOf '.' then s.documentMark? .documentFinish
  else if d = '[' then s.openBracket? .flowSequence
  else if d = '\x7b' then s.openBracket? .flowMapping
  else if d = ']' then s.closeBracket? .flowSequenceFinish
  else if d = '\x7d' then s.closeBracket? .flowMappingFinish
  else if d = ',' then s.comma?
  else if d = '-' ∧ c.isGapAt 1 then s.dash?
  else if d = '?' ∧ flowOrGap then s.question?
  else if d = ':' ∧ flowOrGap then s.colon?
  else if d = '*' then s.named? .reference
  else if d = '&' then s.named? .anchor
  else if d = '!' then s.tag?
  else if d = '|' ∧ !s.inFlow then s.block? .literal
  else if d = '>' ∧ !s.inFlow then s.block? .folded
  else if d = '\'' then s.quoted? .single
  else if d = '"' then s.quoted? .double
  else if s.beginsPlain d then s.plain?
  else none

/-- The tokens up to the end of the text. Each takes a character or more, which `fuel` counts. -/
def run? : Nat → Scan → Option Scan
  | 0, _ => none
  | fuel + 1, s => do
    let s := skipSpace (s.cursor.rest.length + 1) s
    match s.cursor.head? with
    | some d =>
      let s ← (s.closeBlocks (some s.cursor.column)).token? d
      run? fuel s
    | none => (s.closeBlocks none).dropCandidate?

end Scan

def Token.ofText? (s : List Char) : Option (List Token) :=
  if s.all isPrintable then (Scan.run? (s.length + 1) (Scan.ofText s)).map (·.tokens.toList)
    else none

end InFlight.Yaml
