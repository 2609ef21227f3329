import InFlight.Decimal.Natural
import InFlight.Yaml.Cursor
/-!
Scalars as blocks of indented lines. A literal block keeps its line breaks, a folded one folds those
between lines that do not start with a blank. What becomes of the breaks at the end is told in the
header.
-/
namespace InFlight.Yaml.Block

inductive Chomping where
  | strip
  | clip
  | keep
  deriving DecidableEq, Repr

structure Header where
  chomping : Chomping
  increment : Option Nat
  deriving DecidableEq, Repr

def takeChomping (c : Cursor) : Option Chomping × Cursor :=
  match c.head? with
  | some '+' => (some .keep, c.advance 1)
  | some '-' => (some .strip, c.advance 1)
  | _ => (none, c)

def takeIncrement? (c : Cursor) : Option (Option Nat × Cursor) :=
  match c.head? with
  | some d =>
    if d.isDigit then if d = '0' then none else some (Decimal.digitValue? d, c.advance 1)
    else some (none, c)
  | none => some (none, c)

def header? (c : Cursor) : Option (Header × Cursor) := do
  let (first, c) := takeChomping c
  let (increment, c) ← takeIncrement? c
  let (chomping, c) := if first.isNone then takeChomping c else (first, c)
  let c ← c.skipRestOfLine?
  some (⟨chomping.getD .clip, increment⟩, c)

def skipIndent (indent : Option Nat) (c : Cursor) : Cursor :=
  let spaces := (c.takeWhile (· == ' ')).1.length
  c.advance (match indent with
    | some n => min spaces (n - c.column)
    | none => spaces)

/-- The breaks of empty lines, and the deepest column reached before any of them or before the next
line. No tab may stand in the indentation. -/
def takeBreaks? (indent : Option Nat) : Nat → Nat → Cursor → Option (List Char × Nat × Cursor)
  | 0, deepest, c => some ([], deepest, c)
  | fuel + 1, deepest, c =>
    let c := skipIndent indent c
    let deepest := max deepest c.column
    if c.isAt '\t' && indent.all (c.column < ·) then none
    else if c.head?.any isBreak then
      let (taken, c) := c.takeBreak
      (takeBreaks? indent fuel deepest c).map fun (breaks, deepest, c) =>
        (taken ++ breaks, deepest, c)
    else some ([], deepest, c)

/-- The content so far lacks the break behind its last line and the breaks of the empty lines after
that. -/
structure Pending where
  lineBreak : List Char
  breaks : List Char
  startsBlank : Bool

def Pending.text (p : Pending) (literal nextBlank : Bool) : List Char :=
  if !literal && p.lineBreak.head? == some '\n' && !p.startsBlank && !nextBlank then
    if p.breaks = [] then [' '] else p.breaks
  else p.lineBreak ++ p.breaks

def Pending.tail (p : Pending) : Chomping → List Char
  | .strip => []
  | .clip => p.lineBreak
  | .keep => p.lineBreak ++ p.breaks

def lines? (literal : Bool) (indent : Nat) :
    Nat → Pending → Cursor → Option (List Char × Pending × Cursor)
  | 0, p, c => some ([], p, c)
  | fuel + 1, p, c =>
    if c.column = indent ∧ c.rest ≠ [] then do
      let blank := c.head?.any isBlank
      let (line, c) := c.takeLine
      let (lineBreak, c) := c.takeBreak
      let (breaks, _, c) ← takeBreaks? (some indent) (c.rest.length + 1) 0 c
      let (more, last, c) ← lines? literal indent fuel ⟨lineBreak, breaks, blank⟩ c
      some (p.text literal blank ++ line ++ more, last, c)
    else some ([], p, c)

/-- The content of a block whose mark is under the cursor. `parent` is the column of the block
around it. -/
def take? (literal : Bool) (parent : Option Nat) (c : Cursor) : Option (List Char × Cursor) := do
  let (header, c) ← header? (c.advance 1)
  let known := header.increment.map (parent.getD 0 + ·)
  let (breaks, deepest, c) ← takeBreaks? known (c.rest.length + 1) 0 c
  let least := match parent with
    | some n => n + 1
    | none => 1
  let indent := known.getD (max deepest least)
  let (text, last, c) ← lines? literal indent (c.rest.length + 1) ⟨[], breaks, false⟩ c
  some (text ++ last.tail header.chomping, c)

end InFlight.Yaml.Block
