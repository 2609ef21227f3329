import InFlight.Decimal.Natural
import InFlight.Yaml.Cursor
/-!
Scalars in quotes. Between single quotes a quote is written twice; between double quotes a backslash
starts an escape. A line break is folded, and an escaped one joins its lines.
-/
namespace InFlight.Yaml.Quoted

inductive Quote where
  | single
  | double
  deriving DecidableEq, Repr

def Quote.char : Quote → Char
  | single => '\''
  | double => '"'

def escapes : List (Char × Char) :=
  [('0', '\x00'), ('a', '\x07'), ('b', '\x08'), ('t', '\t'), ('\t', '\t'), ('n', '\n'),
    ('v', '\x0b'), ('f', '\x0c'), ('r', '\r'), ('e', '\x1b'), (' ', ' '), ('"', '"'),
    ('/', '/'), ('\\', '\\'), ('N', '\u0085'), ('_', '\u00a0'), ('L', '\u2028'),
    ('P', '\u2029')]

def codeLength? (c : Char) : Option Nat :=
  if c = 'x' then some 2 else if c = 'u' then some 4 else if c = 'U' then some 8 else none

def charOf? (code : Nat) : Option Char :=
  if code.isValidChar then some (Char.ofNat code) else none

def escape? (c : Cursor) : Option (Char × Cursor) := do
  let letter ← c.head?
  match codeLength? letter with
  | some count =>
    let digits := (c.advance 1).rest.take count
    let code ← if digits.length = count then Decimal.read? 16 digits else none
    let char ← charOf? code
    some (char, c.advance (1 + count))
  | none => (escapes.lookup letter).map fun char => (char, c.advance 1)

/-- A stretch without gaps and up to the closing quote at most, and whether an escaped line break
ends it. -/
def word? (quote : Quote) : Nat → Cursor → Option (List Char × Bool × Cursor)
  | 0, c => some ([], false, c)
  | fuel + 1, c => do
    match c.rest with
    | [] => some ([], false, c)
    | d :: r =>
      if isSpace d then some ([], false, c)
      else if d = quote.char then
        if quote = .single ∧ r.head? = some d then
          let (word, escaped, c) ← word? quote fuel (c.advance 2)
          some (d :: word, escaped, c)
        else some ([], false, c)
      else if quote = .double ∧ d = '\\' then
        if r.head?.any isBreak then some ([], true, (c.advance 1).skipBreak)
        else
          let (char, c) ← escape? (c.advance 1)
          let (word, escaped, c) ← word? quote fuel c
          some (char :: word, escaped, c)
      else
        let (word, escaped, c) ← word? quote fuel (c.advance 1)
        some (d :: word, escaped, c)

/-- Words and the gaps between them, through the closing quote. Only further breaks count behind an
escaped one. -/
def words? (quote : Quote) : Nat → Cursor → Option (List Char × Cursor)
  | 0, _ => none
  | fuel + 1, c =>
    if c.isDocumentMark then none
    else do
      let (word, escaped, c) ← word? quote c.rest.length c
      if c.isAt quote.char then some (word, c.advance 1)
      else if c.rest = [] then none
      else
        let (gap, c) ← Gap.take? 0 c.rest.length (if escaped then ⟨[], ['\n']⟩ else Gap.none) c
        let (more, c) ← words? quote fuel c
        some (word ++ (if escaped then gap.breaks.drop 1 else gap.text) ++ more, c)

def take? (quote : Quote) (c : Cursor) : Option (List Char × Cursor) :=
  words? quote c.rest.length (c.advance 1)

end InFlight.Yaml.Quoted
