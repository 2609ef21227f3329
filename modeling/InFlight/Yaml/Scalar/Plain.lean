import InFlight.Yaml.Cursor
/-!
Scalars without quotes. One ends before a colon with a gap behind it, before a comment, and where
the lines are indented less; between brackets also before a comma or a bracket.
-/
namespace InFlight.Yaml.Plain

def isFlowIndicator (c : Char) : Bool := c == ',' || c == '[' || c == ']' ||
    c == '\x7b' || c == '\x7d'

/-- A stretch without gaps. Between brackets no colon may stand before a mark of them. -/
def word? (inFlow : Bool) : Nat → Cursor → Option (List Char × Cursor)
  | 0, c => some ([], c)
  | fuel + 1, c =>
    match c.rest with
    | [] => some ([], c)
    | d :: r =>
      if inFlow && d == ':' && r.head?.any (fun e => isFlowIndicator e || e == '?') then none
      else if isSpace d || (d == ':' && c.isGapAt 1) ||
      (inFlow && isFlowIndicator d) then some ([], c)
      else (word? inFlow fuel (c.advance 1)).map fun (word, c) => (d :: word, c)

/-- Words and the gaps between them, and whether the last gap, which belongs to nothing, breaks the
line. -/
def words? (inFlow : Bool) (indent : Nat) : Nat → Gap → Cursor → Option (List Char × Bool × Cursor)
  | 0, gap, c => some ([], gap.breaks ≠ [], c)
  | fuel + 1, gap, c =>
    if c.isDocumentMark || c.isAt '#' then some ([], gap.breaks ≠ [], c)
    else do
      let (word, c) ← word? inFlow c.rest.length c
      if word = [] then some ([], gap.breaks ≠ [], c)
      else
        let piece := gap.text ++ word
        if !c.head?.any isSpace then some (piece, false, c)
        else
          let (gap, c) ← Gap.take? indent c.rest.length Gap.none c
          if !inFlow && c.column < indent then some (piece, gap.breaks ≠ [], c)
          else
            let (more, broken, c) ← words? inFlow indent fuel gap c
            some (piece ++ more, broken, c)

def take? (inFlow : Bool) (indent : Nat) (c : Cursor) : Option (List Char × Bool × Cursor) :=
  words? inFlow indent (c.rest.length + 1) Gap.none c

end InFlight.Yaml.Plain
