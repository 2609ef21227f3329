/-!
Lines of a text. A line ends at a line feed, and a carriage return before the line feed belongs to
the ending; what follows the last line feed is a line only when it is not empty.
-/
namespace InFlight.Text

/-- Splits at every line feed: always one piece more than there are line feeds. -/
def splitLines : List Char → List (List Char)
  | [] => [[]]
  | c :: r =>
    if c = '\n' then [] :: splitLines r
    else match splitLines r with
      | [] => [[c]]
      | piece :: pieces => (c :: piece) :: pieces

def chompReturn (piece : List Char) : List Char :=
  if piece.getLast? = some '\r' then piece.dropLast else piece

/-- The pieces before the last one are ended lines; the last one is a line when it holds text. -/
def linesOfPieces : List (List Char) → List (List Char)
  | [] => []
  | [last] => if last = [] then [] else [last]
  | piece :: pieces => chompReturn piece :: linesOfPieces pieces

def lines (s : List Char) : List (List Char) := linesOfPieces (splitLines s)

theorem splitLines_ne_nil (s : List Char) : splitLines s ≠ [] := by
  cases s with
  | nil => simp [splitLines]
  | cons c r =>
    simp only [splitLines]
    split
    · simp
    · split <;> simp

end InFlight.Text
