import InFlight.Json.Value
/-!
Writing JSON, on one line or with two spaces of indent for each level. Strings keep every character
that need not be escaped.
-/
namespace InFlight.Json

def hexDigit (n : Nat) : Char := if n < 10 then Char.ofNat (48 + n) else Char.ofNat (87 + n)

/-- Quotes, backslashes and control characters are escaped, the latter by a short form where there
is one. -/
def escape (c : Char) : List Char :=
  if c = '"' then ['\\', '"']
  else if c = '\\' then ['\\', '\\']
  else if c = '\x08' then ['\\', 'b']
  else if c = '\x0c' then ['\\', 'f']
  else if c = '\n' then ['\\', 'n']
  else if c = '\r' then ['\\', 'r']
  else if c = '\t' then ['\\', 't']
  else if c.toNat < 0x20 then ['\\', 'u', '0', '0', hexDigit (c.toNat / 16),
    hexDigit (c.toNat % 16)]
  else [c]

def quote (s : String) : List Char := '"' :: (s.toList.flatMap escape ++ ['"'])

/-- Where the parts of a collection stand: `none` on one line, `some depth` each on its own. -/
abbrev Layout := Option Nat

namespace Layout

def inner (l : Layout) : Layout := l.map (· + 1)

def newline : Layout → List Char
  | none => []
  | some depth => '\n' :: List.replicate (2 * depth) ' '

def colon : Layout → List Char
  | none => [':']
  | some _ => [':', ' ']

end Layout

def quote? (s : Option String) : List Char := quote (s.getD "")

mutual

def write (l : Layout) : Json → List Char
  | .null => ['n', 'u', 'l', 'l']
  | .bool true => ['t', 'r', 'u', 'e']
  | .bool false => ['f', 'a', 'l', 's', 'e']
  | .number n => n.text
  | .string s => quote? s
  | .array [] => ['[', ']']
  | .array (item :: items) =>
    '[' :: (l.inner.newline ++ write l.inner item ++ writeItems l.inner items ++ l.newline ++ [']'])
  | .object [] => ['\x7b', '\x7d']
  | .object ((name, value) :: members) =>
    '\x7b' :: (l.inner.newline ++ quote? name ++ l.colon ++ write l.inner value ++
      writeMembers l.inner members ++ l.newline ++ ['\x7d'])

def writeItems (l : Layout) : List Json → List Char
  | [] => []
  | item :: items => ',' :: (l.newline ++ write l item ++ writeItems l items)

def writeMembers (l : Layout) : List (Option String × Json) → List Char
  | [] => []
  | (name, value) :: members =>
    ',' :: (l.newline ++ quote? name ++ l.colon ++ write l value ++ writeMembers l members)

end

def compact (j : Json) : String := String.ofList (write none j)
def pretty (j : Json) : String := String.ofList (write (some 0) j)

end InFlight.Json
