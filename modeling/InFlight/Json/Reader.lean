import InFlight.Json.Value
/-!
Reading JSON by RFC 8259. Blanks are space, tab, line feed and carriage return; a control character
inside a string must be escaped; nothing but blanks may follow the value.
-/
namespace InFlight.Json

def isSpace (c : Char) : Bool := c == ' ' || c == '\t' || c == '\n' || c == '\r'
def skipSpace (s : List Char) : List Char := s.dropWhile isSpace

def digits (s : List Char) : List Char × List Char :=
  (s.takeWhile Char.isDigit, s.dropWhile Char.isDigit)

def whole? (s : List Char) : Option (List Char × List Char) :=
  match digits s with
  | ([], _) => none
  | ('0' :: _ :: _, _) => none
  | found => some found

def fraction? (s : List Char) : Option (Option (List Char) × List Char) :=
  match s with
  | '.' :: r => match digits r with
    | ([], _) => none
    | (ds, r) => some (some ds, r)
  | r => some (none, r)

def exponent? (s : List Char) : Option (Option (Bool × List Char) × List Char) :=
  match s with
  | c :: r =>
    if c = 'e' ∨ c = 'E' then
      let (below, r) := match r with
        | '-' :: r => (true, r)
        | '+' :: r => (false, r)
        | r => (false, r)
      match digits r with
      | ([], _) => none
      | (ds, r) => some (some (below, ds), r)
    else some (none, c :: r)
  | [] => some (none, [])

def number? (s : List Char) : Option (Number × List Char) := do
  let (negative, s) := match s with
    | '-' :: r => (true, r)
    | r => (false, r)
  let (whole, s) ← whole? s
  let (fraction, s) ← fraction? s
  let (exponent, s) ← exponent? s
  some (⟨negative, whole, fraction, exponent⟩, s)

/-- A unit of a string: a character, or a surrogate that an escape names. -/
inductive Unit where
  | char (c : Char)
  | surrogate (code : Nat)

def hexFour? : List Char → Option (Nat × List Char)
  | a :: b :: c :: d :: r => (Decimal.read? 16 [a, b, c, d]).map fun n => (n, r)
  | _ => none

def unitOf (code : Nat) : Unit :=
  if 0xD800 ≤ code ∧ code ≤ 0xDFFF then .surrogate code else .char (Char.ofNat code)

def escape? : List Char → Option (Unit × List Char)
  | '"' :: r => some (.char '"', r)
  | '\\' :: r => some (.char '\\', r)
  | '/' :: r => some (.char '/', r)
  | 'b' :: r => some (.char '\x08', r)
  | 'f' :: r => some (.char '\x0c', r)
  | 'n' :: r => some (.char '\n', r)
  | 'r' :: r => some (.char '\r', r)
  | 't' :: r => some (.char '\t', r)
  | 'u' :: r => (hexFour? r).map fun (code, r) => (unitOf code, r)
  | _ => none

/-- The units up to the closing quote, and the text after it. Each unit takes a character or more of
the text, which `fuel` counts. -/
def units? : Nat → List Char → Option (List Unit × List Char)
  | 0, _ => none
  | _, [] => none
  | fuel + 1, c :: r =>
    if c = '"' then some ([], r)
    else if c = '\\' then do
      let (unit, r) ← escape? r
      let (units, r) ← units? fuel r
      some (unit :: units, r)
    else if c.toNat < 0x20 then none
    else do
      let (units, r) ← units? fuel r
      some (.char c :: units, r)

/-- Joins each pair of surrogates into its character; a surrogate alone makes the string no text. -/
def joinUnits? : List Unit → Option (List Char)
  | [] => some []
  | .char c :: r => (joinUnits? r).map (c :: ·)
  | .surrogate high :: .surrogate low :: r =>
    if high < 0xDC00 ∧ 0xDC00 ≤ low then
      (joinUnits? r).map (Char.ofNat (0x10000 + (high - 0xD800) * 0x400 + (low - 0xDC00)) :: ·)
    else none
  | .surrogate _ :: _ => none

def string? (s : List Char) : Option (Option String × List Char) :=
  (units? s.length s).map fun (units, r) => ((joinUnits? units).map String.ofList, r)

def word? (word s : List Char) : Option (List Char) :=
  if word.isPrefixOf s then some (s.drop word.length) else none

mutual

/-- A value at the head of the text, blanks before it skipped. Each value, item and member takes a
character or more of the text, which `fuel` counts. -/
def value? : Nat → List Char → Option (Json × List Char)
  | 0, _ => none
  | fuel + 1, s =>
    match skipSpace s with
    | [] => none
    | '"' :: r => (string? r).map fun (s, r) => (.string s, r)
    | '[' :: r => match skipSpace r with
      | ']' :: r => some (.array [], r)
      | _ => (items? fuel r).map fun (items, r) => (.array items, r)
    | '\x7b' :: r => match skipSpace r with
      | '\x7d' :: r => some (.object [], r)
      | _ => (members? fuel r).map fun (members, r) => (.object members, r)
    | 't' :: r => (word? ['r', 'u', 'e'] r).map fun r => (.bool true, r)
    | 'f' :: r => (word? ['a', 'l', 's', 'e'] r).map fun r => (.bool false, r)
    | 'n' :: r => (word? ['u', 'l', 'l'] r).map fun r => (.null, r)
    | s => (number? s).map fun (n, r) => (.number n, r)

def items? : Nat → List Char → Option (List Json × List Char)
  | 0, _ => none
  | fuel + 1, s => do
    let (item, s) ← value? fuel s
    match skipSpace s with
    | ',' :: r => do
      let (items, r) ← items? fuel r
      some (item :: items, r)
    | ']' :: r => some ([item], r)
    | _ => none

def members? : Nat → List Char → Option (List (Option String × Json) × List Char)
  | 0, _ => none
  | fuel + 1, s =>
    match skipSpace s with
    | '"' :: r => do
      let (name, r) ← string? r
      match skipSpace r with
      | ':' :: r => do
        let (value, r) ← value? fuel r
        match skipSpace r with
        | ',' :: r => do
          let (members, r) ← members? fuel r
          some ((name, value) :: members, r)
        | '\x7d' :: r => some ([(name, value)], r)
        | _ => none
      | _ => none
    | _ => none

end

def read? (s : List Char) : Option Json :=
  match value? (s.length + 1) s with
  | some (value, r) => if skipSpace r = [] then some value else none
  | none => none

end InFlight.Json
