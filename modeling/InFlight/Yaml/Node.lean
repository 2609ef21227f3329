import InFlight.Yaml.Token
/-!
The node that a YAML text describes: scalars, sequences and mappings, with references replaced by
what they refer to. A text holds one document.
-/
namespace InFlight.Yaml

structure Scalar where
  text : String
  style : Style
  tag : Option String
  deriving DecidableEq, Repr

inductive Node where
  | scalar (s : Scalar)
  | sequence (tag : Option String) (items : List Node)
  | mapping (tag : Option String) (entries : List (Node × Node))
  deriving Repr

namespace Node

def missing : Node := .scalar ⟨"", .plain, none⟩

/-- How large a node is with its references written out: collections inside each other, and
references followed. -/
structure Extent where
  depth : Nat
  references : Nat
  deriving DecidableEq, Repr

namespace Extent

def leaf : Extent := ⟨0, 0⟩
def beside (a b : Extent) : Extent := ⟨max a.depth b.depth, a.references + b.references⟩
def around (e : Extent) : Extent := ⟨e.depth + 1, e.references⟩
def behindReference (e : Extent) : Extent := ⟨e.depth, e.references + 1⟩

end Extent

abbrev Measured := Node × Extent

/-- Tokens still to be read, the anchors so far, what tag handles stand for, and the number of
scalars, references and ends of collections so far. An anchor is `none` inside its own node. -/
structure Assembly where
  tokens : List Token
  anchors : List (String × Option Measured)
  handles : List (String × String)
  parts : Nat

abbrev Step := StateT Assembly Option

namespace Step

def fail {α : Type} : Step α := fun _ => none
def next : Step (Option Token) := fun a => some (a.tokens.head?, a)
def skip : Step Unit := fun a => some ((), { a with tokens := a.tokens.drop 1 })
def isNext (tokens : List Token) : Step Bool :=
  fun a => some (a.tokens.head?.any (tokens.contains ·), a)
def count (n : Nat) : Step Unit := fun a => some ((), { a with parts := a.parts + n })

def bind (name : Option String) (value : Option Measured) : Step Unit := fun a =>
  match name with
  | some name => some ((), { a with anchors := (name, value) :: a.anchors })
  | none => some ((), a)

def refer (name : String) : Step Measured := fun a =>
  match a.anchors.lookup name with
  | some (some (node, extent)) => some ((node, extent.behindReference), a)
  | _ => none

def resolveTag (t : TagToken) : Step String :=
  fun a => (Tag.resolve? a.handles t).map fun s => (s, a)

end Step

open Step

def takeAnchor : Step (Option String) := do
  match ← next with
  | some (.anchor name) => skip; return some name
  | _ => return none

def takeTag : Step (Option String) := do
  match ← next with
  | some (.tag t) => skip; return some (← resolveTag t)
  | _ => return none

def takeProperties : Step (Option String × Option String) := do
  match ← takeAnchor with
  | some name => return (some name, ← takeTag)
  | none =>
    match ← takeTag with
    | some tag => return (← takeAnchor, some tag)
    | none => return (none, none)

def empty : Step Measured := do
  count 1
  return (missing, .leaf)

def sequenceOf (tag : Option String) (items : List Measured) : Step Measured := do
  count 2
  return (.sequence tag (items.map (·.1)),
    (items.foldl (fun e i => e.beside i.2) Extent.leaf).around)

def mappingOf (tag : Option String) (entries : List (Measured × Measured)) : Step Measured := do
  count 2
  return (.mapping tag (entries.map fun e => (e.1.1, e.2.1)),
    (entries.foldl (fun e i => (e.beside i.1.2).beside i.2.2) Extent.leaf).around)

/-- The tag of an exclamation mark alone says nothing about a scalar. -/
def scalarOf (tag : Option String) (text : String) (style : Style) : Step Measured := do
  count 1
  return (.scalar ⟨text, style, tag.filter (· ≠ "!")⟩, .leaf)

mutual

/-- A node. Block collections may stand outside of brackets, and items without indentation of their
own in a block mapping. Every call takes a token or leads to one that does, which `fuel` counts. -/
def node (inBlock unindented : Bool) : Nat → Step Measured
  | 0 => fail
  | fuel + 1 => do
    match ← next with
    | some (.reference name) =>
      skip
      count 1
      refer name
    | _ =>
      let (anchor, tag) ← takeProperties
      bind anchor none
      let found ← content inBlock unindented anchor tag fuel
      bind anchor (some found)
      return found

def content (inBlock unindented : Bool) (anchor tag : Option String) : Nat → Step Measured
  | 0 => fail
  | fuel + 1 => do
    match ← next, inBlock, unindented with
    | some .blockItem, _, true => sequenceOf tag (← blockItems true fuel)
    | some (.scalar text style), _, _ => skip; scalarOf tag text style
    | some .flowSequence, _, _ => skip; sequenceOf tag (← flowItems true fuel)
    | some .flowMapping, _, _ => skip; mappingOf tag (← flowEntries true fuel)
    | some .blockSequence, true, _ => skip; sequenceOf tag (← blockItems false fuel)
    | some .blockMapping, true, _ => skip; mappingOf tag (← blockEntries fuel)
    | _, _, _ =>
      if anchor.isSome || tag.isSome then
        count 1
        return (.scalar ⟨"", .plain, tag⟩, .leaf)
      else fail

def nodeUnless (tokens : List Token) (inBlock unindented : Bool) : Nat → Step Measured
  | 0 => fail
  | fuel + 1 => do
    if ← isNext tokens then empty else node inBlock unindented fuel

def blockItems (unindented : Bool) : Nat → Step (List Measured)
  | 0 => fail
  | fuel + 1 => do
    if ← isNext [.blockItem] then
      skip
      let item ← nodeUnless
        (if unindented then [.blockItem, .key, .value, .blockFinish]
          else [.blockItem, .blockFinish])
        true false fuel
      return item :: (← blockItems unindented fuel)
    else if unindented then return []
    else if ← isNext [.blockFinish] then skip; return []
    else fail

def valueUnless (tokens : List Token) (inBlock : Bool) : Nat → Step Measured
  | 0 => fail
  | fuel + 1 => do
    if ← isNext [.value] then
      skip
      nodeUnless tokens inBlock inBlock fuel
    else empty

def blockEntries : Nat → Step (List (Measured × Measured))
  | 0 => fail
  | fuel + 1 => do
    if ← isNext [.key] then
      skip
      let key ← nodeUnless [.key, .value, .blockFinish] true true fuel
      let value ← valueUnless [.key, .value, .blockFinish] true fuel
      return (key, value) :: (← blockEntries fuel)
    else if ← isNext [.blockFinish] then skip; return []
    else fail

/-- A mapping of one entry among the items of a sequence. Where its key is left out, the token in
its place is passed over. -/
def pair : Nat → Step Measured
  | 0 => fail
  | fuel + 1 => do
    let key ←
      if ← isNext [.value, .flowItem, .flowSequenceFinish] then skip; empty
      else node false false fuel
    let value ← valueUnless [.flowItem, .flowSequenceFinish] false fuel
    mappingOf none [(key, value)]

def flowItems (first : Bool) : Nat → Step (List Measured)
  | 0 => fail
  | fuel + 1 => do
    if ← isNext [.flowSequenceFinish] then skip; return []
    if !first then if ← isNext [.flowItem] then skip else fail
    if ← isNext [.flowSequenceFinish] then skip; return []
    let item ← if ← isNext [.key] then skip; pair fuel else node false false fuel
    return item :: (← flowItems false fuel)

def flowEntries (first : Bool) : Nat → Step (List (Measured × Measured))
  | 0 => fail
  | fuel + 1 => do
    if ← isNext [.flowMappingFinish] then skip; return []
    if !first then if ← isNext [.flowItem] then skip else fail
    if ← isNext [.flowMappingFinish] then skip; return []
    let entry ←
      if ← isNext [.key] then
        skip
        let key ← nodeUnless [.value, .flowItem, .flowMappingFinish] false false fuel
        let value ← valueUnless [.flowItem, .flowMappingFinish] false fuel
        pure (key, value)
      else
        let key ← node false false fuel
        pure (key, ← empty)
    return entry :: (← flowEntries false fuel)

end

def addDirective? (versions : Nat) (handles : List (String × String)) :
    Directive → Option (Nat × List (String × String))
  | .version major minor =>
    if versions = 0 ∧ major = 1 ∧ (minor = 1 ∨ minor = 2) then some (1, handles) else none
  | .handle name meaning =>
    if (handles.lookup name).isSome then none else some (versions, handles ++ [(name, meaning)])

def takeDirectives? (versions : Nat) (handles : List (String × String)) :
    List Token → Option (List (String × String) × List Token)
  | .directive d :: r => do
    let (versions, handles) ← addDirective? versions handles d
    takeDirectives? versions handles r
  | tokens => some (handles, tokens)

def isDirective : Token → Bool
  | .directive _ => true
  | _ => false

def isBare : List Token → Bool
  | [] => true
  | t :: _ => isDirective t || t == .documentStart || t == .documentFinish

def mostDepth : Nat := 128

/-- At most a hundred references are followed for each part of a document. -/
def mostReferences (parts : Nat) : Nat := 100 * parts

def single? (handles : List (String × String)) (tokens : List Token) : Option Node := do
  let ((found, extent), a) ← (node true false (6 * tokens.length + 6)).run ⟨tokens, [], handles, 0⟩
  if a.tokens.all (· == .documentFinish) ∧ extent.depth ≤ mostDepth ∧
      extent.references ≤ mostReferences a.parts then some found
  else none

/-- Directives and a mark stand before a document, or neither. -/
def ofTokens? (tokens : List Token) : Option Node :=
  match tokens with
  | [] => some missing
  | t :: _ =>
    if isDirective t || t == .documentStart then
      match takeDirectives? 0 [] tokens with
      | some (handles, .documentStart :: r) =>
        if isBare r then if r.all (· == .documentFinish) then some missing else none
        else single? handles r
      | _ => none
    else single? [] tokens

def read? (s : List Char) : Option Node := (Token.ofText? s).bind ofTokens?

end Node

end InFlight.Yaml
