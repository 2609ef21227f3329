import InFlight.Cache.Layout
/-!
The frame around the bytes of a cache file, by the Zstandard format. Blocks are stored as they are;
of frames by others those are read whose blocks are stored or repeat one byte.
-/
namespace InFlight.Cache.Frame

def magic : Bytes := [0x28, 0xB5, 0x2F, 0xFD]

def blockLimit : Nat := 131072

/-- Three bytes: whether the block is the last one, its kind, and its size. -/
def blockHeader (last : Bool) (kind size : Nat) : Bytes :=
  littleEndian 3 ((if last then 1 else 0) + 2 * kind + 8 * size)

def storedBlocks : Nat → Bytes → Bytes
  | 0, _ => []
  | fuel + 1, s =>
    let piece := s.take blockLimit
    let rest := s.drop blockLimit
    blockHeader rest.isEmpty 0 piece.length ++ piece ++
      (if rest.isEmpty then [] else storedBlocks fuel rest)

def pack (s : Bytes) : Bytes :=
  magic ++ [0xE0] ++ word s.length ++ storedBlocks (s.length / blockLimit + 1) s

/-- The bytes of the header behind its first one: window, dictionary and length of the content. -/
def headerLength (descriptor : Nat) : Nat :=
  let oneSegment := descriptor / 32 % 2
  let dictionary := match descriptor % 4 with
    | 3 => 4
    | n => n
  let content := match descriptor / 64 with
    | 0 => oneSegment
    | n => Decimal.twoTo n
  (1 - oneSegment) + dictionary + content

def blocks? : Nat → Bytes → Option Bytes
  | 0, _ => none
  | fuel + 1, s => do
    let (header, s) ← takeLittleEndian? 3 s
    let size := header / 8
    let (piece, s) ← match header / 2 % 4 with
      | 0 => takeBytes? size s
      | 1 => (takeBytes? 1 s).map fun (b, s) => ((List.replicate size b).flatten, s)
      | _ => none
    if header % 2 = 1 then some piece else (blocks? fuel s).map (piece ++ ·)

def unpack? (s : Bytes) : Option Bytes := do
  let (start, s) ← takeBytes? 4 s
  let (descriptor, s) ← if start = magic then takeLittleEndian? 1 s else none
  let (_, s) ← takeBytes? (headerLength descriptor) s
  blocks? (s.length + 1) s

end InFlight.Cache.Frame
