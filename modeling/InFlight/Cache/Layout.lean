import InFlight.Event
import InFlight.Time.Timestamp
import InFlight.Word
/-!
Events as bytes, for the cache. Numbers take eight bytes, the lowest first; a text is its length in
bytes and its bytes; an event is its fields one behind the other, its times as text; a list is its
length and its events. Reading returns what is left of the bytes.
-/
namespace InFlight.Cache

abbrev Bytes := List UInt8

def littleEndian : Nat → Nat → Bytes
  | 0, _ => []
  | count + 1, n => UInt8.ofNat n :: littleEndian count (n / 256)

def takeLittleEndian? : Nat → Bytes → Option (Nat × Bytes)
  | 0, s => some (0, s)
  | _ + 1, [] => none
  | count + 1, b :: r => (takeLittleEndian? count r).map fun (n, r) => (b.toNat + 256 * n, r)

def word (n : Nat) : Bytes := littleEndian 8 n
def takeWord? (s : Bytes) : Option (Nat × Bytes) := takeLittleEndian? 8 s

def signed (n : Int) : Bytes := word (n % Word.count64).toNat

def takeSigned? (s : Bytes) : Option (Int × Bytes) :=
  (takeWord? s).map fun (n, r) => (Word.wrap64 n, r)

def takeBytes? (count : Nat) (s : Bytes) : Option (Bytes × Bytes) :=
  if count ≤ s.length then some (s.take count, s.drop count) else none

def text (s : String) : Bytes :=
  let bytes := s.toUTF8.data.toList
  word bytes.length ++ bytes

def takeText? (s : Bytes) : Option (String × Bytes) := do
  let (count, s) ← takeWord? s
  let (bytes, s) ← takeBytes? count s
  let text ← String.fromUTF8? (ByteArray.mk bytes.toArray)
  some (text, s)

def instant (t : Instant) : Bytes := text (Timestamp.render t)

def takeInstant? (s : Bytes) : Option (Instant × Bytes) := do
  let (text, s) ← takeText? s
  let t ← Timestamp.read? text.toList
  some (t, s)

def event (e : Event) : Bytes :=
  text e.sender ++ text e.receiver ++ text e.category ++ signed e.size ++ instant e.start ++
    instant e.finish ++ signed e.localRate ++ signed e.globalRate ++ word e.id

def takeEvent? (s : Bytes) : Option (Event × Bytes) := do
  let (sender, s) ← takeText? s
  let (receiver, s) ← takeText? s
  let (category, s) ← takeText? s
  let (size, s) ← takeSigned? s
  let (start, s) ← takeInstant? s
  let (finish, s) ← takeInstant? s
  let (localRate, s) ← takeSigned? s
  let (globalRate, s) ← takeSigned? s
  let (id, s) ← takeWord? s
  some ({ sender, receiver, category, size, start, finish, localRate, globalRate, id }, s)

def takeEvents? : Nat → Bytes → Option (List Event × Bytes)
  | 0, s => some ([], s)
  | count + 1, s => do
    let (e, s) ← takeEvent? s
    let (events, s) ← takeEvents? count s
    some (e :: events, s)

def encode (events : List Event) : Bytes := word events.length ++ events.flatMap event

/-- Bytes behind the last event are passed over. -/
def decode? (s : Bytes) : Option (List Event) := do
  let (count, s) ← takeWord? s
  let (events, _) ← takeEvents? count s
  some events

end InFlight.Cache
