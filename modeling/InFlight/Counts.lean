import InFlight.Event
import InFlight.NameMap
/-!
Running counts: for each category, the starts less the finishes so far.
-/
namespace InFlight

abbrev Counts := NameMap Int

namespace Counts

def zeroed (categories : List String) : Counts :=
  categories.foldl (fun m c => m.insert c 0) NameMap.empty

def count (c : Counts) (category : String) : Int := (c.get? category).getD 0

def step (c : Counts) (p : Endpoint) : Counts := c.upsert p.category fun old => old.getD 0 + p.delta

def advance (c : Counts) (points : List Endpoint) : Counts := points.foldl step c

@[simp] theorem advance_nil (c : Counts) : c.advance [] = c := rfl

theorem advance_append (c : Counts) (p q : List Endpoint) :
    c.advance (p ++ q) = (c.advance p).advance q := List.foldl_append

theorem count_step (c : Counts) (p : Endpoint) (category : String) :
    (c.step p).count category = c.count category + if category = p.category then p.delta
    else 0 := by
  simp only [count, step, NameMap.get?_upsert]
  split
  · rename_i same; simp [same]
  · simp

end Counts

end InFlight
