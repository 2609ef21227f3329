/-!
Columns of a table: a text is padded with spaces to a width counted in characters, and never cut.
-/
namespace InFlight.Text

def padding (width : Nat) (s : String) : String :=
  String.ofList (List.replicate (width - s.length) ' ')

def flushLeft (width : Nat) (s : String) : String := s ++ padding width s

def flushRight (width : Nat) (s : String) : String := padding width s ++ s

end InFlight.Text
