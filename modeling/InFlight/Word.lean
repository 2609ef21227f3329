/-!
Machine words: how many there are of a length, and the bounds of the signed ones.
-/
namespace InFlight.Word

def count32 : Nat := 4294967296
def count64 : Nat := 18446744073709551616
def count128 : Nat := 340282366920938463463374607431768211456

def most32 : Nat := 2147483647
def most64 : Nat := 9223372036854775807

def least64 : Int := -9223372036854775808

def IsSigned64 (n : Int) : Prop := least64 ≤ n ∧ n ≤ most64

instance (n : Int) : Decidable (IsSigned64 n) := inferInstanceAs (Decidable (_ ∧ _))

/-- The signed word of 64 bits that is equal to `n` modulo their number. -/
def wrap64 (n : Int) : Int := n.bmod count64

theorem wrap64_eq_self {n : Int} (h : IsSigned64 n) : wrap64 n = n := by
  simp only [IsSigned64, least64, most64] at h
  simp only [wrap64, count64, Int.bmod]
  omega

end InFlight.Word
