/-! Sets of characters given by ranges of code points in increasing order. -/
namespace OrderedBnf

abbrev Ranges := List (Nat × Nat)

/-- Stops at the first range that starts beyond the code point. -/
def Ranges.contains : Ranges → Nat → Bool
  | [], _ => false
  | (low, high) :: rest, n => if n < low then false else n ≤ high || Ranges.contains rest n

end OrderedBnf
