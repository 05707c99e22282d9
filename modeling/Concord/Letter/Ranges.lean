import Concord.Bisect

namespace Concord

/-- A set of code points, given by the increasing bounds at which membership changes: it is entered
at the first, left at the second, entered again at the third, and so on. -/
structure Ranges where
  bounds : Array Nat

/-- A code point is in the set if the number of bounds up to it is odd. -/
def Ranges.contains (ranges : Ranges) (code : Nat) : Bool :=
  bisect (fun i => ranges.bounds[i]?.any (· ≤ code)) 0 ranges.bounds.size % 2 == 1

end Concord
