/-!
# Ranges of code points

A class of characters outside ASCII is given by a list of closed ranges of code points.
-/

namespace BraceScript.Text

/-- Closed ranges of code points, in increasing order. -/
abbrev Ranges := List (Nat × Nat)

/-- The character lies in one of the ranges. -/
def Ranges.covers (ranges : Ranges) (c : Char) : Bool :=
  ranges.any fun range => range.1 ≤ c.toNat && c.toNat ≤ range.2

end BraceScript.Text
