/-!
# Sets of characters as ranges of code points

A class of characters beyond ASCII is a list of closed ranges. Membership is a scan, so a statement about
a class is a statement about its list.
-/

namespace WhileExec.Text

/-- The character's code point lies in one of the closed ranges. -/
def inRanges (ranges : List (Nat × Nat)) (c : Char) : Bool :=
  ranges.any fun range => range.1 ≤ c.toNat && c.toNat ≤ range.2

end WhileExec.Text
