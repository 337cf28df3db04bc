/-!
# Ranges of characters

A class of characters is written down as a table of closed ranges of code points, in ascending
order.
-/

namespace Earley.Text

/-- Whether a character stands in one of the closed ranges of a table. -/
def inRanges (ranges : List (Nat × Nat)) (c : Char) : Bool :=
  ranges.any fun range => range.1 ≤ c.toNat && c.toNat ≤ range.2

end Earley.Text
