/-!
# Ranges of characters

A class of characters is given by the ranges of its code points.
-/

namespace Midend.Text

/-- Whether a character lies in one of the ranges, both ends of which belong to
    it. -/
def inRanges (ranges : List (Nat × Nat)) (c : Char) : Bool :=
  ranges.any fun r => r.1 ≤ c.toNat && c.toNat ≤ r.2

end Midend.Text
