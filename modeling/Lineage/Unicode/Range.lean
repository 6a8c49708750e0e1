/-!
# Ranges of code points

A class of characters is given by the ranges of code points that it takes up.
-/

namespace Lineage.Unicode

/-- The first and the last code point of a range. -/
abbrev Range := Nat × Nat

/-- Whether a character lies in one of the ranges. -/
def covers (ranges : List Range) (c : Char) : Bool :=
  ranges.any fun range ↦ range.1 ≤ c.toNat && c.toNat ≤ range.2

end Lineage.Unicode
