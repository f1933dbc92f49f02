/-!
# Sets of characters by ranges

A property of characters is a list of closed ranges of code points, in ascending order.
-/

namespace Specimen.Text

/-- Closed ranges of code points, ascending. -/
abbrev Ranges := List (Nat × Nat)

/-- Whether a character lies in one of the ranges. -/
def Ranges.has (rs : Ranges) (c : Char) : Bool := rs.any fun (a, b) => a ≤ c.toNat && c.toNat ≤ b

end Specimen.Text
