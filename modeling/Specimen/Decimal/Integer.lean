import Specimen.Decimal.Binary
/-!
# Floats that are integers

The exact integer value of a float, where it has one.
-/

namespace Specimen.Decimal

/-- The integer `mantissa * 2^exponent`, if it is one. -/
def Binary.nat? (b : Binary) : Option Nat :=
  if 0 ≤ b.exponent then some (b.mantissa <<< b.exponent.toNat)
  else
    let unit := 1 <<< (-b.exponent).toNat
    if b.mantissa % unit = 0 then some (b.mantissa / unit) else none

/-- The integer that a finite float equals, if there is one. -/
def integerOf? (x : Float) : Option Int :=
  if x.isFinite then
    (Binary.ofFloat x).nat?.map fun n => if x < 0.0 then -(n : Int) else n
  else none

end Specimen.Decimal
