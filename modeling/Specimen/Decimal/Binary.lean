/-!
# Binary64 numbers as integers and powers of two

Every finite float is `m * 2^q` up to its sign. `Binary.ofFloat` reads `m` and `q` off the bits,
and `Binary.low`, `Binary.high` bound the reals that round to the number, in units of `2^(q-2)`.
-/

namespace Specimen.Decimal

/-- The magnitude `mantissa * 2^exponent` of a finite float. -/
structure Binary where
  mantissa : Nat
  exponent : Int
  /-- Whether the number below is only half as far away as the number above. -/
  atPower : Bool
  deriving Repr, DecidableEq

namespace Binary

/-- The magnitude that the bits of a finite float stand for; the sign bit is left aside. -/
def ofBits (bits : UInt64) : Binary :=
  let biased := ((bits >>> 52) &&& 0x7FF).toNat
  let fraction := (bits &&& 0xFFFFFFFFFFFFF).toNat
  if biased = 0 then ⟨fraction, -1074, false⟩
  else ⟨0x10000000000000 + fraction, (biased : Int) - 1075, fraction = 0 ∧ 1 < biased⟩

def ofFloat (x : Float) : Binary := ofBits x.toBits

/-- The number itself in quarters of its last place. -/
def quarters (b : Binary) : Nat := 4 * b.mantissa

/-- The middle between the number and the one below, in the same unit. -/
def low (b : Binary) : Nat := if b.atPower then 4 * b.mantissa - 1 else 4 * b.mantissa - 2

/-- The middle between the number and the one above. -/
def high (b : Binary) : Nat := 4 * b.mantissa + 2

/-- The two middles themselves round to the number exactly when its mantissa is even. -/
def endsIncluded (b : Binary) : Bool := b.mantissa % 2 = 0

end Binary

end Specimen.Decimal
