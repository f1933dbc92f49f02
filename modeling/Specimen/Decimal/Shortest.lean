import Specimen.Decimal.Binary
/-!
# The shortest decimal that reads back

Among the decimals that round to a given float, `Decimal.shortest` takes one with the fewest
digits, and of those the nearest. It tests the two neighbours of the number on the grid of one
digit, of two digits and so on, in exact integer arithmetic.
-/

namespace Specimen

/-- The number `digits * 10^exponent`. -/
structure Decimal where
  digits : Nat
  exponent : Int
  deriving Repr, DecidableEq

namespace Decimal

/-- How many decimal digits a natural number has; zero has one. -/
def digitCount (n : Nat) : Nat := (Nat.toDigits 10 n).length

/-- The numerator of `x * 2^q` against the grid `10^k`, over the denominator `gridUnit`. -/
def onGrid (x : Nat) (q k : Int) : Nat := (x <<< q.toNat) * Nat.pow 10 (-k).toNat

/-- The grid step `10^k` in the same unit. -/
def gridUnit (q k : Int) : Nat := Nat.pow 10 k.toNat <<< (-q).toNat

/-- The least `e` with `x * 2^q < 10^e`, for a positive `x`. -/
def pointPosition (x : Nat) (q : Int) : Int :=
  let num := x <<< q.toNat
  let den := 1 <<< (-q).toNat
  if den ≤ num then digitCount (num / den)
  else 1 - (digitCount ((den - 1) / num) : Int)

/-- Whether the grid point `d * 10^k` rounds to the float. -/
def readsBack (b : Binary) (d : Nat) (k : Int) : Bool :=
  let q := b.exponent - 2
  let p := d * gridUnit q k
  let low := onGrid b.low q k
  let high := onGrid b.high q k
  if b.endsIncluded then low ≤ p ∧ p ≤ high else low < p ∧ p < high

/-- The better of the number's two neighbours on the grid `10^k`, if one of them reads back. -/
def onGrid? (b : Binary) (k : Int) : Option Nat :=
  let q := b.exponent - 2
  let unit := gridUnit q k
  let v := onGrid b.quarters q k
  let d := v / unit
  match readsBack b d k, readsBack b (d + 1) k with
  | false, false => none
  | true, false => some d
  | false, true => some (d + 1)
  | true, true =>
    let below := v - d * unit
    let above := (d + 1) * unit - v
    if below < above ∨ (below = above ∧ d % 2 = 0) then some d else some (d + 1)

/-- Tries the grids of `17 - tries + 1` digits and more; the last is always fine enough. -/
def searchGrids (b : Binary) (point : Int) : Nat → Decimal
  | 0 => ⟨b.mantissa, 0⟩
  | tries + 1 =>
    let k := point - (17 - tries : Nat)
    match onGrid? b k with
    | some d => ⟨d, k⟩
    | none => searchGrids b point tries

/-- Drops trailing zeros, at most `fuel` of them. -/
def stripZeros : Nat → Decimal → Decimal
  | 0, d => d
  | fuel + 1, d =>
    if d.digits ≠ 0 ∧ d.digits % 10 = 0 then stripZeros fuel ⟨d.digits / 10, d.exponent + 1⟩
    else d

/-- The shortest decimal of a magnitude; zero is `0 * 10^0`. -/
def shortest (b : Binary) : Decimal :=
  if b.mantissa = 0 then ⟨0, 0⟩
  else stripZeros 17 (searchGrids b (pointPosition b.quarters (b.exponent - 2)) 17)

/-! ## Text -/

def digitText (n : Nat) : String := String.ofList (Nat.toDigits 10 n)

def zeros (n : Nat) : String := String.ofList (List.replicate n '0')

/-- Where the decimal point of a number stands: after so many of its digits. -/
def point (d : Decimal) : Int := digitCount d.digits + d.exponent

/-- Positional text; `whole` is what follows the digits of a number without a fraction. -/
def positional (d : Decimal) (whole : String) : String :=
  let text := digitText d.digits
  if 0 ≤ d.exponent then text ++ zeros d.exponent.toNat ++ whole
  else if 0 < d.point then
    String.ofList (text.toList.take d.point.toNat) ++ "." ++
      String.ofList (text.toList.drop d.point.toNat)
  else "0." ++ zeros (-d.point).toNat ++ text

/-- One digit before the point, and a signed power of ten after `e`. -/
def scientific (d : Decimal) : String :=
  let e := d.point - 1
  let tail := match Nat.toDigits 10 d.digits with
    | [] => ""
    | [c] => c.toString
    | c :: cs => c.toString ++ "." ++ String.ofList cs
  tail ++ "e" ++ (if e < 0 then "-" else "+") ++ digitText e.natAbs

/-- Whether the sign bit is set; it is for the negative zero. -/
def isNegative (x : Float) : Bool := x.toBits >>> 63 != 0

def signText (x : Float) : String := if isNegative x then "-" else ""

/--
The text of a finite float in a document: positional from `0.00001` to below `10^16`, with a
fraction always, and scientific outside.
-/
def documentText (x : Float) : String :=
  let d := shortest (Binary.ofFloat x)
  let body :=
    if d.digits = 0 then "0.0"
    else if -4 ≤ d.point ∧ d.point ≤ 16 then d.positional ".0"
    else d.scientific
  signText x ++ body

/-- The text of a float in a message: positional always, and no fraction where there is none. -/
def messageText (x : Float) : String :=
  if x.isNaN then "NaN"
  else if x.isInf then signText x ++ "inf"
  else signText x ++ (shortest (Binary.ofFloat x)).positional ""

end Decimal

end Specimen
