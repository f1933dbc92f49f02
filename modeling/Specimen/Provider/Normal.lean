import Specimen.Random.Draw
/-!
# The normal distribution

The density is covered by 256 layers of equal area. A draw takes a layer and a point across it;
only near the edge is the density itself computed, and the lowest layer has the tail beyond it.
-/

namespace Specimen.Provider

/-- Where the tail begins. -/
def tailStart : Float := 3.654152885361008796

/-- The width of a rectangle that has the area of the lowest layer with its tail. -/
def lowestWidth : Float := 3.910757959537090045

/-- The density of the standard normal distribution, up to a factor. -/
def density (x : Float) : Float := Float.exp (-x * x / 2.0)

/-- The edge of the layer above one with the given edge, for layers of the given area. -/
def edgeAbove (area x : Float) : Float := Float.sqrt (-2.0 * Float.log (area / x + density x))

/-- The edges of `n` layers above one with the given edge. -/
def edgesFrom (area : Float) : Nat → Float → List Float
  | 0, _ => []
  | n + 1, x =>
    let y := edgeAbove area x
    y :: edgesFrom area n y

/-- The right edges of the layers, from the lowest up, and the middle at last. -/
def layerEdges : Array Float :=
  let area := lowestWidth * density tailStart
  (lowestWidth :: tailStart :: edgesFrom area 254 tailStart ++ [0.0]).toArray

def layerEdge (i : Nat) : Float := (layerEdges[i]?).getD 0.0

/-- A fraction between zero and one, neither included. -/
def openUnit : Draw Float := do
  let w ← Draw.word64
  pure (((w >>> 12).toFloat + 0.5) * Float.ofBits 0x3CB0000000000000)

theorem shrinks_openUnit : Draw.Shrinks openUnit :=
  Draw.shrinks_word64.bind fun _ => Draw.keeps_pure _

/-- One attempt at a distance beyond the start of the tail. -/
def tailAttempt : Draw (Option Float) := do
  let x := Float.log (← openUnit) / tailStart
  let y := Float.log (← openUnit)
  pure (if -2.0 * y < x * x then none else some x)

theorem shrinks_tailAttempt : Draw.Shrinks tailAttempt :=
  shrinks_openUnit.bind fun _ => shrinks_openUnit.keeps.bind fun _ => Draw.keeps_pure _

/-- A point of the tail, on the side of `u`. -/
def tailPoint (u : Float) : Draw Float := do
  let x ← Draw.repeatSome tailAttempt shrinks_tailAttempt
  pure (if u < 0.0 then x - tailStart else tailStart - x)

/-- One attempt: a layer from the low bits of two words, a point across it from the high ones. -/
def normalAttempt : Draw (Option Float) := do
  let w ← Draw.word64
  let i := (w &&& 0xFF).toNat
  let u := (w >>> 12).toFloat * Float.ofBits 0x3CC0000000000000 - 1.0
  let x := u * layerEdge i
  if x.abs < layerEdge (i + 1) then pure (some x)
  else if i = 0 then do pure (some (← tailPoint u))
  else do
    let low := density (layerEdge (i + 1))
    let high := density (layerEdge i)
    let y := low + (high - low) * (← Draw.unit)
    pure (if y < density x then some x else none)

theorem shrinks_normalAttempt : Draw.Shrinks normalAttempt :=
  Draw.shrinks_word64.bind fun _ => by
    dsimp only
    split
    · exact Draw.keeps_pure _
    · split
      · exact ((Draw.shrinks_loop _ _ _).bind fun _ => Draw.keeps_pure _).keeps.bind
          fun _ => Draw.keeps_pure _
      · exact Draw.shrinks_unit.keeps.bind fun _ => Draw.keeps_pure _

/-- A draw from the standard normal distribution. -/
def standardNormal : Draw Float := Draw.repeatSome normalAttempt shrinks_normalAttempt

theorem shrinks_standardNormal : Draw.Shrinks standardNormal := Draw.shrinks_loop _ _ _

end Specimen.Provider
