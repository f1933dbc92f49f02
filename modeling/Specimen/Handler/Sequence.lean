import Specimen.Handler.Basic
/-!
# Arrays and choices

An array repeats its element a random number of times, as far as there is room. A choice draws
one of its options and goes on with it.
-/

namespace Specimen

namespace Sequence

/-- The least and the greatest length. -/
def bounds (s : Spec) : Int × Int :=
  let low := max 0 (s.minLength.getD 0)
  (low, s.maxLength.getD (min (low + 4) (int64Limit - 1)))

/-- As much of a length as there is room for. -/
def admitted (room : Option Nat) (length : Nat) : Nat :=
  match room with
  | none => length
  | some room => min room length

/-- The item of an array that a child becomes. -/
def item? (c : Outcome) : Option Json :=
  match c.stage with
  | .done => some c.value
  | .truncated => some .null
  | _ => none

/-- Draws the length of an array at the first visit and assembles it at the second. -/
def handler : Handler := fun v =>
  match v.stage with
  | .toBuild => pure (.finish (.arr (v.children.filterMap item?)))
  | _ => do
    let (low, high) := bounds v.spec
    if high < low then pure (.finish (.arr []))
    else
      let length := (← Action.draw (Draw.between low high)).toNat
      let kept := admitted v.room length
      Action.discard (length - kept)
      if kept = 0 then pure (.finish (.arr []))
      else
        pure (.expand .fresh (List.replicate kept (.queued (v.spec.typeElements.getD .empty))))

end Sequence

namespace Choice

/-- The option that a roll falls on, if the weights reach that far. -/
def select (share : Float) : Float → List (ChoiceOption Spec) → Option Spec
  | _, [] => none
  | roll, o :: rest =>
    let weight := o.chance.getD share
    if roll < weight then some o.spec else select share (roll - weight) rest

/-- Draws an option; options without a weight share a hundred percent evenly. -/
def handler : Handler := fun v =>
  match v.spec.options with
  | [] => pure (.finish .null)
  | options => do
    let roll ← Action.draw Draw.percent
    match select (100.0 / options.length.toFloat) roll options with
    | some s => pure (.redirect s)
    | none => pure (.finish .null)

end Choice

end Specimen
