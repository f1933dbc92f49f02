import Specimen.Handler.Basic
import Specimen.Text.Alphabet
import Specimen.Text.Encoding
/-!
# Values without children

The handlers whose nodes have no children: a fixed value, a truth value, an integer, a pick from
a list, text, text for a pattern, a counter, and calls of the providers.
-/

namespace Specimen.Leaf

open Params

/-- The parameters of a visit by the declared names. -/
def parameters (v : Visit) (context : String) (decls : List Decl) : Action Bound :=
  match Params.bind v.spec.parameters decls with
  | .ok b => pure b
  | .error e => throw (.parameters context e)

/-- The value of the description, else the one in the parameters, else null. -/
def fixed (v : Visit) : Action Json :=
  match v.spec.value with
  | some value => pure value
  | none => do
    let b ← parameters v "fixed" [⟨"value", .any, false⟩]
    pure (Json.ofOption (b.get? "value"))

/-- True with a probability in percent. -/
def boolean (v : Visit) : Action Json := do
  let b ← parameters v "bool" [⟨"probability", .float, false⟩]
  let x ← Action.draw Draw.percent
  pure (.bool (x < (b.float? "probability").getD 50.0))

/-- An integer between bounds, both included. -/
def integer (v : Visit) : Action Json := do
  let b ← parameters v "integer" [⟨"min_val", .int, false⟩, ⟨"max_val", .int, false⟩]
  let low := (b.int? "min_val").getD 0
  let high := (b.int? "max_val").getD 9
  if high < low then throw (.integerBounds low high)
  else pure (.int (← Action.draw (Draw.between low high)))

/-- One of the listed values; null if there are none. -/
def pick (v : Visit) : Action Json :=
  match Params.variadic v.spec.parameters "choices" with
  | .error e => throw (.parameters "choice" e)
  | .ok values => do pure (Json.ofOption (← Action.draw (Draw.pick values)))

/-! ## Text -/

/-- So many characters of an alphabet, each with the same weight, before those of `rest`. -/
def drawChars (alphabet : Array Char) : Nat → List Char → Draw String
  | 0, rest => pure (String.ofList rest.reverse)
  | n + 1, rest => do
    let i ← Draw.index alphabet.size
    drawChars alphabet n ((alphabet[i]?.getD ' ') :: rest)

/-- The alphabet that text parameters ask for: written out, by name, or the default one. -/
def alphabet (b : Bound) : String :=
  match b.str? "fixed_alphabet" with
  | some s => s
  | none => ((b.str? "alphabet").bind Text.namedAlphabet?).getD Text.defaultAlphabet

/-- Encodes a text as its parameters ask. -/
def encode (b : Bound) (s : String) : Action String :=
  match b.str? "encoding" with
  | none => pure s
  | some name =>
    match Text.Encoding.ofName? name with
    | some e => pure (e.apply s)
    | none => throw (.unknownEncoding name)

def textDecls : List Decl :=
  [⟨"min_length", .int, false⟩, ⟨"max_length", .int, false⟩, ⟨"alphabet", .string, false⟩,
    ⟨"fixed_alphabet", .string, false⟩, ⟨"encoding", .string, false⟩]

/-- Text of a random length from an alphabet, encoded afterwards. -/
def text (v : Visit) : Action Json := do
  let b ← parameters v "string" textDecls
  let low := (b.int? "min_length").getD 1
  let high := (b.int? "max_length").getD 16
  if low < 0 ∨ high < low then throw (.lengthBounds low high)
  else
    let chars := (alphabet b).toList.toArray
    if chars.isEmpty then throw .emptyAlphabet
    else
      let length ← Action.draw (Draw.between low high)
      let s ← Action.draw (drawChars chars length.toNat [])
      pure (.str (← encode b s))

/-- Text for a pattern. -/
def regex (v : Visit) : Action Json := do
  let b ← parameters v "string/regex" [⟨"regex", .string, true⟩, ⟨"min_length", .int, false⟩]
  let minLength := ((b.int? "min_length").getD 0).toNat
  pure (.str (← Action.synthesize v.providers.check? ((b.str? "regex").getD "") minLength))

/-- The next counter of the description's pattern, formatted by it. -/
def enumeration (v : Visit) : Action Json := do
  let pattern := v.spec.pattern.getD "%d"
  let n ← Action.count pattern
  match ← Action.returned (Counter.format pattern n) with
  | .ok s => pure (.str s)
  | .error e => throw (.counter e)

/-! ## Calls of providers -/

/-- The name and the arguments of a call. -/
def call (v : Visit) (context nameKey : String) : Action (String × List Json) :=
  match Params.call v.spec.parameters nameKey "args" with
  | .ok c => pure c
  | .error e => throw (.parameters context e)

/-- A value of a distribution; one of the arguments if there is none. -/
def distribution (v : Visit) : Action Json := do
  let (name, args) ← call v "numpy" "distribution"
  match ← Action.draw (v.providers.callDistribution name args) with
  | .ok value => pure value
  | .error _ => pure (Json.ofOption (← Action.draw (Draw.pick args)))

/-- Fake data; null if there is none. -/
def fake (v : Visit) : Action Json := do
  let (method, args) ← call v "fake" "method"
  match ← Action.draw (v.providers.callFake method args) with
  | .ok value => pure value
  | .error _ => pure .null

end Specimen.Leaf
