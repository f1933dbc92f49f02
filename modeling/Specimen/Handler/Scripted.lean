import Specimen.Handler.Basic
import Specimen.Json.Printer
import Specimen.Spec.Reader
/-!
# Handlers by name

Small handlers that exercise every operation a handler has. Their material is in the extra fields
of the descriptions they are asked about; a field that is missing or unfit has a default.
`Scripted.ofName` finds one, and `Scripted.provider` answers every call with the call itself.
-/

namespace Specimen.Scripted

/-- An extra field of the description. -/
def extra (v : Visit) (name : String) : Json := Json.ofOption (Table.get? v.spec.extra name)

def extraNat (v : Visit) (name : String) (default : Nat) : Nat :=
  (extra v name).nat64?.getD default

def extraText (v : Visit) (name : String) : String := (extra v name).str?.getD ""

/-- The description in the field `of`, that children are made from. -/
def material (v : Visit) : Spec := Spec.ofJson (extra v "of")

/-- What the children have come to, as pairs of a stage and a value. -/
def outcomes (v : Visit) : Json :=
  .arr (v.children.map fun c => .arr [.str c.stage.name, c.value])

/-- Two children in a scope of their own; their values at the second visit. -/
def pair : Handler := fun v =>
  match v.stage with
  | .toBuild => pure (.finish (.arr (v.children.map (·.value))))
  | _ => pure (.expand .fresh [.queued (material v), .queued (material v)])

/-- One child more at each visit, up to a number of them or as long as there is room. -/
def rounds : Handler := fun v =>
  if v.children.length < extraNat v "rounds" 2 then
    if v.room = some 0 then do
      Action.discard 1
      pure (.finish (outcomes v))
    else pure (.expand .inherited [.queued (material v)])
  else pure (.finish (outcomes v))

/-- What a handler sees, and three counters of its scope. -/
def info : Handler := fun v => do
  let a ← Action.count "i%d"
  let b ← Action.count "j%d"
  let c ← Action.count "i%d"
  pure (.finish (Json.ofFields [("state", .str v.stage.name), ("depth", Json.ofNat v.depth),
    ("in_scope", .bool v.inScope), ("counters", .arr [Json.ofNat a, Json.ofNat b, Json.ofNat c]),
    ("budget", Json.ofOption (v.room.map Json.ofNat)),
    ("children", Json.ofNat v.children.length)]))

/-- Ready children and children to be made, by turns. -/
def mixed : Handler := fun v =>
  match v.stage with
  | .toBuild => pure (.finish (outcomes v))
  | _ => do
    Action.discard (extraNat v "drop" 0)
    pure (.expand .outside ((List.range (extraNat v "times" 1)).flatMap fun i =>
      [.ready (.str ("a" ++ toString i)), .queued (material v)]))

/-- A text for a pattern, from a source that the node's own one seeds. -/
def seededText (v : Visit) (pattern : String) : Action String := do
  let seed ← Action.draw Draw.word64
  Action.onSource (Random.Source.seeded seed) (Action.synthesize v.providers.check? pattern 0)

/-- Two texts for a pattern, and how many patterns have been read. -/
def texts (v : Visit) : Action Json := do
  let a ← seededText v (extraText v "regex")
  let b ← seededText v (extraText v "regex")
  pure (Json.ofFields [("words", .arr [.str a, .str b]),
    ("cached", Json.ofNat (← Action.patternCount))])

/-- A value of the distribution that the description calls. -/
def sample (v : Visit) : Action Json :=
  Action.provide (v.providers.callDistribution (extraText v "name")
    ((extra v "args").arr?.getD []))

/-- A handler by its name, with a constant for the one that wants it. -/
def ofName (name : String) (constant : Json) : Handler :=
  match name with
  | "const" => .leaf fun _ => pure constant
  | "params" => .leaf fun v =>
    pure (Json.ofFields [("params", Json.ofOption v.spec.parameters)])
  | "roll" => .leaf fun _ => do pure (Json.ofNat (← Action.draw Draw.word).toNat)
  | "fail" => fun _ => throw (.requested "boom")
  | "expand_empty" => fun _ => pure (.expand .outside [])
  | "loop" => fun v => pure (.redirect v.spec)
  | "redirect" => fun v => pure (.redirect (Spec.ofJson (extra v "to")))
  | "pair" => pair
  | "rounds" => rounds
  | "info" => info
  | "mixed" => mixed
  | "text" => .leaf texts
  | "draw" => .leaf sample
  | _ => fun _ => pure .pending

/-- A provider that answers with the call, its name under a key, and draws nothing. -/
def provider (key : String) : Provider.Call := fun name args =>
  pure (.ok (Json.ofFields [(key, .str name), ("args", .arr args)]))

end Specimen.Scripted
