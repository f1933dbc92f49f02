import Specimen.Handler.Basic
import Specimen.Json.Printer
/-!
# Records

A record makes a name and a value for each entry that is present, in the order of the
declarations. The first present entry without room ends the record: it and whatever might
have come after it count as dropped. `Record.plan` decides what is kept,
`Record.assemble` makes the fields of it.
-/

namespace Specimen.Record

/-- An entry that is kept. -/
structure Entry where
  name : KeyName Spec
  value : Spec

/-- The children of an entry: its name, then its value. -/
def Entry.children (e : Entry) : List Child :=
  match e.name with
  | .fixed text => [.ready (.str text), .queued e.value]
  | .generated spec => [.queued spec, .queued e.value]

/-- Whether an entry has this name, and not a generated one. -/
def Entry.isNamed (name : String) (e : Entry) : Bool :=
  match e.name with
  | .fixed text => text = name
  | .generated _ => false

/-- How far a record has been planned. -/
structure Plan where
  /-- The entries kept so far, the latest first. -/
  entries : List Entry := []
  /-- The room left, if it is limited. -/
  room : Option Nat
  /-- The children cut off, once an entry had no room. -/
  cut : Option Nat := none

namespace Plan

def hasName (p : Plan) (name : String) : Bool := p.entries.any (Entry.isNamed name)

def fits (p : Plan) (need : Nat) : Bool := p.room.all (need ≤ ·)

/-- Keeps an entry of a declaration. -/
def keep (p : Plan) (k : KeyDecl Spec) : Plan :=
  { p with entries := ⟨k.name, k.value⟩ :: p.entries, room := p.room.map (· - k.need) }

def children (p : Plan) : List Child := p.entries.reverse.flatMap Entry.children

end Plan

/-- Counts of children stop here. -/
def countLimit : Nat := UInt64.size - 1

/-- How many children some declarations may need. -/
def needs (keys : List (KeyDecl Spec)) : Nat := keys.foldr (fun k n => k.times * k.need + n) 0

/-- Whether an entry is present, given what is kept before it. -/
def isPresent (p : Plan) : Chance → Draw Bool
  | .always => pure true
  | .percent limit => do pure ((← Draw.percent) < limit)
  | .ifSeen name => pure (p.hasName name)
  | .ifNotSeen name => pure (!p.hasName name)

/-- Plans the occurrences that are left of a declaration; `later` children may follow them. -/
def planKey (later : Nat) (k : KeyDecl Spec) : Nat → Plan → Draw Plan
  | 0, p => pure p
  | left + 1, p => do
    if ← isPresent p k.chance then
      if p.fits k.need then planKey later k left (p.keep k)
      else pure { p with cut := some (min countLimit ((left + 1) * k.need + later)) }
    else planKey later k left p

/-- Plans the declarations of a record one after the other, until an entry has no room. -/
def plan : List (KeyDecl Spec) → Plan → Draw Plan
  | [], p => pure p
  | k :: keys, p => do
    let p ← planKey (needs keys) k k.times p
    if p.cut.isSome then pure p else plan keys p

/-- The text of a name: a text itself, another scalar in its JSON form. -/
def nameText? : Json → Option String
  | .str s => some s
  | .arr _ | .obj _ => none
  | scalar => some scalar.compact

/-- The field of a name and a value that are both done. -/
def field? (name value : Outcome) : Option (String × Json) :=
  if name.stage = .done ∧ value.stage = .done then
    (nameText? name.value).map fun text => (text, value.value)
  else none

/-- The fields of alternating names and values. -/
def assemble : List Outcome → List (String × Json)
  | name :: value :: rest => (field? name value).toList ++ assemble rest
  | _ => []

/-- Plans a record at the first visit and assembles it at the second. -/
def handler : Handler := fun v =>
  match v.stage with
  | .toBuild => pure (.finish (Json.ofFields (assemble v.children)))
  | _ => do
    let p ← Action.draw (plan v.spec.keys { room := v.room })
    Action.discard (p.cut.getD 0)
    if p.entries.isEmpty then pure (.finish (.obj []))
    else pure (.expand .fresh p.children)

end Specimen.Record
