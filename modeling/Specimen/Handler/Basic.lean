import Specimen.Counter.Scope
import Specimen.Failure
import Specimen.Provider.Basic
import Specimen.Regex.Synthesizer
import Specimen.Spec.Basic
/-!
# Handlers

A handler makes the value of a node. It is asked at every visit of the node, sees what the
`Visit` shows, and answers with a `Verdict`: a value, another description to go on with, or
children that have to be made first. In between it may draw, count, synthesize text and fail;
these are the operations of `Action`.
-/

namespace Specimen

open Specimen.Random Regex

/-- How far a node has come. -/
inductive Stage where
  /-- No handler has decided about it. -/
  | delayed
  /-- It waits for its children. -/
  | toBuild
  | done
  /-- It lies too deep; its value is null. -/
  | truncated
  deriving DecidableEq, Repr

def Stage.name : Stage → String
  | delayed => "delayed"
  | toBuild => "to_build"
  | done => "done"
  | truncated => "truncated"

/-- What a child has come to. -/
structure Outcome where
  stage : Stage
  value : Json

/-- What a handler sees of its node. -/
structure Visit where
  spec : Spec
  stage : Stage
  depth : Nat
  /-- Whether the node lies inside a composite that counts. -/
  inScope : Bool
  /-- How many children may be queued, if that is limited. -/
  room : Option Nat
  /-- The children from earlier visits. -/
  children : List Outcome
  providers : Providers

/-- A child that a handler asks for. -/
inductive Child where
  /-- A value that is there already. -/
  | ready (value : Json)
  /-- A value to be made. -/
  | queued (spec : Spec)

/-- The scope that children count in. -/
inductive Placement where
  /-- A new scope of their own. -/
  | fresh
  /-- The scope of their parent. -/
  | inherited
  /-- No scope. -/
  | outside
  deriving DecidableEq, Repr

/-- What a handler decides at a visit. -/
inductive Verdict where
  | finish (value : Json)
  /-- Goes on with another description at the same depth. -/
  | redirect (spec : Spec)
  /-- Makes children, and comes back when they are done. -/
  | expand (placement : Placement) (children : List Child)
  /-- Decides nothing, which is a failure. -/
  | pending

/-- What handlers work with and leave to the next one. -/
structure Supply where
  source : Source
  synthesizer : Synthesizer
  /-- The counters of the scope that the node is in. -/
  scope : Option Scope
  /-- The children left out for lack of room, as a 64-bit count. -/
  dropped : UInt64

/-- What a handler does: it may fail, and then its draws stay taken. -/
abbrev Action (α : Type) := ExceptT Failure (StateT Supply Option) α

namespace Action

def draw {α : Type} (d : Draw α) : Action α := fun s =>
  (d s.source).map fun (a, source) => (.ok a, { s with source })

/-- The next counter of a pattern in the node's scope; outside every scope it is one. -/
def count (pattern : String) : Action Nat := fun s =>
  match s.scope with
  | none => some (.ok 1, s)
  | some scope =>
    let (n, scope) := scope.next pattern
    some (.ok n, { s with scope := some scope })

/-- Counts children that are left out for lack of room. -/
def discard (n : Nat) : Action Unit := fun s =>
  some (.ok (), { s with dropped := s.dropped + UInt64.ofNat n })

/-- The value of a call that may not return. -/
def returned {α : Type} (a : Option α) : Action α := fun s => a.map fun a => (.ok a, s)

/-- A text for a pattern that passes the check, if there is one for the pattern. -/
def synthesize (check? : String → Option (String → Bool)) (pattern : String) (minLength : Nat) :
    Action String := fun s =>
  match s.synthesizer.synthesize check? pattern minLength with
  | .error e => some (.error (.synthesis e), s)
  | .ok (d, synthesizer) => draw d { s with synthesizer }

/-- How many patterns have been read so far. -/
def patternCount : Action Nat := do pure (← get).synthesizer.size

/-- Runs an action on another source; the node's own one stays where it is. -/
def onSource {α : Type} (source : Source) (a : Action α) : Action α := fun s =>
  (a { s with source }).map fun (r, t) => (r, { t with source := s.source })

/-- Calls a provider; its error is a failure. -/
def provide (d : Draw (Except Provider.Error Json)) : Action Json := do
  match ← draw d with
  | .ok v => pure v
  | .error e => throw (.provider e)

end Action

/-- A handler decides about a node at each visit. -/
abbrev Handler := Visit → Action Verdict

/-- The handler that finishes a node with the value of an action. -/
def Handler.leaf (value : Visit → Action Json) : Handler := fun v => do
  pure (.finish (← value v))

end Specimen
