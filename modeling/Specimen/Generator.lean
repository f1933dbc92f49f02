import Specimen.Engine.Basic
import Specimen.Json.Printer
import Specimen.Options
import Specimen.Spec.Reader
/-!
# Generators

A generator makes one value after the other from a description. Its source and the patterns it
has read go on from value to value; counters and the report start afresh.
-/

namespace Specimen

open Specimen.Random Regex

structure Generator where
  spec : Spec
  options : Options
  registry : Registry
  handlers : Handlers
  providers : Providers
  source : Source
  synthesizer : Synthesizer

namespace Generator

/-- The generator of a description in JSON. Options without a seed start at `seed`. -/
def ofJson (providers : Providers) (spec : Json) (options : Options) (seed : Nat) : Generator :=
  let spec := Spec.ofJson spec
  { spec
    options
    registry := Registry.build spec
    handlers := {}
    providers
    source := Source.seeded (UInt64.ofNat (options.seed.getD seed))
    synthesizer := {} }

/-- Registers a handler for a kind and a method. -/
def register (g : Generator) (kind : String) (method : Option String) (h : Handler) :
    Generator :=
  { g with handlers := g.handlers.register (.ofNames (some kind) method) h }

def engine (g : Generator) : Engine where
  registry := g.registry
  handlers := g.handlers
  providers := g.providers
  maxDepth := g.options.maxDepth
  maxSize := g.options.maxSize

/-- The value and the report of a generation of at most `fuel`
visits, and the generator after. -/
def generateWithin (fuel : Nat) (g : Generator) : Option ((Json × Report) × Generator) :=
  (g.engine.run fuel (Run.start g.spec g.source g.synthesizer)).map fun r =>
    ((r.value, r.report), { g with source := r.source, synthesizer := r.synthesizer })

/-- More visits than any generation is given time for. -/
def visitLimit : Nat := 0x4000000000000000

/-- The next value, with the report about it. -/
def generate : StateT Generator Option (Json × Report) := generateWithin visitLimit

/-- The next value as a text, on several lines or on one. -/
def generateText (onLines : Bool) : StateT Generator Option String := do
  let (v, _) ← generate
  pure (if onLines then v.pretty else v.compact)

/-- The next so many texts, up to the first call that does not return, and the
generator after, if they all do. -/
def generateTexts (onLines : Bool) : Nat → Generator → List String × Option Generator
  | 0, g => ([], some g)
  | n + 1, g =>
    match generateText onLines g with
    | none => ([], none)
    | some (text, g) =>
      let (texts, after) := generateTexts onLines n g
      (text :: texts, after)

end Generator

end Specimen
