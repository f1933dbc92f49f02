import Mathlib
import Specimen.Proofs.Command.Settings
/-!
# What the command prints

The command makes one generator from the document and the options in force and prints the values
of its first calls, up to one that does not end, or it fails and prints nothing. So more values
with the same seed only go on where fewer end.
-/

namespace Specimen

namespace Generator

/-- The value of a call after `i` other calls. -/
def nth : Nat → Generator → Option Json
  | 0, g => (generate g).map fun r => r.1.1
  | i + 1, g => (generate g).bind fun r => nth i r.2

/-- The first calls of a generator end, with these values. -/
def Makes (g : Generator) (values : List Json) : Prop :=
  ∀ i < values.length, nth i g = values[i]?

variable {g g' : Generator} {v : Json} {values values' : List Json}

end Generator

namespace Command

variable {provide : List String → Providers} {files : Files} {seed seed' : Nat}
  {args args' : List String} {a : Arguments} {o : Options} {spec : Json} {values : List Json}

/-- The text of a value. -/
def Arguments.render (a : Arguments) (v : Json) : String :=
  if a.isCompact then v.compact else v.pretty

/-- The generator that the command makes, with what provides data for the locales in force. -/
def generator (provide : List String → Providers) (a : Arguments) (o : Options) (spec : Json)
    (seed : Nat) : Generator :=
  .ofJson (provide (a.override o).locales) spec (a.override o) seed

/-- The ways in which a run can end. -/
inductive Ends (provide : List String → Providers) (files : Files) (seed : Nat) (a : Arguments) :
    String × Ending → Prop
  | config {e : Error} (h : configured files a = .error e) :
      Ends provide files seed a ("", .failed e)
  | document {o : Options} {e : Document.Error} (hconfig : configured files a = .ok o)
      (h : Document.read a.document (files a.document) = .error e) :
      Ends provide files seed a ("", .failed (.document e))
  | printed {o : Options} {spec : Json} {values : List Json}
      (hconfig : configured files a = .ok o)
      (h : Document.read a.document (files a.document) = .ok spec)
      (hmakes : (generator provide a o spec seed).Makes values)
      (hlength : values.length = a.times) :
      Ends provide files seed a (printed (values.map a.render), .success)
  | stopped {o : Options} {spec : Json} {values : List Json}
      (hconfig : configured files a = .ok o)
      (h : Document.read a.document (files a.document) = .ok spec)
      (hmakes : (generator provide a o spec seed).Makes values) (hlt : values.length < a.times)
      (hstop : (generator provide a o spec seed).nth values.length = none) :
      Ends provide files seed a (printed (values.map a.render), .stopped)

section Run

variable (h : Arguments.read args = .generate a)

include h

end Run

end Command

end Specimen
