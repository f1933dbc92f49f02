import Specimen.Json.Basic
/-!
# Options of a generation

Options are read from an object by name or from a list by position; those that are not given have
their defaults.
-/

namespace Specimen

structure Options where
  /-- The depth at which nodes are cut off. -/
  maxDepth : Nat := 20
  /-- How many nodes may be queued for one value. -/
  maxSize : Option Nat := none
  /-- The locales of fake data; without any there is none. -/
  locales : List String := []
  /-- Where the draws start. -/
  seed : Option Nat := none
  deriving DecidableEq, Repr

namespace Options

/-- A number that may be null. -/
def optional : Json → Option (Option Nat)
  | .null => some none
  | v => v.nat64?.map some

def texts? (v : Json) : Option (List String) := v.arr?.bind fun items => items.mapM Json.str?

/-- Reads one option; a name that is no option is let pass. -/
def assign (o : Options) (name : String) (v : Json) : Option Options :=
  match name with
  | "max_depth" => v.nat64?.map fun n => { o with maxDepth := n }
  | "max_size" => (optional v).map fun n => { o with maxSize := n }
  | "locales" => (texts? v).map fun ls => { o with locales := ls }
  | "seed" => (optional v).map fun n => { o with seed := n }
  | _ => some o

/-- The names of the options, in their order. -/
def names : List String := ["max_depth", "max_size", "locales", "seed"]

/-- The options of a list; what goes beyond the last one is let pass. -/
def ofList? (items : List Json) : Option Options :=
  (names.zip items).foldlM (fun o (name, v) => o.assign name v) {}

/-- The options of a JSON value. -/
def ofJson? : Json → Option Options
  | .obj fields => fields.foldlM (fun o (name, v) => o.assign name v) {}
  | .arr items => if items.length ≤ names.length then ofList? items else none
  | _ => none

end Options

end Specimen
