import Specimen.Spec.Basic
/-!
# Named descriptions

A registry binds the names that descriptions store themselves under. `Registry.resolve` follows a
chain of loads to a description that loads nothing; a chain that meets an unknown name, or never
ends, leads to the empty description.
-/

namespace Specimen

/-- Descriptions by the names they are stored under. -/
structure Registry where
  entries : Table Spec := []

namespace Registry

/-- Binds every description inside `root` that stores itself; the last of a name counts. -/
def build (root : Spec) : Registry :=
  ⟨Table.ofList ((Spec.walk [root]).filterMap fun s => s.storeRef.map (·, s))⟩

def get? (r : Registry) (name : String) : Option Spec := Table.get? r.entries name

def size (r : Registry) : Nat := r.entries.length

/-- The bound names, in ascending order. -/
def names (r : Registry) : List String := Table.names r.entries

/-- Follows at most `hops` loads; a chain that is longer leads to the empty description. -/
def follow (r : Registry) : Nat → Spec → Spec
  | hops, s =>
    match s.loadRef with
    | none => s
    | some name =>
      match hops, r.get? name with
      | hops + 1, some target => follow r hops target
      | _, _ => .empty

/-- The description that a chain of loads ends in. A chain that ends visits a name only once. -/
def resolve (r : Registry) (s : Spec) : Spec := r.follow (r.size + 1) s

end Registry

end Specimen
