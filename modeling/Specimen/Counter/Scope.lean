import Specimen.Table
/-!
# Counter scopes

A scope counts from zero for each pattern apart.
-/

namespace Specimen

/-- The next counter of each pattern that has been used. -/
structure Scope where
  counters : Table Nat := []

namespace Scope

/-- The current counter of a pattern, and the scope in which it has advanced. -/
def next (s : Scope) (pattern : String) : Nat × Scope :=
  ((Table.get? s.counters pattern).getD 0, ⟨Table.increment s.counters pattern⟩)

end Scope

end Specimen
