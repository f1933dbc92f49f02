/-!
# Tables by name

A table is a list of pairs in ascending order of their names, each name once. `Table.insert`
keeps the order and lets a later value replace an earlier one.
-/

namespace Specimen

/-- Values by name. -/
abbrev Table (α : Type) := List (String × α)

namespace Table

variable {α : Type}

/-- Puts a value at its place in the ascending order; an earlier value of the same name goes. -/
def insert (t : Table α) (name : String) (value : α) : Table α :=
  match t with
  | [] => [(name, value)]
  | (k, v) :: rest =>
    if name < k then (name, value) :: (k, v) :: rest
    else if name = k then (name, value) :: rest
    else (k, v) :: insert rest name value

/-- The table of some pairs; of two values with one name the later counts. -/
def ofList (pairs : List (String × α)) : Table α :=
  pairs.foldl (fun t (k, v) => insert t k v) []

/-- The value of a name. -/
def get? (t : Table α) (name : String) : Option α :=
  match t with
  | [] => none
  | (k, v) :: rest => if k = name then some v else get? rest name

def names (t : Table α) : List String := t.map (·.1)

/-- Adds one to the count of a name, which starts at zero. -/
def increment (t : Table Nat) (name : String) : Table Nat :=
  insert t name ((get? t name).getD 0 + 1)

end Table

end Specimen
