import Specimen.Json.Basic
/-!
# Tables of a configuration text

A table of a TOML text holds values, tables and lists of tables by name. A table can be defined
only once, by its header or by dotted keys, so each remembers how it came about; `assign`,
`openTable` and `openItem` refuse whatever would define a name a second time.
-/

namespace Specimen.Toml

/-- How a table came about. -/
inductive Origin where
  /-- It was named on the way to another one. -/
  | implied
  /-- It was named by a dotted key. -/
  | dotted
  | header
  deriving DecidableEq, Repr

inductive Item where
  | value (v : Json)
  | table (origin : Origin) (entries : List (String × Item))
  /-- A list of tables, the latest first. -/
  | tables (latest : List (String × Item)) (before : List (List (String × Item)))

abbrev Entries := List (String × Item)

namespace Item

mutual

/-- The item as a JSON value. -/
def toJson : Item → Json
  | .value v => v
  | .table _ entries => Json.ofFields (fieldsOf entries)
  | .tables latest before =>
    .arr ((Json.ofFields (fieldsOf latest) :: objectsOf before).reverse)

def fieldsOf : List (String × Item) → List (String × Json)
  | [] => []
  | (name, item) :: rest => (name, toJson item) :: fieldsOf rest

def objectsOf : List (List (String × Item)) → List Json
  | [] => []
  | entries :: rest => Json.ofFields (fieldsOf entries) :: objectsOf rest

end

end Item

namespace Entries

/-- Puts an item in the place of the one with its name, or at the end. -/
def put (name : String) (item : Item) : Entries → Entries
  | [] => [(name, item)]
  | (k, old) :: rest => if k = name then (k, item) :: rest else (k, old) :: put name item rest

/--
Edits the table that a path leads to, and makes the tables that are missing on the way. Dotted
keys do not lead into a table that has a header.
-/
def edit (isDotted : Bool) (change : Origin → Entries → Option Entries) :
    List String → Origin → Entries → Option Entries
  | [], origin, es => change origin es
  | name :: path, _, es =>
    match es.lookup name with
    | none => do
      let origin := if isDotted then Origin.dotted else .implied
      let inner ← edit isDotted change path origin []
      pure (put name (.table origin inner) es)
    | some (.value _) => none
    | some (.tables latest before) => do
      let inner ← edit isDotted change path .header latest
      pure (put name (.tables inner before) es)
    | some (.table origin inner) =>
      if isDotted ∧ origin = .header then none
      else do
        let inner ← edit isDotted change path origin inner
        pure (put name (.table origin inner) es)

/-- Gives a name its value below a table; the name must be new. -/
def assign (path : List String) (name : String) (v : Json) (es : Entries) : Option Entries :=
  edit true (fun origin inner =>
    if (origin = .dotted ↔ path = []) ∨ (inner.lookup name).isSome then none
    else some (put name (.value v) inner)) path .header es

/-- Assigns below the table that a header names. -/
def assignIn (header path : List String) (name : String) (v : Json) (es : Entries) :
    Option Entries :=
  edit false (fun _ inner => assign path name v inner) header .header es

/-- Defines a table by its header. -/
def openTable (path : List String) (name : String) (es : Entries) : Option Entries :=
  edit false (fun _ inner =>
    match inner.lookup name with
    | none => some (put name (.table .header []) inner)
    | some (.table .implied old) => some (put name (.table .header old) inner)
    | some _ => none) path .header es

/-- Adds a table to a list of tables. -/
def openItem (path : List String) (name : String) (es : Entries) : Option Entries :=
  edit false (fun _ inner =>
    match inner.lookup name with
    | none => some (put name (.tables [] []) inner)
    | some (.tables latest before) => some (put name (.tables [] (latest :: before)) inner)
    | some _ => none) path .header es

end Entries

end Specimen.Toml
