import Specimen.Spec.Basic
/-!
# Descriptions from JSON

Every JSON value is read as a description. A field of the wrong shape counts as absent, and what
is no object is the empty description. The fields of an object are assigned one after the other;
since their names are distinct, the order makes no difference.
-/

namespace Specimen.Spec

/-- The presence rule of a key: a number is a probability, a text names another key. -/
def chanceOf : Json → Chance
  | .int n => .percent (Json.floatOfInt n)
  | .float x => .percent x
  | .str name =>
    match name.toList with
    | '!' :: rest => .ifNotSeen (String.ofList rest)
    | _ => .ifSeen name
  | _ => .always

/-- Assigns a field that holds no description. -/
def assignPlain (s : Spec) (field : String) (v : Json) : Spec :=
  match field with
  | "type" => { s with kind := v.str? }
  | "method" => { s with method := v.str? }
  | "parameters" => { s with parameters := some v }
  | "value" => { s with value := some v }
  | "pattern" => { s with pattern := v.str? }
  | "min_length" => { s with minLength := v.int64? }
  | "max_length" => { s with maxLength := v.int64? }
  | "max_depth" => { s with maxDepth := v.nat64? }
  | "store_ref" => { s with storeRef := v.str? }
  | "load_ref" => { s with loadRef := v.str? }
  | name => { s with extra := Table.insert s.extra name v }

/-- A key declaration before its fields are read: one entry, generated name and value empty. -/
def blankKey : KeyDecl Spec := ⟨.generated empty, empty, 1, .always⟩

mutual

/-- The description that a JSON value stands for. -/
def ofJson : Json → Spec
  | .obj fields => assignFields empty fields
  | _ => empty

/-- Assigns the fields of an object to a description. -/
def assignFields (s : Spec) : List (String × Json) → Spec
  | [] => s
  | (field, v) :: rest =>
    let s := match field with
      | "keys" => { s with keys := keysOf v }
      | "type_elements" => { s with typeElements := some (ofJson v) }
      | "options" => { s with options := optionsOf v }
      | name => assignPlain s name v
    assignFields s rest

/-- The key declarations of a list; items that are no objects are left out. -/
def keysOf : Json → List (KeyDecl Spec)
  | .arr items => keyItems items
  | _ => []

def keyItems : List Json → List (KeyDecl Spec)
  | [] => []
  | .obj fields :: rest => assignKey blankKey fields :: keyItems rest
  | _ :: rest => keyItems rest

/-- Assigns the fields of an object to a key declaration. -/
def assignKey (k : KeyDecl Spec) : List (String × Json) → KeyDecl Spec
  | [] => k
  | (field, v) :: rest =>
    let k := match field with
      | "name" => { k with name := nameOf v }
      | "type" => { k with value := ofJson v }
      | "repeat" => { k with times := v.nat64?.getD 0 }
      | "chance" => { k with chance := chanceOf v }
      | _ => k
    assignKey k rest

def nameOf : Json → KeyName Spec
  | .str text => .fixed text
  | .obj fields => .generated (assignFields empty fields)
  | _ => .generated empty

/-- The options of a list; an item that is no object is an option for the empty description. -/
def optionsOf : Json → List (ChoiceOption Spec)
  | .arr items => optionItems items
  | _ => []

def optionItems : List Json → List (ChoiceOption Spec)
  | [] => []
  | .obj fields :: rest => assignOption ⟨none, empty⟩ fields :: optionItems rest
  | _ :: rest => ⟨none, empty⟩ :: optionItems rest

def assignOption (o : ChoiceOption Spec) : List (String × Json) → ChoiceOption Spec
  | [] => o
  | (field, v) :: rest =>
    let o := match field with
      | "chance" => { o with chance := v.float? }
      | "type" => { o with spec := ofJson v }
      | _ => o
    assignOption o rest

end

end Specimen.Spec
