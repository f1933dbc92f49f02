import Specimen.Json.Basic
import Specimen.Decimal.Integer
/-!
# Parameters

The parameters of a description are a list, an object or a single value. `Params.bind` gives them
the names that a handler declares: a list by position, an object by name, a single value to the
first name. Null counts as absent. Two more forms are read here: a bare list of values, and a
call of a named function with arguments.
-/

namespace Specimen

namespace Params

/-- What a parameter may be. An integer may be written as a float without a fraction. -/
inductive Kind where
  | any
  | int
  | float
  | string
  deriving DecidableEq, Repr

/-- A declared parameter. -/
structure Decl where
  key : String
  kind : Kind
  required : Bool := false

/-- Why parameters cannot be read. -/
inductive Error where
  | tooMany (limit given : Nat)
  | unknown (key : String)
  | takesNone
  | missing (key : String)
  | invalid (key : String)
  | notList (key : String)
  | listRequired (key : String)
  | nameRequired (key : String)
  deriving DecidableEq, Repr

def Error.message : Error → String
  | .tooMany limit given => s!"expected at most {limit} positional params, got {given}"
  | .unknown key => s!"unknown param '{key}'"
  | .takesNone => "takes no params"
  | .missing key => s!"missing required param '{key}'"
  | .invalid key => s!"invalid value for param '{key}'"
  | .notList key => s!"param '{key}' must be a list"
  | .listRequired key => s!"named params require '{key}'"
  | .nameRequired key => s!"requires a leading '{key}' string"

/-- The signed 64-bit integer that a number equals; fractions and larger numbers have none. -/
def integer? : Json → Option Int
  | .int n => if -int64Limit ≤ n ∧ n < int64Limit then some n else none
  | .float x => (Decimal.integerOf? x).filter fun n => n.natAbs < int64Limit
  | _ => none

/-- Whether a value fits a kind. -/
def Kind.admits (k : Kind) (v : Json) : Bool :=
  match k with
  | .any => true
  | .int => (integer? v).isSome
  | .float => v.float?.isSome
  | .string => v.str?.isSome

/-- Values bound to declared names, in the order of binding. -/
structure Bound where
  values : List (String × Json) := []

namespace Bound

/-- The first value bound to a name. -/
def get? (b : Bound) (key : String) : Option Json := b.values.lookup key

def int? (b : Bound) (key : String) : Option Int := (b.get? key).bind integer?

def float? (b : Bound) (key : String) : Option Float := (b.get? key).bind Json.float?

def str? (b : Bound) (key : String) : Option String := (b.get? key).bind Json.str?

/-- Binds a value to a declared name, if it fits; null binds nothing. -/
def insert (b : Bound) (d : Decl) (v : Json) : Except Error Bound :=
  if v.isNull then .ok b
  else if d.kind.admits v then .ok ⟨b.values ++ [(d.key, v)]⟩
  else .error (.invalid d.key)

end Bound

/-- Binds a list by position. -/
def bindList : Bound → List Decl → List Json → Except Error Bound
  | b, d :: decls, v :: values => do bindList (← b.insert d v) decls values
  | b, _, _ => .ok b

/-- Binds an object by name, in the order of its fields. -/
def bindFields (decls : List Decl) : Bound → List (String × Json) → Except Error Bound
  | b, [] => .ok b
  | b, (key, v) :: rest =>
    match decls.find? (·.key = key) with
    | none => .error (.unknown key)
    | some d => do bindFields decls (← b.insert d v) rest

/-- The bindings of the parameters before it is known whether one is missing. -/
def bindValue (params : Option Json) (decls : List Decl) : Except Error Bound :=
  match params with
  | none | some .null => .ok {}
  | some (.arr items) =>
    if decls.length < items.length then .error (.tooMany decls.length items.length)
    else bindList {} decls items
  | some (.obj fields) => bindFields decls {} fields
  | some v =>
    match decls with
    | [] => .error .takesNone
    | d :: _ => Bound.insert {} d v

/-- Binds the parameters of a description to the declared names. -/
def bind (params : Option Json) (decls : List Decl) : Except Error Bound := do
  let b ← bindValue params decls
  match decls.find? fun d => d.required && (b.get? d.key).isNone with
  | some d => .error (.missing d.key)
  | none => .ok b

/-- A bare list of values: a list, a single value, or the list under `key` in an object. -/
def variadic (params : Option Json) (key : String) : Except Error (List Json) :=
  match params with
  | none | some .null => .ok []
  | some (.arr items) => .ok items
  | some (.obj fields) =>
    match Table.get? fields key with
    | some (.arr items) => .ok items
    | some _ => .error (.notList key)
    | none => .error (.listRequired key)
  | some v => .ok [v]

/-- The arguments in an object: absent, a list, or one value. -/
def callArguments : Option Json → List Json
  | none | some .null => []
  | some (.arr items) => items
  | some v => [v]

/-- A call: a list that begins with a name, or an object with a name and arguments. -/
def call (params : Option Json) (nameKey argsKey : String) : Except Error (String × List Json) :=
  match params with
  | some (.arr (.str name :: args)) => .ok (name, args)
  | some (.obj fields) =>
    match Table.get? fields nameKey with
    | some (.str name) => .ok (name, callArguments (Table.get? fields argsKey))
    | _ => .error (.nameRequired nameKey)
  | some (.str name) => .ok (name, [])
  | _ => .error (.nameRequired nameKey)

end Params

end Specimen
