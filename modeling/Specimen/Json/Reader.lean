import Specimen.Json.Token
/-!
# Reading JSON text

The tokens are read by a machine with a stack of the containers that are open, so text of any
nesting is read in one pass; `depthLimit` bounds the stack.
-/

namespace Specimen.Json

/-- A container whose closing bracket is still to come; items are kept in reverse. -/
inductive Frame where
  | arr (items : List Json)
  | obj (fields : List (String × Json))
  /-- Inside an object, after a name. -/
  | field (fields : List (String × Json)) (name : String)
  deriving Inhabited

/-- What the next token may be. -/
inductive Expect where
  | value
  /-- A value, or the end of the array just opened. -/
  | valueOrClose
  /-- A name, or the end of the object just opened. -/
  | nameOrClose
  | name
  | colon
  /-- A comma or the end of the container. -/
  | commaOrClose
  /-- Nothing more: the value is complete. -/
  | finish (v : Json)
  deriving Inhabited

structure Machine where
  depthLimit : Nat
  stack : List Frame := []
  depth : Nat := 0
  expect : Expect := .value

namespace Machine

/-- Hands a complete value to the innermost open container. -/
def accept (m : Machine) (v : Json) : Option Machine :=
  match m.stack with
  | [] => some { m with expect := .finish v }
  | .arr items :: rest =>
    some { m with stack := .arr (v :: items) :: rest, expect := .commaOrClose }
  | .field fields name :: rest =>
    some { m with stack := .obj ((name, v) :: fields) :: rest, expect := .commaOrClose }
  | .obj _ :: _ => none

/-- Opens a container, unless the limit is reached. -/
def enter (m : Machine) (f : Frame) (e : Expect) : Option Machine :=
  if m.depth < m.depthLimit then
    some { m with stack := f :: m.stack, depth := m.depth + 1, expect := e }
  else none

/-- Closes the innermost container, which must be of the right kind. -/
def leave (m : Machine) (isArray : Bool) : Option Machine :=
  match m.stack with
  | .arr items :: rest =>
    if isArray then { m with stack := rest, depth := m.depth - 1 }.accept (.arr items.reverse)
    else none
  | .obj fields :: rest =>
    if isArray then none
    else { m with stack := rest, depth := m.depth - 1 }.accept (ofFields fields.reverse)
  | _ => none

def beginValue (m : Machine) : Token → Option Machine
  | .openArray => m.enter (.arr []) .valueOrClose
  | .openObject => m.enter (.obj []) .nameOrClose
  | .scalar v => m.accept v
  | _ => none

def nameField (m : Machine) (name : String) : Option Machine :=
  match m.stack with
  | .obj fields :: rest =>
    some { m with stack := .field fields name :: rest, expect := .colon }
  | _ => none

def step (m : Machine) (t : Token) : Option Machine :=
  match m.expect, t with
  | .value, t => m.beginValue t
  | .valueOrClose, .closeArray => m.leave true
  | .valueOrClose, t => m.beginValue t
  | .nameOrClose, .closeObject => m.leave false
  | .nameOrClose, .scalar (.str name) => m.nameField name
  | .name, .scalar (.str name) => m.nameField name
  | .colon, .colon => some { m with expect := .value }
  | .commaOrClose, .closeArray => m.leave true
  | .commaOrClose, .closeObject => m.leave false
  | .commaOrClose, .comma =>
    match m.stack with
    | .arr _ :: _ => some { m with expect := .value }
    | .obj _ :: _ => some { m with expect := .name }
    | _ => none
  | _, _ => none

end Machine

/-- Reads a text that holds one value nested at most `depthLimit` containers deep. -/
def read? (text : String) (depthLimit : Nat) : Option Json :=
  match tokens? text with
  | none => none
  | some ts =>
    match ts.foldlM Machine.step { depthLimit := depthLimit } with
    | some ⟨_, _, _, .finish v⟩ => some v
    | _ => none

end Specimen.Json
