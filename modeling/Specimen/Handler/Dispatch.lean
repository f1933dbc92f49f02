import Specimen.Handler.Leaf
import Specimen.Handler.Record
import Specimen.Handler.Sequence
/-!
# Which handler makes a node

The kind and the method of a description name its handler. Some kinds have a second name.
Handlers that are registered come before the built-in ones.
-/

namespace Specimen

/-- The kind that a name stands for. -/
def canonicalKind : String → String
  | "number" => "integer"
  | "constant" => "fixed"
  | "boolean" => "bool"
  | other => other

/-- The built-in handlers. -/
inductive Builtin where
  | fixed
  | boolean
  | integer
  | pick
  | distribution
  | text
  | regex
  | enumeration
  | fake
  | record
  | array
  | choice
  deriving DecidableEq, Repr

/-- The built-in handler of a kind and a method. -/
def Builtin.ofName? (kind : String) (method : Option String) : Option Builtin :=
  match kind, method with
  | "fixed", none | "fixed", some "constant" => some .fixed
  | "bool", none => some .boolean
  | "integer", none | "integer", some "uniform" => some .integer
  | "integer", some "choice" | "string", some "choice" => some .pick
  | "integer", some "numpy" | "integer", some "distribution" => some .distribution
  | "string", none => some .text
  | "string", some "regex" => some .regex
  | "string", some "enum" => some .enumeration
  | "string", some "fake" => some .fake
  | "record", none => some .record
  | "array", none => some .array
  | "choice", none => some .choice
  | _, _ => none

/-- What a built-in handler does. -/
def Builtin.handler : Builtin → Handler
  | fixed => .leaf Leaf.fixed
  | boolean => .leaf Leaf.boolean
  | integer => .leaf Leaf.integer
  | pick => .leaf Leaf.pick
  | distribution => .leaf Leaf.distribution
  | text => .leaf Leaf.text
  | regex => .leaf Leaf.regex
  | enumeration => .leaf Leaf.enumeration
  | fake => .leaf Leaf.fake
  | record => Record.handler
  | array => Sequence.handler
  | choice => Choice.handler

/-- What a handler is registered under. -/
structure HandlerKey where
  kind : Option String
  method : Option String
  deriving DecidableEq, Repr

namespace HandlerKey

/-- The key of a kind and a method. -/
def ofNames (kind method : Option String) : HandlerKey := ⟨kind.map canonicalKind, method⟩

def ofSpec (s : Spec) : HandlerKey := ofNames s.kind s.method

/-- The key as a text, with a question mark for a kind that is absent. -/
def label (k : HandlerKey) : String :=
  match k.method with
  | none => k.kind.getD "?"
  | some method => k.kind.getD "?" ++ "/" ++ method

end HandlerKey

/-- The handlers that have been registered, each key once. -/
structure Handlers where
  registered : List (HandlerKey × Handler) := []

namespace Handlers

/-- Registers a handler; one that had the key before goes. -/
def register (hs : Handlers) (key : HandlerKey) (h : Handler) : Handlers :=
  ⟨(key, h) :: hs.registered.filter (·.1 ≠ key)⟩

/-- The handler of a key: a registered one, else the built-in one. -/
def get? (hs : Handlers) (key : HandlerKey) : Option Handler :=
  match hs.registered.lookup key with
  | some h => some h
  | none => (key.kind.bind fun kind => Builtin.ofName? kind key.method).map Builtin.handler

/-- The labels of the registered handlers, in ascending order. -/
def labels (hs : Handlers) : List String := (hs.registered.map (·.1.label)).mergeSort (· ≤ ·)

end Handlers

end Specimen
