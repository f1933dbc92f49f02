import Specimen.Json.Basic
/-!
# Descriptions of data

A `Spec` says how to make a value: its kind and method choose a handler, the other fields are the
handler's material. A description holds others: the elements of an array, the names and values of
a record, the options of a choice. It can store itself under a name and load another one by name.
-/

namespace Specimen

/-- The name of a record entry, written out or generated by a description. -/
inductive KeyName (σ : Type) where
  | fixed (text : String)
  | generated (spec : σ)

/-- When an entry is present. -/
inductive Chance where
  | always
  /-- With a probability in percent. -/
  | percent (p : Float)
  /-- When an entry of this name came before. -/
  | ifSeen (name : String)
  /-- When no entry of this name came before. -/
  | ifNotSeen (name : String)

/-- One key declaration of a record: up to `times` entries. -/
structure KeyDecl (σ : Type) where
  name : KeyName σ
  value : σ
  times : Nat
  chance : Chance

/-- One option of a choice, with its weight in percent if it has one of its own. -/
structure ChoiceOption (σ : Type) where
  chance : Option Float
  spec : σ

/-- A description. The empty one, with every field at its default, makes null. -/
structure Spec where
  kind : Option String := none
  method : Option String := none
  parameters : Option Json := none
  value : Option Json := none
  pattern : Option String := none
  keys : List (KeyDecl Spec) := []
  typeElements : Option Spec := none
  minLength : Option Int := none
  maxLength : Option Int := none
  options : List (ChoiceOption Spec) := []
  maxDepth : Option Nat := none
  storeRef : Option String := none
  loadRef : Option String := none
  /-- The fields that no built-in handler reads. -/
  extra : Table Json := []

instance : Inhabited Spec := ⟨{}⟩

namespace KeyName

variable {σ : Type}

/-- The description that makes the name, if there is one. -/
def specs : KeyName σ → List σ
  | .fixed _ => []
  | .generated s => [s]

end KeyName

namespace KeyDecl

variable {σ : Type}

/-- The descriptions of a declaration, the name's first. -/
def specs (k : KeyDecl σ) : List σ := k.name.specs ++ [k.value]

/-- How many nodes one entry adds to the queue: its value, and a name that is generated. -/
def need (k : KeyDecl σ) : Nat :=
  match k.name with
  | .fixed _ => 1
  | .generated _ => 2

end KeyDecl

namespace Spec

def empty : Spec := {}

/-- Whether every field has its default. -/
def isEmpty (s : Spec) : Bool :=
  s.kind.isNone && s.method.isNone && s.parameters.isNone && s.value.isNone &&
    s.pattern.isNone &&
    s.keys.isEmpty && s.typeElements.isNone && s.minLength.isNone && s.maxLength.isNone &&
    s.options.isEmpty && s.maxDepth.isNone && s.storeRef.isNone && s.loadRef.isNone &&
    s.extra.isEmpty

/-- The descriptions directly inside: elements, then keys, then options. -/
def children (s : Spec) : List Spec :=
  s.typeElements.toList ++ s.keys.flatMap KeyDecl.specs ++ s.options.map (·.spec)

mutual

/-- The description and all inside it, each before its children. -/
def preorder : Spec → List Spec
  | ⟨kind, method, parameters, value, pattern, keys, typeElements, minLength, maxLength, options,
      maxDepth, storeRef, loadRef, extra⟩ =>
    ⟨kind, method, parameters, value, pattern, keys, typeElements, minLength, maxLength, options,
      maxDepth, storeRef, loadRef, extra⟩ ::
      (preorderElements typeElements ++ preorderKeys keys ++ preorderOptions options)

def preorderElements : Option Spec → List Spec
  | none => []
  | some s => preorder s

def preorderKeys : List (KeyDecl Spec) → List Spec
  | [] => []
  | ⟨.fixed _, value, _, _⟩ :: rest => preorder value ++ preorderKeys rest
  | ⟨.generated name, value, _, _⟩ :: rest =>
    preorder name ++ (preorder value ++ preorderKeys rest)

def preorderOptions : List (ChoiceOption Spec) → List Spec
  | [] => []
  | ⟨_, s⟩ :: rest => preorder s ++ preorderOptions rest

end

theorem preorderElements_eq (o : Option Spec) :
    preorderElements o = o.toList.flatMap preorder := by
  cases o with
  | none => rfl
  | some s => simp [preorderElements]

theorem preorderKeys_eq (keys : List (KeyDecl Spec)) :
    preorderKeys keys = (keys.flatMap KeyDecl.specs).flatMap preorder := by
  induction keys with
  | nil => rfl
  | cons k keys ih =>
      obtain ⟨name, value, times, chance⟩ := k
      cases name <;> simp [preorderKeys, KeyDecl.specs, KeyName.specs, ih]

theorem preorderOptions_eq (options : List (ChoiceOption Spec)) :
    preorderOptions options = (options.map (·.spec)).flatMap preorder := by
  induction options with
  | nil => rfl
  | cons o options ih => simp [preorderOptions, ih]

theorem preorder_eq (s : Spec) : s.preorder = s :: s.children.flatMap preorder := by
  cases s
  rw [preorder, preorderElements_eq, preorderKeys_eq, preorderOptions_eq, children]
  simp only [List.flatMap_append, List.append_assoc]

/-- A walk with a stack of descriptions, the top first: the one on top is taken, and
its children go onto the stack, the last one first. The descriptions are listed in
the order they are taken in. -/
def walk : List Spec → List Spec
  | [] => []
  | s :: stack => s :: walk (s.children.foldr (· :: ·) stack)
termination_by stack => (stack.flatMap preorder).length
decreasing_by
  rw [List.foldr_cons_eq_append', List.flatMap_cons, preorder_eq s]
  simp

end Spec

end Specimen
