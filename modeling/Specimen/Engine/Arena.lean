import Specimen.Handler.Basic
/-!
# Nodes

A node is a value on its way. The arena holds the nodes and the scopes of one generation; both
are named by their place in it, and neither ever goes away.
-/

namespace Specimen

abbrev NodeId := Nat

abbrev ScopeId := Nat

structure Node where
  spec : Spec
  depth : Nat
  scope : Option ScopeId
  stage : Stage := .delayed
  value : Option Json := none
  /-- The children in their order. -/
  children : List NodeId := []
  /-- How often the node went on with another description. -/
  redirects : Nat := 0

/-- The node of a child that a handler asks for. -/
def Node.ofChild (depth : Nat) (scope : Option ScopeId) : Child → Node
  | .ready v => { spec := .empty, depth, scope := none, stage := .done, value := some v }
  | .queued spec => { spec, depth, scope }

structure Arena where
  nodes : Array Node := #[]
  scopes : Array Scope := #[]

namespace Arena

def modify (a : Arena) (id : NodeId) (f : Node → Node) : Arena :=
  { a with nodes := a.nodes.modify id f }

/-- The value of a node that is through, and null before that. -/
def outcome (a : Arena) (id : NodeId) : Outcome :=
  match a.nodes[id]? with
  | some n => ⟨n.stage, Json.ofOption n.value⟩
  | none => ⟨.delayed, .null⟩

def outcomes (a : Arena) (ids : List NodeId) : List Outcome := ids.map a.outcome

/-- The value of a node goes to whoever asked for it. -/
def release (a : Arena) (id : NodeId) : Arena := a.modify id fun n => { n with value := none }

/-- Gives a node its value; the values of its children are part of it from then on. -/
def finish (a : Arena) (id : NodeId) (v : Json) : Arena :=
  let a := ((a.nodes[id]?.map (·.children)).getD []).foldl release a
  a.modify id fun n => { n with stage := .done, value := some v, children := [] }

/-- Cuts a node off. -/
def truncate (a : Arena) (id : NodeId) : Arena :=
  a.modify id fun n => { n with stage := .truncated, value := some .null }

/-- Goes on with another description. -/
def redirect (a : Arena) (id : NodeId) (s : Spec) : Arena :=
  a.modify id fun n => { n with spec := s, redirects := n.redirects + 1 }

/-- Adds children to a node, which waits for them. -/
def adopt (a : Arena) (id : NodeId) (children : List Node) : Arena :=
  let ids := List.range' a.nodes.size children.length
  let a := a.modify id fun n => { n with stage := .toBuild, children := n.children ++ ids }
  { a with nodes := a.nodes ++ children.toArray }

/-- The scope that children of a node count in. -/
def place (a : Arena) (parent : Option ScopeId) : Placement → Arena × Option ScopeId
  | .fresh =>
    let id := a.scopes.size
    ({ a with scopes := a.scopes.push {} }, some id)
  | .inherited => (a, parent)
  | .outside => (a, none)

def scope? (a : Arena) (id : Option ScopeId) : Option Scope := id.bind fun i => a.scopes[i]?

def setScope (a : Arena) (id : Option ScopeId) (s : Option Scope) : Arena :=
  match id, s with
  | some i, some s => { a with scopes := a.scopes.modify i fun _ => s }
  | _, _ => a

end Arena

end Specimen
