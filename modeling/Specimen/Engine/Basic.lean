import Specimen.Engine.Arena
import Specimen.Engine.Report
import Specimen.Handler.Dispatch
import Specimen.Spec.Registry
/-!
# Generation

A generation visits the nodes on a stack until none is left. A visit resolves the description of
a node, cuts the node off if it lies too deep, and asks the handler; the verdict either finishes
the node or puts it back on the stack, below the children it waits for. `Engine.turn` is one
visit and `Engine.run` as many as there are.
-/

namespace Specimen

open Specimen.Random Regex

/-- What stays the same during a generation. -/
structure Engine where
  registry : Registry
  handlers : Handlers
  providers : Providers
  /-- The depth at which nodes are cut off, where a description says nothing else. -/
  maxDepth : Nat
  /-- How many nodes may be queued. -/
  maxSize : Option Nat

/-- A generation on its way. -/
structure Run where
  arena : Arena
  /-- The nodes to visit, the next one first. -/
  stack : List NodeId
  report : Report
  source : Source
  synthesizer : Synthesizer

namespace Run

/-- The start: the root is the only node. -/
def start (root : Spec) (source : Source) (synthesizer : Synthesizer) : Run where
  arena := { nodes := #[{ spec := root, depth := 0, scope := none }] }
  stack := [0]
  report := { nodesQueued := 1 }
  source
  synthesizer

/-- Finishes a node. -/
def finish (r : Run) (id : NodeId) (v : Json) : Run := { r with arena := r.arena.finish id v }

/-- Finishes a node whose handler failed. -/
def fail (r : Run) (id : NodeId) : Run :=
  { r with arena := r.arena.finish id .null, report := r.report.countFailure }

/-- The value of the root. -/
def value (r : Run) : Json := (r.arena.outcome 0).value

end Run

/-- The children that there is room for, and how many of the others there are. -/
def accommodate : Option Nat → List Child → List Child × Nat
  | none, children => (children, 0)
  | some _, [] => ([], 0)
  | some room, .ready v :: rest =>
    let (kept, cut) := accommodate (some room) rest
    (.ready v :: kept, cut)
  | some 0, .queued _ :: rest =>
    let (kept, cut) := accommodate (some 0) rest
    (kept, cut + 1)
  | some (room + 1), .queued s :: rest =>
    let (kept, cut) := accommodate (some room) rest
    (.queued s :: kept, cut)

/-- The places, from `start` on, of the children that have to be made. -/
def queuedIds : Nat → List Child → List NodeId
  | _, [] => []
  | start, .ready _ :: rest => queuedIds (start + 1) rest
  | start, .queued _ :: rest => start :: queuedIds (start + 1) rest

/-- How often a node may go on with another description. -/
def maxRedirects : Nat := 64

namespace Engine

/-- How many more nodes may be queued. -/
def room (e : Engine) (r : Report) : Option Nat := e.maxSize.map (· - r.nodesQueued)

/--
Makes the children that a node asks for and puts the node back below them. A node that waited for
children before must ask for at least one that has to be made.
-/
def expand (r : Run) (id : NodeId) (node : Node) (room : Option Nat) (placement : Placement)
    (children : List Child) : Run :=
  let (kept, cut) := accommodate room children
  let r := { r with report := r.report.countDropped (UInt64.ofNat cut) }
  let queued := queuedIds r.arena.nodes.size kept
  let (arena, scope) := r.arena.place node.scope placement
  let r := { r with arena := arena.adopt id (kept.map (Node.ofChild (node.depth + 1) scope)) }
  if node.stage = .toBuild ∧ queued = [] then r.fail id
  else
    { r with
      stack := queued ++ id :: r.stack
      report := r.report.countQueued queued.length }

/-- Does what a handler decided about a node. -/
def settle (r : Run) (id : NodeId) (node : Node) (room : Option Nat) : Verdict → Run
  | .finish v => r.finish id v
  | .pending => r.fail id
  | .redirect s =>
    if node.stage = .toBuild ∨ maxRedirects ≤ node.redirects then r.fail id
    else { r with arena := r.arena.redirect id s, stack := id :: r.stack }
  | .expand placement children => expand r id node room placement children

/-- What a handler sees of a node. -/
def view (e : Engine) (r : Run) (node : Node) : Visit where
  spec := node.spec
  stage := node.stage
  depth := node.depth
  inScope := node.scope.isSome
  room := e.room r.report
  children := r.arena.outcomes node.children
  providers := e.providers

/-- Asks a handler about a node. -/
def consult (e : Engine) (h : Handler) (r : Run) (id : NodeId) (node : Node) : Option Run :=
  let room := e.room r.report
  match h (e.view r node) ⟨r.source, r.synthesizer, r.arena.scope? node.scope, 0⟩ with
  | none => none
  | some (answer, supply) =>
    let r : Run :=
      { r with
        arena := r.arena.setScope node.scope supply.scope
        report := r.report.countDropped supply.dropped
        source := supply.source
        synthesizer := supply.synthesizer }
    match answer with
    | .error _ => some (r.fail id)
    | .ok verdict => some (settle r id node room verdict)

/-- Whether a node lies too deep. -/
def isTooDeep (e : Engine) (node : Node) : Bool :=
  node.spec.maxDepth.getD e.maxDepth ≤ node.depth

/-- Finds the handler of a node and asks it. -/
def dispatch (e : Engine) (r : Run) (id : NodeId) (node : Node) : Option Run :=
  let key := HandlerKey.ofSpec node.spec
  match e.handlers.get? key with
  | none =>
    some { r with arena := r.arena.finish id .null, report := r.report.countUnknown }
  | some h =>
    if node.stage = .toBuild then e.consult h r id node
    else e.consult h { r with report := r.report.countUsage key.label } id node

/-- Visits a node that has been taken from the stack. -/
def visit (e : Engine) (r : Run) (id : NodeId) (node : Node) : Option Run :=
  if node.stage = .toBuild then e.dispatch r id node
  else
    let node := { node with spec := e.registry.resolve node.spec }
    let r := { r with arena := r.arena.modify id fun _ => node }
    if e.isTooDeep node then
      some { r with arena := r.arena.truncate id, report := r.report.countTruncated }
    else e.dispatch r id node

/-- Visits the next node. Nothing comes of it if the source ends. -/
def turn (e : Engine) (r : Run) : Option Run :=
  match r.stack with
  | [] => some r
  | id :: stack =>
    match r.arena.nodes[id]? with
    | none => some { r with stack }
    | some node => e.visit { r with stack, report := r.report.countStep } id node

/-- Visits nodes until none is left, at most `fuel` of them. -/
def run (e : Engine) : Nat → Run → Option Run
  | fuel, r =>
    match r.stack with
    | [] => some r
    | _ :: _ =>
      match fuel with
      | 0 => none
      | fuel + 1 => (e.turn r).bind (e.run fuel)

end Engine

end Specimen
