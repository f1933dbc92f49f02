import Specimen.Generator
import Specimen.Proofs.Engine.Children
/-!
# Recursive evaluation of descriptions

The value of a description as a recursion over descriptions, with no stack and no arena. A node
answers its first visit with a `Response`: its outcome, another description to go on with, or a
family of children that have to be made first. `Engine.eval` follows these answers: the children
are evaluated from left to right, one level deeper, and then put together.

What goes on from node to node is a `Progress`: the source of random words, the synthesizer, the
counter scopes and the report, in which the number of queued nodes stands.
-/

namespace Specimen

open Specimen.Random Regex

structure Progress where
  source : Source
  synthesizer : Synthesizer
  scopes : Array Scope
  report : Report

/-- The progress after a handler has acted for a node in a scope. -/
def Progress.after (p : Progress) (scope : Option ScopeId) (supply : Supply) : Progress where
  source := supply.source
  synthesizer := supply.synthesizer
  scopes := (Arena.setScope { scopes := p.scopes } scope supply.scope).scopes
  report := p.report.countDropped supply.dropped

/-- A computation that goes on from a progress; it has no result where the source ends. -/
abbrev Evaluation (α : Type) := StateT Progress Option α

/-- What a node comes to at its first visit. -/
inductive Response where
  | settled (o : Outcome)
  /-- The node goes on with another description, at the same depth and in the same scope. -/
  | again (s : Spec)
  /-- The node waits for its children, which count in a scope of their own. -/
  | family (scope : ScopeId) (children : List Child)

def Response.done (v : Json) : Response := .settled ⟨.done, v⟩

namespace Evaluation

variable {α : Type}

def count (f : Report → Report) : Evaluation Unit := fun p =>
  some ((), { p with report := f p.report })

def draw (d : Draw α) : Evaluation α := fun p =>
  (d p.source).map fun (a, source) => (a, { p with source })

/-- Runs an action for a node in a scope. -/
def act (scope : Option ScopeId) (a : Action α) : Evaluation (Except Failure α) := fun p =>
  (a ⟨p.source, p.synthesizer, scope.bind fun i => p.scopes[i]?, 0⟩).map fun (x, supply) =>
    (x, p.after scope supply)

def failed : Evaluation Response := do
  count Report.countFailure
  pure (.done .null)

/-- Queues the children, which get a fresh scope. -/
def enlist (children : List Child) : Evaluation Response := do
  count (·.countQueued (queuedCount children))
  fun p => some (.family p.scopes.size children, { p with scopes := p.scopes.push {} })

variable {β : Type}

theorem bind_eq_some {x : Evaluation α} {f : α → Evaluation β} {p q : Progress} {b : β} :
    (x >>= f) p = some (b, q) ↔ ∃ a u, x p = some (a, u) ∧ f a u = some (b, q) := by
  change (x p).bind (fun r => f r.1 r.2) = some (b, q) ↔ _
  simp [Option.bind_eq_some_iff]

@[simp] theorem pure_apply (a : α) (p : Progress) : (pure a : Evaluation α) p = some (a, p) :=
  rfl

@[simp] theorem count_bind (g : Report → Report) (f : Unit → Evaluation β) (p : Progress) :
    (count g >>= f) p = f () { p with report := g p.report } := rfl

@[simp] theorem draw_bind (d : Draw α) (f : α → Evaluation β) (p : Progress) :
    (draw d >>= f) p = (d p.source).bind fun (a, source) => f a { p with source } := by
  change ((d p.source).map _).bind _ = _
  cases d p.source <;> rfl

@[simp] theorem failed_apply (p : Progress) :
    failed p = some (.done .null, { p with report := p.report.countFailure }) := rfl

@[simp] theorem enlist_apply (children : List Child) (p : Progress) :
    enlist children p =
      some (.family p.scopes.size children,
        { p with
          scopes := p.scopes.push {}
          report := p.report.countQueued (queuedCount children) }) := rfl

/-! ## The kinds of nodes -/

def leaf (scope : Option ScopeId) (value : Action Json) : Evaluation Response := do
  match ← act scope value with
  | .ok v => pure (.done v)
  | .error _ => failed

/-- A choice becomes the option that a roll falls on, at most `maxRedirects` times in a row. -/
def choice (redirects : Nat) : List (ChoiceOption Spec) → Evaluation Response
  | [] => pure (.done .null)
  | options => do
    let roll ← draw Draw.percent
    match Choice.select (100.0 / options.length.toFloat) roll options with
    | none => pure (.done .null)
    | some s => if maxRedirects ≤ redirects then failed else pure (.again s)

/-- A record plans its entries within the room there is. -/
def record (room : Option Nat) (keys : List (KeyDecl Spec)) : Evaluation Response := do
  let plan ← draw (Record.plan keys { room })
  count (·.countDropped (UInt64.ofNat (plan.cut.getD 0)))
  if plan.entries.isEmpty then pure (.done (.obj [])) else enlist plan.children

/-- An array draws its length and keeps as many elements as there is room for. -/
def array (room : Option Nat) (spec : Spec) : Evaluation Response := do
  let (low, high) := Sequence.bounds spec
  if high < low then pure (.done (.arr []))
  else
    let length := (← draw (Draw.between low high)).toNat
    let kept := Sequence.admitted room length
    count (·.countDropped (UInt64.ofNat (length - kept)))
    if kept = 0 then pure (.done (.arr []))
    else enlist (List.replicate kept (.queued (spec.typeElements.getD .empty)))

theorem record_apply (room : Option Nat) (keys : List (KeyDecl Spec)) (p : Progress) :
    record room keys p =
      (Record.plan keys { room } p.source).bind fun (plan, source) =>
        let p := { p with
          source, report := p.report.countDropped (UInt64.ofNat (plan.cut.getD 0)) }
        if plan.entries.isEmpty then some (.done (.obj []), p) else enlist plan.children p := by
  rw [record, draw_bind]
  congr 1
  funext ⟨plan, source⟩
  simp only [count_bind]
  split <;> rfl

theorem array_of_inverted {spec : Spec} (room : Option Nat) (p : Progress)
    (h : (Sequence.bounds spec).2 < (Sequence.bounds spec).1) :
    array room spec p = some (.done (.arr []), p) := by
  simp only [array, if_pos h, pure_apply]

theorem array_of_ordered {spec : Spec} (room : Option Nat) (p : Progress)
    (h : ¬ (Sequence.bounds spec).2 < (Sequence.bounds spec).1) :
    array room spec p =
      (Draw.between (Sequence.bounds spec).1 (Sequence.bounds spec).2 p.source).bind
        fun (length, source) =>
          let kept := Sequence.admitted room length.toNat
          let p := { p with
            source, report := p.report.countDropped (UInt64.ofNat (length.toNat - kept)) }
          if kept = 0 then some (.done (.arr []), p)
          else enlist (List.replicate kept (.queued (spec.typeElements.getD .empty))) p := by
  simp only [array, if_neg h, draw_bind]
  congr 1
  funext ⟨length, source⟩
  simp only [count_bind]
  split <;> rfl

/-- The outcomes of children, evaluated from left to right. -/
def each (child : Spec → Evaluation Outcome) : List Child → Evaluation (List Outcome)
  | [] => pure []
  | .ready v :: rest => do
    let outcomes ← each child rest
    pure (⟨.done, v⟩ :: outcomes)
  | .queued s :: rest => do
    let outcome ← child s
    let outcomes ← each child rest
    pure (outcome :: outcomes)

end Evaluation

/-- The built-in handler that a description asks for. -/
def Builtin.ofSpec? (s : Spec) : Option Builtin :=
  (HandlerKey.ofSpec s).kind.bind fun kind => Builtin.ofName? kind (HandlerKey.ofSpec s).method

/-- Whether nodes of a description can have children. -/
def Spec.IsComposite (s : Spec) : Prop :=
  Builtin.ofSpec? s = some .record ∨ Builtin.ofSpec? s = some .array

/-- The value that a composite makes of what its children have come to. -/
def assemble (s : Spec) (children : List Outcome) : Json :=
  match Builtin.ofSpec? s with
  | some .record => Json.ofFields (Record.assemble children)
  | some .array => .arr (children.filterMap Sequence.item?)
  | _ => .null

namespace Engine

open Evaluation

/-- What the handler of a new node sees. -/
def firstVisit (e : Engine) (spec : Spec) (depth : Nat) (scope : Option ScopeId)
    (room : Option Nat) : Visit where
  spec
  stage := .delayed
  depth
  inScope := scope.isSome
  room
  children := []
  providers := e.providers

/-- The answer of a built-in handler for a resolved description that does not lie too deep. -/
def answer (e : Engine) (b : Builtin) (spec : Spec) (depth : Nat) (scope : Option ScopeId)
    (redirects : Nat) : Evaluation Response := fun p =>
  let visit := e.firstVisit spec depth scope (e.room p.report)
  match b with
  | .fixed => leaf scope (Leaf.fixed visit) p
  | .boolean => leaf scope (Leaf.boolean visit) p
  | .integer => leaf scope (Leaf.integer visit) p
  | .pick => leaf scope (Leaf.pick visit) p
  | .distribution => leaf scope (Leaf.distribution visit) p
  | .text => leaf scope (Leaf.text visit) p
  | .regex => leaf scope (Leaf.regex visit) p
  | .enumeration => leaf scope (Leaf.enumeration visit) p
  | .fake => leaf scope (Leaf.fake visit) p
  | .record => record visit.room spec.keys p
  | .array => array visit.room spec p
  | .choice => choice redirects spec.options p

/-- Whether a description lies too deep, its own limit going before the engine's. -/
def IsTooDeep (e : Engine) (spec : Spec) (depth : Nat) : Prop :=
  spec.maxDepth.getD e.maxDepth ≤ depth

instance (e : Engine) (spec : Spec) (depth : Nat) : Decidable (e.IsTooDeep spec depth) :=
  inferInstanceAs (Decidable (_ ≤ _))

/-- What a description comes to at the first visit: it is resolved, cut off if it lies too deep,
and otherwise its built-in handler answers. -/
def respond (e : Engine) (spec : Spec) (depth : Nat) (scope : Option ScopeId) (redirects : Nat) :
    Evaluation Response := do
  count Report.countStep
  let spec := e.registry.resolve spec
  if e.IsTooDeep spec depth then
    count Report.countTruncated
    pure (.settled ⟨.truncated, .null⟩)
  else
    match Builtin.ofSpec? spec with
    | none =>
      count Report.countUnknown
      pure (.done .null)
    | some b =>
      count (·.countUsage (HandlerKey.ofSpec spec).label)
      e.answer b spec depth scope redirects

section Respond

variable {e : Engine} {spec : Spec} {depth : Nat} (scope : Option ScopeId) (redirects : Nat)
  (p : Progress)

theorem respond_of_deep (h : e.IsTooDeep (e.registry.resolve spec) depth) :
    e.respond spec depth scope redirects p =
      some (.settled ⟨.truncated, .null⟩,
        { p with report := p.report.countStep.countTruncated }) := by
  simp only [respond, count_bind]
  rw [if_pos h]
  rfl

theorem respond_of_unknown (h : ¬ e.IsTooDeep (e.registry.resolve spec) depth)
    (hkind : Builtin.ofSpec? (e.registry.resolve spec) = none) :
    e.respond spec depth scope redirects p =
      some (.done .null, { p with report := p.report.countStep.countUnknown }) := by
  simp only [respond, count_bind]
  rw [if_neg h, hkind]
  rfl

theorem respond_of_builtin {b : Builtin} (h : ¬ e.IsTooDeep (e.registry.resolve spec) depth)
    (hkind : Builtin.ofSpec? (e.registry.resolve spec) = some b) :
    e.respond spec depth scope redirects p =
      e.answer b (e.registry.resolve spec) depth scope redirects
        { p with
          report := p.report.countStep.countUsage
            (HandlerKey.ofSpec (e.registry.resolve spec)).label } := by
  simp only [respond, count_bind]
  rw [if_neg h, hkind]
  rfl

end Respond

/-- The outcome of a description; `fuel` bounds how many evaluations are nested in each other. -/
def eval (e : Engine) : Nat → Spec → Nat → Option ScopeId → Nat → Evaluation Outcome
  | 0, _, _, _, _ => fun _ => none
  | fuel + 1, spec, depth, scope, redirects => do
    match ← e.respond spec depth scope redirects with
    | .settled o => pure o
    | .again s => eval e fuel s depth scope (redirects + 1)
    | .family inner children =>
      let outcomes ← each (fun s => eval e fuel s (depth + 1) (some inner) 0) children
      count Report.countStep
      pure ⟨.done, assemble (e.registry.resolve spec) outcomes⟩

end Engine

end Specimen
