import Specimen.Proofs.Engine.Agenda
import Specimen.Proofs.Engine.Effect
import Specimen.Proofs.Engine.Scopes
import Specimen.Proofs.Guarded.Handler
/-!
# A generation with its operations checked

`Guarded.run` is a generation that checks, besides what the built-in handlers check, each place
of a node or a scope before it is looked up or changed, and each depth before a level is added to
it. With the built-in handlers alone it makes no fault, whatever the description, the options and
the draws are (`Generator.never_faults`). A turn relies on four things that hold at every moment:
the order of the arena (`Orderly`), scopes that exist (`InScopes`), lengths of 64 bits
(`Spec.IsMeasured`), and depth limits that are words (`Engine.LimitedBy`), which the cut by depth
turns into depths that are words.
-/

namespace Specimen

open Specimen.Random Regex

namespace Guarded

/-! ## Nodes and scopes -/

/-- The node at a place. -/
def node (a : Arena) (id : NodeId) : Guarded Node :=
  match a.nodes[id]? with
  | some n => pure n
  | none => fault (.noNode id)

/-- `Arena.modify`. -/
def modify (a : Arena) (id : NodeId) (f : Node → Node) : Guarded Arena := do
  let _ ← node a id
  pure (a.modify id f)

/-- `Arena.outcome`. -/
def outcome (a : Arena) (id : NodeId) : Guarded Outcome := do
  let n ← node a id
  pure ⟨n.stage, Json.ofOption n.value⟩

/-- `Arena.outcomes`. -/
def outcomes (a : Arena) (ids : List NodeId) : Guarded (List Outcome) := ids.mapM (outcome a)

/-- `Arena.release`. -/
def release (a : Arena) (id : NodeId) : Guarded Arena :=
  modify a id fun n => { n with value := none }

/-- `Arena.finish`. -/
def finish (a : Arena) (id : NodeId) (v : Json) : Guarded Arena := do
  let n ← node a id
  let a ← n.children.foldlM release a
  modify a id fun n => { n with stage := .done, value := some v, children := [] }

/-- `Arena.truncate`. -/
def truncate (a : Arena) (id : NodeId) : Guarded Arena :=
  modify a id fun n => { n with stage := .truncated, value := some .null }

/-- `Arena.redirect`. -/
def redirect (a : Arena) (id : NodeId) (s : Spec) : Guarded Arena :=
  modify a id fun n => { n with spec := s, redirects := n.redirects + 1 }

/-- `Arena.adopt`. -/
def adopt (a : Arena) (id : NodeId) (children : List Node) : Guarded Arena := do
  let ids := List.range' a.nodes.size children.length
  let a ← modify a id fun n => { n with stage := .toBuild, children := n.children ++ ids }
  pure { a with nodes := a.nodes ++ children.toArray }

/-- `Arena.scope?`. -/
def scope? (a : Arena) : Option ScopeId → Guarded (Option Scope)
  | none => pure none
  | some i =>
    match a.scopes[i]? with
    | some s => pure (some s)
    | none => fault (.noScope i)

/-- `Arena.setScope`. -/
def setScope (a : Arena) (id : Option ScopeId) (s : Option Scope) : Guarded Arena := do
  let _ ← scope? a id
  pure (a.setScope id s)

/-! ## Visits -/

/-- `Run.fail`. -/
def fail (r : Run) (id : NodeId) : Guarded Run := do
  let arena ← finish r.arena id .null
  pure { r with arena, report := r.report.countFailure }

/-- `Engine.expand`. -/
def expand (r : Run) (id : NodeId) (node : Node) (room : Option Nat) (placement : Placement)
    (children : List Child) : Guarded Run := do
  let depth ← add node.depth 1
  let (kept, cut) := accommodate room children
  let r := { r with report := r.report.countDropped (UInt64.ofNat cut) }
  let queued := queuedIds r.arena.nodes.size kept
  let (arena, scope) := r.arena.place node.scope placement
  let arena ← adopt arena id (kept.map (Node.ofChild depth scope))
  let r := { r with arena }
  if node.stage = .toBuild ∧ queued = [] then fail r id
  else
    pure { r with
      stack := queued ++ id :: r.stack
      report := r.report.countQueued queued.length }

/-- `Engine.settle`. -/
def settle (r : Run) (id : NodeId) (node : Node) (room : Option Nat) : Verdict → Guarded Run
  | .finish v => do pure { r with arena := ← finish r.arena id v }
  | .pending => fail r id
  | .redirect s =>
    if node.stage = .toBuild ∨ maxRedirects ≤ node.redirects then fail r id
    else do pure { r with arena := ← redirect r.arena id s, stack := id :: r.stack }
  | .expand placement children => expand r id node room placement children

/-- `Engine.view`. -/
def view (e : Engine) (r : Run) (node : Node) : Guarded Visit := do
  let children ← outcomes r.arena node.children
  pure {
    spec := node.spec
    stage := node.stage
    depth := node.depth
    inScope := node.scope.isSome
    room := e.room r.report
    children
    providers := e.providers }

/-- `Engine.consult`. -/
def consult (e : Engine) (h : GuardedHandler) (r : Run) (id : NodeId) (node : Node) :
    Guarded Run := do
  let room := e.room r.report
  let v ← view e r node
  let scope ← scope? r.arena node.scope
  let (answer, supply) ← h v ⟨r.source, r.synthesizer, scope, 0⟩
  let arena ← setScope r.arena node.scope supply.scope
  let r : Run :=
    { r with
      arena
      report := r.report.countDropped supply.dropped
      source := supply.source
      synthesizer := supply.synthesizer }
  match answer with
  | .error _ => fail r id
  | .ok verdict => settle r id node room verdict

/-- `Handlers.get?`; what a registered handler does is not looked into. -/
def get? (hs : Handlers) (key : HandlerKey) : Option GuardedHandler :=
  match hs.registered.lookup key with
  | some h => some fun v => ofAction (h v)
  | none => (key.kind.bind fun kind => Builtin.ofName? kind key.method).map builtin

/-- `Engine.dispatch`. -/
def dispatch (e : Engine) (r : Run) (id : NodeId) (node : Node) : Guarded Run :=
  let key := HandlerKey.ofSpec node.spec
  match get? e.handlers key with
  | none => do
    pure { r with arena := ← finish r.arena id .null, report := r.report.countUnknown }
  | some h =>
    if node.stage = .toBuild then consult e h r id node
    else consult e h { r with report := r.report.countUsage key.label } id node

/-- `Engine.visit`. -/
def visit (e : Engine) (r : Run) (id : NodeId) (node : Node) : Guarded Run :=
  if node.stage = .toBuild then dispatch e r id node
  else do
    let node := { node with spec := e.registry.resolve node.spec }
    let r := { r with arena := ← modify r.arena id fun _ => node }
    if e.isTooDeep node then
      pure { r with arena := ← truncate r.arena id, report := r.report.countTruncated }
    else dispatch e r id node

/-- `Engine.turn`. -/
def turn (e : Engine) (r : Run) : Guarded Run :=
  match r.stack with
  | [] => pure r
  | id :: stack => do
    let n ← node r.arena id
    visit e { r with stack, report := r.report.countStep } id n

/-- `Engine.run`. -/
def run (e : Engine) : Nat → Run → Guarded Run
  | fuel, r =>
    match r.stack with
    | [] => pure r
    | _ :: _ =>
      match fuel with
      | 0 => ofOption none
      | fuel + 1 => do run e fuel (← turn e r)

/-- `Generator.generateWithin`. -/
def generateWithin (fuel : Nat) (g : Generator) : Guarded ((Json × Report) × Generator) := do
  let r ← run g.engine fuel (Run.start g.spec g.source g.synthesizer)
  let root ← outcome r.arena 0
  pure ((root.value, r.report), { g with source := r.source, synthesizer := r.synthesizer })

end Guarded

/-! ## Where the checks are passed -/

/-- A node stands at its place, and its children and its scope exist. -/
structure Arena.Holds (a : Arena) (id : NodeId) (node : Node) : Prop where
  found : a.nodes[id]? = some node
  children : ∀ c ∈ node.children, c < a.nodes.size
  scope : ∀ k ∈ node.scope, k < a.scopes.size

theorem Arena.size_setScope (a : Arena) (id : Option ScopeId) (s : Option Scope) :
    (a.setScope id s).scopes.size = a.scopes.size := by
  cases id with
  | none => cases s <;> rfl
  | some i =>
      cases s with
      | none => rfl
      | some s => rw [setScope, Array.size_modify]

namespace Arena.Holds

variable {a b : Arena} {id : NodeId} {n : Node}

theorem lt (h : a.Holds id n) : id < a.nodes.size := (Array.getElem?_eq_some_iff.1 h.found).1

theorem congr (h : a.Holds id n) (hnodes : b.nodes = a.nodes)
    (hscopes : b.scopes.size = a.scopes.size) : b.Holds id n :=
  ⟨hnodes ▸ h.found, hnodes ▸ h.children, hscopes ▸ h.scope⟩

/-- The node is changed, but it keeps its children and its scope. -/
theorem modify (h : a.Holds id n) {m : Node} (hchildren : m.children = n.children)
    (hscope : m.scope = n.scope) : (a.modify id fun _ => m).Holds id m := by
  refine ⟨?_, fun c hc => ?_, hscope ▸ h.scope⟩
  · rw [Arena.modify, Array.getElem?_modify, if_pos rfl, h.found, Option.map_some]
  · rw [Arena.modify, Array.size_modify]
    exact h.children c (hchildren ▸ hc)

end Arena.Holds

namespace Guarded

variable {a : Arena} {id : NodeId} {n : Node}

section Places

theorem node_of_some (h : a.nodes[id]? = some n) : node a id = pure n := by rw [node, h]

example : node {} 3 = fault (.noNode 3) := rfl

theorem modify_of_lt (h : id < a.nodes.size) (f : Node → Node) :
    modify a id f = pure (a.modify id f) := by
  rw [modify, node_of_some (Array.getElem?_eq_getElem h), pure_bind]

theorem outcome_of_lt (h : id < a.nodes.size) : outcome a id = pure (a.outcome id) := by
  rw [outcome, node_of_some (Array.getElem?_eq_getElem h), Arena.outcome,
    Array.getElem?_eq_getElem h, pure_bind]

theorem outcomes_of_lt {ids : List NodeId} (h : ∀ c ∈ ids, c < a.nodes.size) :
    outcomes a ids = pure (a.outcomes ids) := by
  induction ids with
  | nil => rfl
  | cons c ids ih =>
      have hrest := ih fun d hd => h d (List.mem_cons_of_mem _ hd)
      rw [outcomes] at hrest ⊢
      rw [List.mapM_cons, outcome_of_lt (h c List.mem_cons_self), pure_bind, hrest, pure_bind]
      rfl

theorem foldlM_release {ids : List NodeId} (h : ∀ c ∈ ids, c < a.nodes.size) :
    ids.foldlM release a = pure (ids.foldl Arena.release a) := by
  induction ids generalizing a with
  | nil => rfl
  | cons c ids ih =>
      have hsize : (a.release c).nodes.size = a.nodes.size := Array.size_modify
      rw [List.foldlM_cons, release, modify_of_lt (h c List.mem_cons_self), pure_bind,
        List.foldl_cons]
      exact ih fun d hd => hsize ▸ h d (List.mem_cons_of_mem _ hd)

theorem adopt_of_lt (h : id < a.nodes.size) (children : List Node) :
    adopt a id children = pure (a.adopt id children) := by
  rw [adopt, modify_of_lt h, pure_bind, Arena.adopt]

theorem scope?_of_lt {scope : Option ScopeId} (h : ∀ k ∈ scope, k < a.scopes.size) :
    scope? a scope = pure (a.scope? scope) := by
  cases scope with
  | none => rfl
  | some k =>
      have hk := Array.getElem?_eq_getElem (h k rfl)
      rw [scope?, hk, Arena.scope?, Option.bind_some, hk]

theorem setScope_of_lt {scope : Option ScopeId} (h : ∀ k ∈ scope, k < a.scopes.size)
    (s : Option Scope) : setScope a scope s = pure (a.setScope scope s) := by
  rw [setScope, scope?_of_lt h, pure_bind]

theorem finish_of_holds (h : a.Holds id n) (v : Json) :
    finish a id v = pure (a.finish id v) := by
  have hsize : id < (n.children.foldl Arena.release a).nodes.size := by
    rw [Arena.size_foldl_release]
    exact h.lt
  rw [finish, node_of_some h.found, pure_bind, foldlM_release h.children, pure_bind,
    modify_of_lt hsize, Arena.finish, h.found, Option.map_some, Option.getD_some]

end Places

section Visits

variable {r : Run} (h : r.arena.Holds id n)
include h

theorem fail_of_holds : fail r id = pure (r.fail id) := by
  rw [fail, finish_of_holds h, pure_bind, Run.fail]

theorem expand_of_delayed (hstage : n.stage = .delayed) (hdepth : n.depth + 1 < UInt64.size)
    (room : Option Nat) (placement : Placement) (children : List Child) :
    expand r id n room placement children =
      pure (Engine.expand r id n room placement children) := by
  have hlt : id < (r.arena.place n.scope placement).1.nodes.size := by
    rw [Arena.nodes_place]
    exact h.lt
  have hwaits : ∀ ids : List NodeId, ¬ (n.stage = .toBuild ∧ ids = []) := by simp [hstage]
  simp only [expand, add_of_lt hdepth, pure_bind, adopt_of_lt hlt, if_neg (hwaits _),
    Engine.expand]

theorem settle_eq {verdict : Verdict} (hexpand : ∀ placement children,
      verdict = .expand placement children → n.stage = .delayed ∧ n.depth + 1 < UInt64.size)
    (room : Option Nat) :
    settle r id n room verdict = pure (Engine.settle r id n room verdict) := by
  cases verdict with
  | finish v => rw [settle, finish_of_holds h, pure_bind, Engine.settle, Run.finish]
  | pending => exact fail_of_holds h
  | redirect s =>
      rw [settle, Engine.settle]
      split
      · exact fail_of_holds h
      · rw [redirect, modify_of_lt h.lt, pure_bind, Arena.redirect]
  | expand placement children =>
      obtain ⟨hstage, hdepth⟩ := hexpand placement children rfl
      exact expand_of_delayed h hstage hdepth room placement children

theorem view_eq (e : Engine) : view e r n = pure (e.view r n) := by
  rw [view, outcomes_of_lt h.children, pure_bind, Engine.view]

/-- A handler is asked without a fault if it makes none and adds a level only to a node that it
sees for the first time and that does not lie too deep. -/
theorem consult_eq {e : Engine} {g : GuardedHandler} {f : Handler}
    (hagrees : Agrees (g (e.view r n)) (f (e.view r n)))
    (hexpand : ∀ placement children s t,
      f (e.view r n) s = some (.ok (.expand placement children), t) →
        n.stage = .delayed ∧ n.depth + 1 < UInt64.size) :
    consult e g r id n = ofOption (e.consult f r id n) := by
  rw [consult, view_eq h, pure_bind, scope?_of_lt h.scope, pure_bind, hagrees, Engine.consult]
  generalize hgiven : f (e.view r n) _ = given
  cases given with
  | none => rfl
  | some q =>
      obtain ⟨answer, supply⟩ := q
      -- The handler has changed the scopes at most in themselves.
      have hafter : (r.arena.setScope n.scope supply.scope).Holds id n :=
        h.congr (Arena.nodes_setScope _ _ _) (Arena.size_setScope _ _ _)
      rw [ofOption_some, pure_bind]
      simp only [setScope_of_lt h.scope, pure_bind]
      cases answer with
      | error err => exact fail_of_holds hafter
      | ok verdict =>
          refine settle_eq hafter (fun placement children hverdict => ?_) _
          exact hexpand placement children _ _ (hverdict ▸ hgiven)

end Visits

/-! ## Turns -/

section Turns

variable {e : Engine} (he : e.handlers.registered = [])
include he

theorem get?_builtin (s : Spec) :
    get? e.handlers (HandlerKey.ofSpec s) = (Builtin.ofSpec? s).map builtin := by
  simp only [get?, he, List.lookup_nil, Builtin.ofSpec?]

variable {r : Run} (h : r.arena.Holds id n)
include h

/-- A node waits for its children if it is a composite, or it does not lie too deep. -/
theorem dispatch_eq (hmeasured : n.spec.IsMeasured)
    (hstage : n.stage = .toBuild ∧ n.spec.IsComposite ∨
      n.stage = .delayed ∧ n.depth + 1 < UInt64.size) :
    dispatch e r id n = ofOption (e.dispatch r id n) := by
  rw [dispatch, Engine.dispatch, get?_builtin he, Engine.get?_builtin he]
  cases hkind : Builtin.ofSpec? n.spec with
  | none =>
      dsimp only [Option.map_none]
      rw [finish_of_holds h, pure_bind]
      rfl
  | some b =>
      have hasked (q : Run) (hq : q.arena = r.arena) :
          consult e (builtin b) q id n = ofOption (e.consult b.handler q id n) := by
        refine consult_eq (h.congr (congrArg _ hq) (by rw [hq])) (.builtin hmeasured b) ?_
        intro placement children s t hverdict
        obtain ⟨hbuild, hcomposite⟩ | hfirst := hstage
        · -- A composite that is visited again is put together, and asks for no more children.
          obtain ⟨c, hc, hhandler⟩ := Engine.handler_of_toBuild hcomposite
          rw [hkind] at hc
          cases hc
          rw [hhandler _ hbuild, Action.pure_apply] at hverdict
          cases hverdict
        · exact hfirst
      simp only [Option.map_some]
      split
      · exact hasked r rfl
      · exact hasked _ rfl

variable (hmeasured : e.registry.Everywhere Spec.IsMeasured)
  (hlimit : e.LimitedBy (UInt64.size - 1))
include hmeasured hlimit

theorem visit_eq (hspec : n.spec.Everywhere Spec.IsMeasured)
    (hlimited : n.spec.LimitedBy (UInt64.size - 1))
    (hstage : n.stage = .toBuild ∧ n.spec.IsComposite ∨ n.stage = .delayed) :
    visit e r id n = ofOption (e.visit r id n) := by
  rw [visit, Engine.visit]
  obtain ⟨hbuild, hcomposite⟩ | hdelayed := hstage
  · rw [if_pos hbuild, if_pos hbuild]
    exact dispatch_eq he h hspec.self (.inl ⟨hbuild, hcomposite⟩)
  · have hfirst : ¬ n.stage = .toBuild := by simp [hdelayed]
    have hresolved : (r.arena.modify id fun _ =>
        { n with spec := e.registry.resolve n.spec }).Holds id
          { n with spec := e.registry.resolve n.spec } := h.modify rfl rfl
    rw [if_neg hfirst, if_neg hfirst]
    dsimp only
    rw [modify_of_lt h.lt, pure_bind]
    split
    · rw [truncate, modify_of_lt hresolved.lt, pure_bind]
      rfl
    · rename_i hdeep
      have hdepth : n.depth < UInt64.size - 1 :=
        hlimit.depth_lt (hlimit.resolve hlimited) fun htoo => hdeep (Engine.isTooDeep_iff.2 htoo)
      refine dispatch_eq he hresolved (hmeasured.resolve Spec.isMeasured_empty hspec).self ?_
      exact .inr ⟨hdelayed, Nat.add_lt_of_lt_sub hdepth⟩

end Turns

/-! ## Generations -/

section Generations

variable {e : Engine} {root : Spec} {source : Source} {synthesizer : Synthesizer} {r : Run}
    {k : Nat}
  (he : e.handlers.registered = [])
  (hmeasured : e.registry.Everywhere Spec.IsMeasured ∧ root.Everywhere Spec.IsMeasured)
  (hlimit : e.LimitedBy (UInt64.size - 1) ∧ root.LimitedBy (UInt64.size - 1))
  (hr : e.turns k (Run.start root source synthesizer) = some r)
include he hr

/-- The children and the scope of a node exist at every moment of a generation. -/
theorem holds_of_turns (hn : r.arena.nodes[id]? = some n) : r.arena.Holds id n where
  found := hn
  children _ hc := (Engine.orderly_of_turns he hr).lt_of_isChild ⟨n, hn, hc⟩
  scope := Engine.inScopes_of_turns he hr id n hn

include hmeasured hlimit

/-- A turn makes no fault at any moment of a generation. -/
theorem turn_eq : turn e r = ofOption (e.turn r) := by
  rw [turn, Engine.turn]
  cases hstack : r.stack with
  | nil => rfl
  | cons id rest =>
      have horderly := Engine.orderly_of_turns he hr
      obtain ⟨n, hn, hopen⟩ := horderly.mem_stack.1 (hstack ▸ List.mem_cons_self)
      have hholds := holds_of_turns he hr hn
      simp only [node_of_some hn, pure_bind, hn]
      refine visit_eq he (r := { r with stack := rest, report := r.report.countStep }) hholds
        hmeasured.1 hlimit.1 ?_ ?_ ?_
      · exact Engine.everywhere_of_turns he hr Spec.isMeasured_empty hmeasured.1 hmeasured.2 hn
      · exact (Engine.limited_of_turns he hr hlimit.1 hlimit.2 hn).1
      · cases hstage : n.stage with
        | delayed => exact .inr rfl
        | toBuild => exact .inl ⟨rfl, horderly.composite hn hstage⟩
        | _ => simp [hstage, Stage.isThrough] at hopen

/-- Neither does what is left of the generation. -/
theorem run_eq (fuel : Nat) : run e fuel r = ofOption (e.run fuel r) := by
  induction fuel generalizing k r with
  | zero =>
      rw [run, Engine.run]
      cases r.stack <;> rfl
  | succ fuel ih =>
      rw [run, Engine.run]
      cases hstack : r.stack with
      | nil => rfl
      | cons id rest =>
          simp only [turn_eq he hmeasured hlimit hr]
          cases hturn : e.turn r with
          | none => rfl
          | some s => exact ih ((Engine.turns_succ_of_cons hr hstack).trans hturn)

end Generations

end Guarded

namespace Generator

open Guarded

/-- No operation that a generation with the built-in handlers comes to lacks a result, whatever
the description in JSON, the options, the providers and the random words are: at every moment the
next turn with its operations checked is the turn itself, and so is the whole generation. The
depth of the options is a word of 64 bits, as all depths are that are read. -/
theorem never_faults (providers : Providers) (json : Json) (options : Options) (seed : Nat)
    (source : Source) (synthesizer : Synthesizer) (hdepth : options.maxDepth < UInt64.size) :
    let g : Generator :=
      { Generator.ofJson providers json options seed with source, synthesizer }
    (∀ n r, g.engine.turns n (Run.start g.spec g.source g.synthesizer) = some r →
      Guarded.turn g.engine r = ofOption (g.engine.turn r)) ∧
    ∀ fuel, Guarded.generateWithin fuel g = ofOption (g.generateWithin fuel) := by
  intro g
  have hspec := Spec.isMeasured_ofJson json
  have hlimited := Spec.maxDepth_le_ofJson json
  have hmeasured : g.engine.registry.Everywhere Spec.IsMeasured ∧
      g.spec.Everywhere Spec.IsMeasured := ⟨Registry.everywhere_build hspec, hspec⟩
  have hlimit : g.engine.LimitedBy (UInt64.size - 1) ∧ g.spec.LimitedBy (UInt64.size - 1) :=
    ⟨⟨Nat.le_sub_one_of_lt hdepth, Registry.everywhere_build hlimited⟩, hlimited⟩
  refine ⟨fun n r hr => turn_eq rfl hmeasured hlimit hr, fun fuel => ?_⟩
  have hstart : g.engine.turns 0 (Run.start g.spec g.source g.synthesizer) =
      some (Run.start g.spec g.source g.synthesizer) := rfl
  rw [Guarded.generateWithin, run_eq rfl hmeasured hlimit hstart, Generator.generateWithin]
  cases hrun : g.engine.run fuel (Run.start g.spec g.source g.synthesizer) with
  | none => rfl
  | some r =>
      obtain ⟨n, -, hr, -⟩ := Engine.run_eq_some_iff.1 hrun
      have hroot := (Engine.orderly_of_turns rfl hr).root
      rw [ofOption_some, pure_bind, outcome_of_lt hroot, pure_bind]
      rfl

theorem sampleJson_never_faults :
    ({} : Options).maxDepth < UInt64.size ∧
    ∃ report g', Guarded.generateWithin 10 { Generator.ofJson .absent sampleJson {} 0 with
        source := .tape [0, 0x80000000, 0, 0x40000000, 0, 0xC0000000]
        synthesizer := {} } =
      pure ((.obj [("digits", .arr [.int 2, .int 7]), ("on", .bool true)], report), g') := by
  have hdepth : ({} : Options).maxDepth < UInt64.size := by decide
  obtain ⟨⟨⟨v, report⟩, g'⟩, hrun, rfl⟩ := Option.map_eq_some_iff.1 sampleJson_generates
  have hsame := (never_faults .absent sampleJson {} 0
    (.tape [0, 0x80000000, 0, 0x40000000, 0, 0xC0000000]) {} hdepth).2 10
  exact ⟨hdepth, report, g', hsame.trans (congrArg ofOption hrun)⟩

end Generator

end Specimen
