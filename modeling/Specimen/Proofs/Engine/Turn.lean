import Specimen.Proofs.Engine.Evaluator
import Specimen.Proofs.Handler.Action
import Specimen.Proofs.Record.Plan
/-!
# What a turn does

The turns of an engine without registered handlers, in the words of the recursive evaluation. The
first visit of a node puts its response into the arena and onto the stack (`turn_eq_respond`);
the second visit of a composite assembles what its children have come to (`turn_eq_assemble`).
-/

namespace Specimen

open Specimen.Random Regex

section FirstVisit

variable {v : Visit} (spec : Spec) (room : Option Nat) (hstage : v.stage = .delayed)
  (hspec : v.spec = spec) (hroom : v.room = room) (s : Supply)
include hstage hspec hroom

theorem Record.handler_of_delayed :
    Record.handler v s =
      (Record.plan spec.keys { room } s.source).map fun (plan, source) =>
        (.ok (if plan.entries.isEmpty then .finish (.obj []) else .expand .fresh plan.children),
          { s with source, dropped := s.dropped + UInt64.ofNat (plan.cut.getD 0) }) := by
  subst hspec hroom
  simp only [Record.handler, hstage, Action.draw_bind]
  cases Record.plan v.spec.keys { room := v.room } s.source with
  | none => rfl
  | some q =>
      simp only [Option.bind_some, Option.map_some, Action.discard_bind]
      split <;> rfl

omit hroom in
theorem Sequence.handler_of_inverted
    (hbounds : (Sequence.bounds spec).2 < (Sequence.bounds spec).1) :
    Sequence.handler v s = some (.ok (.finish (.arr [])), s) := by
  subst hspec
  simp only [Sequence.handler, hstage]
  rw [if_pos hbounds, Action.pure_apply]

theorem Sequence.handler_of_ordered
    (hbounds : ¬ (Sequence.bounds spec).2 < (Sequence.bounds spec).1) :
    Sequence.handler v s =
      (Draw.between (Sequence.bounds spec).1 (Sequence.bounds spec).2 s.source).map
        fun (length, source) =>
          let kept := Sequence.admitted room length.toNat
          (.ok (if kept = 0 then .finish (.arr [])
            else .expand .fresh (List.replicate kept (.queued (spec.typeElements.getD .empty)))),
            { s with
              source, dropped := s.dropped + UInt64.ofNat (length.toNat - kept) }) := by
  subst hspec hroom
  simp only [Sequence.handler, hstage]
  rw [if_neg hbounds, Action.draw_bind]
  cases Draw.between _ _ s.source with
  | none => rfl
  | some q =>
      simp only [Option.bind_some, Option.map_some, Action.discard_bind]
      split <;> rfl

end FirstVisit

/-- The arena in which a node waits for the children it has got. -/
def withFamily (nodes : Array Node) (id : Nat) (node : Node) (scope : ScopeId)
    (children : List Child) : Array Node :=
  nodes.setIfInBounds id { node with
      stage := .toBuild, children := List.range' nodes.size children.length } ++
    (children.map (Node.ofChild (node.depth + 1) (some scope))).toArray

theorem size_le_withFamily (nodes : Array Node) (id : NodeId) (node : Node) (scope : ScopeId)
    (children : List Child) : nodes.size ≤ (withFamily nodes id node scope children).size := by
  simp [withFamily]

theorem getElem?_set_of_lt {α : Type} {xs : Array α} {i : Nat} (hi : i < xs.size) (x : α)
    (j : Nat) : (xs.setIfInBounds i x)[j]? = if j = i then some x else xs[j]? := by
  rw [Array.getElem?_setIfInBounds]
  by_cases hj : i = j
  · rw [if_pos hj, if_pos hi, if_pos hj.symm]
  · rw [if_neg hj, if_neg (Ne.symm hj)]

theorem getElem?_withFamily {nodes : Array Node} {id : Nat} (node : Node) (scope : ScopeId)
    (children : List Child) {j : Nat} (hj : j < nodes.size) :
    (withFamily nodes id node scope children)[j]? =
      if j = id then some { node with
        stage := .toBuild, children := List.range' nodes.size children.length }
      else nodes[j]? := by
  rw [withFamily, Array.getElem?_append_left (by simpa using hj)]
  by_cases hid : j = id
  · rw [← hid, getElem?_set_of_lt hj]
  · rw [Array.getElem?_setIfInBounds, if_neg (Ne.symm hid), if_neg hid]

namespace Run

def progress (r : Run) : Progress := ⟨r.source, r.synthesizer, r.arena.scopes, r.report⟩

def ofProgress (p : Progress) (nodes : Array Node) (stack : List NodeId) : Run where
  arena := ⟨nodes, p.scopes⟩
  stack
  report := p.report
  source := p.source
  synthesizer := p.synthesizer

theorem eq_ofProgress {r : Run} {stack : List NodeId} (h : r.stack = stack) :
    r = .ofProgress r.progress r.arena.nodes stack := by
  rw [← h]
  rfl

def advance (nodes : Array Node) (id : NodeId) (node : Node) (rest : List NodeId) :
    Response × Progress → Run
  | (.settled o, p) =>
    ofProgress p
      (nodes.setIfInBounds id { node with stage := o.stage, value := some o.value }) rest
  | (.again s, p) =>
    ofProgress p
      (nodes.setIfInBounds id { node with spec := s, redirects := node.redirects + 1 })
      (id :: rest)
  | (.family scope children, p) =>
    ofProgress p (withFamily nodes id node scope children)
      (queuedIds nodes.size children ++ id :: rest)

end Run

theorem modify_eq_setIfInBounds {α : Type} {xs : Array α} {i : Nat} {x : α} (f : α → α)
    (h : xs[i]? = some x) : xs.modify i f = xs.setIfInBounds i (f x) := by
  apply Array.ext_getElem?
  intro j
  rw [Array.getElem?_modify, getElem?_set_of_lt (Array.getElem?_eq_some_iff.1 h).1]
  by_cases hj : i = j
  · rw [if_pos hj, if_pos hj.symm, ← hj, h, Option.map_some]
  · rw [if_neg hj, if_neg (Ne.symm hj)]

@[simp] theorem Report.countDropped_zero (r : Report) : r.countDropped 0 = r := by
  simp [Report.countDropped]

theorem Progress.after_same_scope (p : Progress) (scope : Option ScopeId) (source : Source)
    (dropped : UInt64) :
    p.after scope ⟨source, p.synthesizer, scope.bind fun i => p.scopes[i]?, dropped⟩ =
      { p with source, report := p.report.countDropped dropped } := by
  cases scope with
  | none => rfl
  | some i =>
      cases h : p.scopes[i]? with
      | none => simp [Progress.after, Arena.setScope, h]
      | some scope =>
          simp only [Progress.after, Arena.setScope, Option.bind_some, h,
            modify_eq_setIfInBounds _ h]
          congr
          apply Array.ext_getElem?
          intro j
          rw [getElem?_set_of_lt (Array.getElem?_eq_some_iff.1 h).1]
          by_cases hj : j = i
          · rw [if_pos hj, hj, h]
          · rw [if_neg hj]

section Childless

variable {p : Progress} {nodes : Array Node} {rest : List NodeId} {id : NodeId} {node : Node}
  (hnode : nodes[id]? = some node) (hchildren : node.children = [])
include hnode hchildren

theorem finish_ofProgress (v : Json) :
    (Run.ofProgress p nodes rest).finish id v = Run.advance nodes id node rest (.done v, p) := by
  simp only [Run.finish, Run.ofProgress, Arena.finish, hnode, Option.map_some, hchildren,
    Option.getD_some, List.foldl_nil, Arena.modify, modify_eq_setIfInBounds _ hnode]
  rw [← hchildren]
  rfl

theorem fail_ofProgress :
    (Run.ofProgress p nodes rest).fail id =
      Run.advance nodes id node rest
        (.done .null, { p with report := p.report.countFailure }) :=
  finish_ofProgress (p := { p with report := p.report.countFailure }) hnode hchildren .null

end Childless

namespace Engine

theorem consult_ofProgress (e : Engine) (h : Handler) (p : Progress) (nodes : Array Node)
    (rest : List NodeId) (id : NodeId) (node : Node) :
    e.consult h (.ofProgress p nodes rest) id node =
      (h (e.view (.ofProgress p nodes rest) node)
        ⟨p.source, p.synthesizer, node.scope.bind fun i => p.scopes[i]?, 0⟩).map
        fun (answer, supply) =>
          match answer with
          | .error _ => (Run.ofProgress (p.after node.scope supply) nodes rest).fail id
          | .ok verdict =>
            settle (.ofProgress (p.after node.scope supply) nodes rest) id node
              (e.room p.report) verdict := by
  have hafter : ∀ supply : Supply, ({ Run.ofProgress p nodes rest with
      arena := (Run.ofProgress p nodes rest).arena.setScope node.scope supply.scope
      report := p.report.countDropped supply.dropped
      source := supply.source
      synthesizer := supply.synthesizer } : Run) =
        .ofProgress (p.after node.scope supply) nodes rest := by
    intro supply
    simp only [Run.ofProgress, Progress.after, Arena.setScope]
    split <;> rfl
  unfold consult
  simp only [Arena.scope?]
  simp only [Run.ofProgress] at hafter ⊢
  cases h _ ⟨p.source, p.synthesizer, node.scope.bind fun i => p.scopes[i]?, 0⟩ with
  | none => rfl
  | some q =>
      obtain ⟨answer, supply⟩ := q
      simp only [hafter, Option.map_some]
      cases answer <;> rfl

theorem consult_leaf {e : Engine} {f : Visit → Action Json} {p : Progress} {nodes : Array Node}
    {rest : List NodeId} {id : NodeId} {node : Node}
    (hnode : nodes[id]? = some node) (hchildren : node.children = []) :
    e.consult (Handler.leaf f) (.ofProgress p nodes rest) id node =
      (Evaluation.leaf node.scope (f (e.view (.ofProgress p nodes rest) node)) p).map
        (Run.advance nodes id node rest) := by
  rw [consult_ofProgress]
  simp only [Handler.leaf_apply, Evaluation.leaf, Evaluation.act, bind, StateT.bind]
  cases f _ ⟨p.source, p.synthesizer, node.scope.bind fun i => p.scopes[i]?, 0⟩ with
  | none => rfl
  | some q =>
      obtain ⟨x, supply⟩ := q
      cases x with
      | error err => exact congrArg some (fail_ofProgress hnode hchildren)
      | ok v => exact congrArg some (finish_ofProgress hnode hchildren v)

theorem view_ofProgress {e : Engine} {p : Progress} {nodes : Array Node} {rest : List NodeId}
    {node : Node} (hstage : node.stage = .delayed) (hchildren : node.children = []) :
    e.view (.ofProgress p nodes rest) node =
      e.firstVisit node.spec node.depth node.scope (e.room p.report) := by
  simp only [view, firstVisit, hstage, hchildren]
  rfl

theorem settle_family {p : Progress} {nodes : Array Node} {rest : List NodeId} {id : NodeId}
    {node : Node} {room : Option Nat} {children : List Child}
    (hnode : nodes[id]? = some node) (hchildren : node.children = [])
    (hstage : node.stage = .delayed) (hroom : ∀ n ∈ room, queuedCount children ≤ n) :
    settle (.ofProgress p nodes rest) id node room (.expand .fresh children) =
      Run.advance nodes id node rest
        (.family p.scopes.size children,
          { p with
            scopes := p.scopes.push {}
            report := p.report.countQueued (queuedCount children) }) := by
  simp only [settle, expand, accommodate_of_fits hroom, hstage]
  simp [Run.ofProgress, Arena.place, Arena.adopt, Arena.modify, Run.advance,
    withFamily, modify_eq_setIfInBounds _ hnode, hchildren, Report.countDropped,
    Report.countQueued]

theorem consult_choice {e : Engine} {p : Progress} {nodes : Array Node} {rest : List NodeId}
    {id : NodeId} {node : Node} (hnode : nodes[id]? = some node) (hchildren : node.children = [])
    (hstage : node.stage = .delayed) :
    e.consult Choice.handler (.ofProgress p nodes rest) id node =
      (Evaluation.choice node.redirects node.spec.options p).map
        (Run.advance nodes id node rest) := by
  rw [consult_ofProgress, view_ofProgress hstage hchildren]
  simp only [Choice.handler, firstVisit]
  cases node.spec.options with
  | nil =>
      simp only [Action.pure_apply, Option.map_some, Progress.after_same_scope,
        Report.countDropped_zero, settle]
      exact congrArg some (finish_ofProgress hnode hchildren .null)
  | cons o options =>
      simp only [Action.draw_bind, Evaluation.choice, Evaluation.draw_bind]
      cases Draw.percent p.source with
      | none => rfl
      | some q =>
          obtain ⟨roll, source⟩ := q
          simp only [Option.bind_some]
          cases Choice.select _ roll (o :: options) with
          | none =>
              simp only [Action.pure_apply, Option.map_some, Progress.after_same_scope,
                Report.countDropped_zero, settle]
              exact congrArg some (finish_ofProgress hnode hchildren .null)
          | some s =>
              simp only [Action.pure_apply, Option.map_some, Progress.after_same_scope,
                Report.countDropped_zero, settle, hstage, reduceCtorEq, false_or]
              by_cases hlimit : maxRedirects ≤ node.redirects
              · simp only [if_pos hlimit]
                exact congrArg some (fail_ofProgress hnode hchildren)
              · simp only [if_neg hlimit, Evaluation.pure_apply, Option.map_some]
                simp only [Run.ofProgress, Arena.redirect, Arena.modify, Run.advance,
                  modify_eq_setIfInBounds _ hnode]

theorem consult_record {e : Engine} {p : Progress} {nodes : Array Node} {rest : List NodeId}
    {id : NodeId} {node : Node} (hnode : nodes[id]? = some node) (hchildren : node.children = [])
    (hstage : node.stage = .delayed) :
    e.consult Record.handler (.ofProgress p nodes rest) id node =
      (Evaluation.record (e.room p.report) node.spec.keys p).map
        (Run.advance nodes id node rest) := by
  rw [consult_ofProgress, view_ofProgress hstage hchildren]
  rw [Record.handler_of_delayed node.spec (e.room p.report) rfl rfl rfl, Evaluation.record_apply]
  cases hplan : Record.plan node.spec.keys { room := e.room p.report } p.source with
  | none => rfl
  | some q =>
      obtain ⟨plan, source⟩ := q
      simp only [Option.bind_some, Option.map_some, UInt64.zero_add, Progress.after_same_scope]
      by_cases hempty : plan.entries.isEmpty
      · simp only [if_pos hempty, settle, finish_ofProgress hnode hchildren, Option.map_some]
      · simp only [if_neg hempty,
          settle_family hnode hchildren hstage (Record.queuedCount_le_of_plan hplan),
          Evaluation.enlist_apply, Option.map_some]

theorem consult_array {e : Engine} {p : Progress} {nodes : Array Node} {rest : List NodeId}
    {id : NodeId} {node : Node} (hnode : nodes[id]? = some node) (hchildren : node.children = [])
    (hstage : node.stage = .delayed) :
    e.consult Sequence.handler (.ofProgress p nodes rest) id node =
      (Evaluation.array (e.room p.report) node.spec p).map
        (Run.advance nodes id node rest) := by
  rw [consult_ofProgress, view_ofProgress hstage hchildren]
  by_cases hbounds : (Sequence.bounds node.spec).2 < (Sequence.bounds node.spec).1
  · rw [Sequence.handler_of_inverted node.spec rfl rfl _ hbounds,
      Evaluation.array_of_inverted _ _ hbounds]
    simp only [Option.map_some, Progress.after_same_scope, Report.countDropped_zero, settle,
      finish_ofProgress hnode hchildren]
  · rw [Sequence.handler_of_ordered node.spec (e.room p.report) rfl rfl rfl _ hbounds,
      Evaluation.array_of_ordered _ _ hbounds]
    cases Draw.between _ _ p.source with
    | none => rfl
    | some q =>
        obtain ⟨length, source⟩ := q
        simp only [Option.bind_some, Option.map_some, UInt64.zero_add, Progress.after_same_scope]
        by_cases hkept : Sequence.admitted (e.room p.report) length.toNat = 0
        · simp only [if_pos hkept, settle, finish_ofProgress hnode hchildren, Option.map_some]
        · have hroom : ∀ n ∈ e.room p.report, queuedCount (List.replicate
              (Sequence.admitted (e.room p.report) length.toNat)
              (.queued (node.spec.typeElements.getD .empty))) ≤ n := by
            intro n hn
            rw [queuedCount_replicate, Option.mem_def.1 hn]
            exact Nat.min_le_left _ _
          simp only [if_neg hkept, settle_family hnode hchildren hstage hroom,
            Evaluation.enlist_apply, Option.map_some]

/-! ## First visits -/

theorem get?_builtin {e : Engine} (he : e.handlers.registered = []) (s : Spec) :
    e.handlers.get? (HandlerKey.ofSpec s) = (Builtin.ofSpec? s).map Builtin.handler := by
  simp only [Handlers.get?, he, List.lookup_nil, Builtin.ofSpec?]

theorem isTooDeep_iff {e : Engine} {node : Node} :
    e.isTooDeep node = true ↔ e.IsTooDeep node.spec node.depth :=
  decide_eq_true_iff

theorem advance_setIfInBounds (nodes : Array Node) (id : NodeId) (node n : Node)
    (rest : List NodeId) :
    Run.advance (nodes.setIfInBounds id n) id node rest = Run.advance nodes id node rest := by
  funext ⟨response, p⟩
  cases response <;> simp [Run.advance, withFamily]

theorem consult_builtin {e : Engine} {p : Progress} {nodes : Array Node} {rest : List NodeId}
    {id : NodeId} {node : Node} (b : Builtin) (hnode : nodes[id]? = some node)
    (hchildren : node.children = []) (hstage : node.stage = .delayed) :
    e.consult b.handler (.ofProgress p nodes rest) id node =
      (e.answer b node.spec node.depth node.scope node.redirects p).map
        (Run.advance nodes id node rest) := by
  cases b with
  | record => exact consult_record hnode hchildren hstage
  | array => exact consult_array hnode hchildren hstage
  | choice => exact consult_choice hnode hchildren hstage
  | _ =>
      rw [Builtin.handler, consult_leaf hnode hchildren, view_ofProgress hstage hchildren]
      rfl

section Delayed

variable {e : Engine} {p : Progress} {nodes : Array Node} {rest : List NodeId} {id : NodeId}
  {node : Node} (hnode : nodes[id]? = some node) (hstage : node.stage = .delayed)
include hnode hstage

theorem turn_of_delayed :
    e.turn (.ofProgress p nodes (id :: rest)) =
      if e.isTooDeep { node with spec := e.registry.resolve node.spec } then
        some (Run.advance nodes id { node with spec := e.registry.resolve node.spec } rest
          (.settled ⟨.truncated, .null⟩, { p with report := p.report.countStep.countTruncated }))
      else
        e.dispatch
          (.ofProgress { p with report := p.report.countStep }
            (nodes.setIfInBounds id { node with spec := e.registry.resolve node.spec }) rest)
          id { node with spec := e.registry.resolve node.spec } := by
  have hfirst : ¬ node.stage = .toBuild := by simp [hstage]
  have hresolved : (nodes.setIfInBounds id
      { node with spec := e.registry.resolve node.spec })[id]? =
        some { node with spec := e.registry.resolve node.spec } := by
    rw [Array.getElem?_setIfInBounds_self_of_lt (Array.getElem?_eq_some_iff.1 hnode).1]
  simp only [turn, visit, Run.ofProgress, hnode, if_neg hfirst, Arena.modify,
    modify_eq_setIfInBounds _ hnode, Arena.truncate, modify_eq_setIfInBounds _ hresolved,
    Run.advance, Array.setIfInBounds_setIfInBounds]

variable (he : e.handlers.registered = [])
include he

theorem turn_eq_consult {b : Builtin}
    (hdeep : ¬ e.IsTooDeep (e.registry.resolve node.spec) node.depth)
    (hkind : Builtin.ofSpec? (e.registry.resolve node.spec) = some b) :
    e.turn (.ofProgress p nodes (id :: rest)) =
      e.consult b.handler
        (.ofProgress
          { p with
              report := p.report.countStep.countUsage
                (HandlerKey.ofSpec (e.registry.resolve node.spec)).label }
          (nodes.setIfInBounds id { node with spec := e.registry.resolve node.spec }) rest)
        id { node with spec := e.registry.resolve node.spec } := by
  have hfirst : ¬ node.stage = .toBuild := by simp [hstage]
  rw [turn_of_delayed hnode hstage, if_neg (mt isTooDeep_iff.1 hdeep), dispatch, get?_builtin he]
  simp only [hkind, Option.map_some, if_neg hfirst]
  rfl

theorem turn_eq_respond (hchildren : node.children = []) :
    e.turn (.ofProgress p nodes (id :: rest)) =
      (e.respond node.spec node.depth node.scope node.redirects p).map
        (Run.advance nodes id { node with spec := e.registry.resolve node.spec } rest) := by
  have hresolved : (nodes.setIfInBounds id
      { node with spec := e.registry.resolve node.spec })[id]? =
        some { node with spec := e.registry.resolve node.spec } := by
    rw [Array.getElem?_setIfInBounds_self_of_lt (Array.getElem?_eq_some_iff.1 hnode).1]
  by_cases hdeep : e.IsTooDeep (e.registry.resolve node.spec) node.depth
  · rw [turn_of_delayed hnode hstage, respond_of_deep _ _ _ hdeep,
      if_pos (isTooDeep_iff.2 hdeep)]
    rfl
  cases hkind : Builtin.ofSpec? (e.registry.resolve node.spec) with
  | none =>
      rw [turn_of_delayed hnode hstage, if_neg (mt isTooDeep_iff.1 hdeep), dispatch,
        get?_builtin he, respond_of_unknown _ _ _ hdeep hkind, hkind]
      have hdone : (Run.ofProgress { p with report := p.report.countStep.countUnknown } _
          rest).finish id .null = _ := finish_ofProgress hresolved hchildren .null
      rw [advance_setIfInBounds] at hdone
      exact congrArg some hdone
  | some b =>
      rw [turn_eq_consult hnode hstage he hdeep hkind, respond_of_builtin _ _ _ hdeep hkind,
        consult_builtin b hresolved hchildren hstage]
      simp only [advance_setIfInBounds]

end Delayed

/-! ## Second visits -/

theorem handler_of_toBuild {s : Spec} (hcomposite : s.IsComposite) :
    ∃ b, Builtin.ofSpec? s = some b ∧ ∀ v : Visit, v.stage = .toBuild →
      b.handler v = pure (.finish (assemble s v.children)) := by
  rcases hcomposite with hb | hb
  · refine ⟨_, hb, fun v hv => ?_⟩
    simp only [Builtin.handler, Record.handler, hv, assemble, hb]
  · refine ⟨_, hb, fun v hv => ?_⟩
    simp only [Builtin.handler, Sequence.handler, hv, assemble, hb]

theorem turn_eq_assemble {e : Engine} (he : e.handlers.registered = []) {p : Progress}
    {nodes : Array Node} {rest : List NodeId} {id : NodeId} {node : Node}
    (hnode : nodes[id]? = some node) (hstage : node.stage = .toBuild)
    (hcomposite : node.spec.IsComposite) :
    e.turn (.ofProgress p nodes (id :: rest)) =
      some ((Run.ofProgress { p with report := p.report.countStep } nodes rest).finish id
        (assemble node.spec (Arena.outcomes { nodes } node.children))) := by
  obtain ⟨b, hb, hhandler⟩ := handler_of_toBuild hcomposite
  have hturn : e.turn (.ofProgress p nodes (id :: rest)) =
      e.consult b.handler (.ofProgress { p with report := p.report.countStep } nodes rest)
        id node := by
    simp only [turn, visit, dispatch, Run.ofProgress, hnode, if_pos hstage, get?_builtin he, hb,
      Option.map_some]
  rw [hturn, consult_ofProgress, hhandler _ hstage, Action.pure_apply]
  simp only [Option.map_some, Progress.after_same_scope, Report.countDropped_zero, settle]
  rfl

end Engine

/-! ## The arena after a composite is put together -/

namespace Arena

theorem getElem?_foldl_release (a : Arena) (ids : List NodeId) (j : NodeId) :
    (ids.foldl release a).nodes[j]? =
      a.nodes[j]?.map fun n => if j ∈ ids then { n with value := none } else n := by
  induction ids generalizing a with
  | nil => simp
  | cons i ids ih =>
      rw [List.foldl_cons, ih, release, modify, Array.getElem?_modify]
      cases a.nodes[j]? with
      | none => simp
      | some n =>
          by_cases hi : i = j
          · by_cases hj : j ∈ ids <;> simp [hi, hj]
          · simp [hi, Ne.symm hi]

@[simp] theorem scopes_foldl_release (a : Arena) (ids : List NodeId) :
    (ids.foldl release a).scopes = a.scopes := by
  induction ids generalizing a with
  | nil => rfl
  | cons i ids ih => rw [List.foldl_cons, ih, release, modify]

/-- Finishing a node takes the values of its children and touches no other node. -/
theorem getElem?_finish {a : Arena} {id : NodeId} {node : Node} (v : Json)
    (hnode : a.nodes[id]? = some node) (j : NodeId) :
    (a.finish id v).nodes[j]? =
      if j = id then some { node with stage := .done, value := some v, children := [] }
      else
        a.nodes[j]?.map fun n => if j ∈ node.children then { n with value := none } else n := by
  rw [finish, modify, Array.getElem?_modify, getElem?_foldl_release, hnode]
  by_cases hj : j = id
  · subst hj
    by_cases hmem : j ∈ node.children <;> simp [hnode, hmem]
  · rw [if_neg (Ne.symm hj), if_neg hj, Option.map_some, Option.getD_some]

@[simp] theorem size_foldl_release (a : Arena) (ids : List NodeId) :
    (ids.foldl release a).nodes.size = a.nodes.size := by
  induction ids generalizing a with
  | nil => rfl
  | cons i ids ih => rw [List.foldl_cons, ih, release, modify, Array.size_modify]

@[simp] theorem size_finish (a : Arena) (id : NodeId) (v : Json) :
    (a.finish id v).nodes.size = a.nodes.size := by
  rw [finish, modify, Array.size_modify, size_foldl_release]

@[simp] theorem scopes_finish (a : Arena) (id : NodeId) (v : Json) :
    (a.finish id v).scopes = a.scopes := by
  rw [finish, modify, scopes_foldl_release]

end Arena

theorem Run.finish_eq_ofProgress (p : Progress) (nodes : Array Node) (rest : List NodeId)
    (id : NodeId) (v : Json) :
    (Run.ofProgress p nodes rest).finish id v =
      .ofProgress p (Arena.finish ⟨nodes, p.scopes⟩ id v).nodes rest := by
  have hscopes := Arena.scopes_finish ⟨nodes, p.scopes⟩ id v
  simp only [Run.finish, Run.ofProgress]
  exact congrArg (Run.mk · _ _ _ _) (congrArg (Arena.mk _) hscopes)

end Specimen
