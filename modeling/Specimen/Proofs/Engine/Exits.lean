import Specimen.Proofs.Engine.Termination
/-!
# How visits end

Every visit of a node has one of seven exits. `Engine.exit?` reads the exit of the next turn off
the node and off what its handler answers, before anything is counted, and `Engine.exit_of_turn`
says what the turn then does to the report, to the stack and to the node.
-/

namespace Specimen

open Specimen.Random Regex

/-- How the visit of a node ends. -/
inductive Exit where
  /-- The node lies too deep. -/
  | truncated
  /-- The node has no handler. -/
  | unknown
  /-- The handler of the node failed, or wanted to go on once too often. -/
  | failed
  /-- The handler has made the value of the node. -/
  | finished
  /-- The node goes on with another description. -/
  | again
  /-- The node waits for its children, so many of which are queued. -/
  | expanded (queued : Nat)
  /-- The node has been put together from its children. -/
  | assembled
  deriving DecidableEq, Repr

namespace Exit

/-- The exit of a new node that has gone on so often, by what its handler answers. -/
def ofAnswer (redirects : Nat) : Except Failure Verdict → Exit
  | .error _ | .ok .pending => failed
  | .ok (.finish _) => finished
  | .ok (.redirect _) => if maxRedirects ≤ redirects then failed else again
  | .ok (.expand _ children) => expanded (queuedCount children)

/-- Whether a handler was asked about a new node. -/
def isAsked : Exit → Bool
  | truncated | unknown | assembled => false
  | failed | finished | again | expanded _ => true

/-- Whether the node is not visited any more. -/
def isLast : Exit → Bool
  | again | expanded _ => false
  | truncated | unknown | failed | finished | assembled => true

/-- Whether the handler of the node has made its value. -/
def isMade (x : Exit) : Bool := x = finished ∨ x = assembled

def isExpanded : Exit → Bool
  | expanded _ => true
  | _ => false

/-- The children that are queued. -/
def queued : Exit → Nat
  | expanded n => n
  | _ => 0

/-- The stage that the node is in afterwards. -/
def stage : Exit → Stage
  | truncated => .truncated
  | again => .delayed
  | expanded _ => .toBuild
  | unknown | failed | finished | assembled => .done

/-- What is counted, apart from the step and from what is dropped. -/
def count (label : String) : Exit → Report → Report
  | truncated, r => r.countTruncated
  | unknown, r => r.countUnknown
  | failed, r => (r.countUsage label).countFailure
  | finished, r | again, r => r.countUsage label
  | expanded n, r => (r.countUsage label).countQueued n
  | assembled, r => r

/-- What a new node with this exit answers its visit with. -/
inductive Answers : Exit → Response → Prop
  | truncated : Answers truncated (.settled ⟨.truncated, .null⟩)
  | unknown : Answers unknown (.done .null)
  | failed : Answers failed (.done .null)
  | finished (v : Json) : Answers finished (.done v)
  | again (s : Spec) : Answers again (.again s)
  | expanded (scope : ScopeId) (children : List Child) :
      Answers (expanded (queuedCount children)) (.family scope children)

theorem Answers.ne_assembled {x : Exit} {response : Response} (h : x.Answers response) :
    x ≠ assembled := by
  cases h <;> nofun

end Exit

/-- A choice that has options goes on with the one that its roll falls on, if there is one. -/
theorem Choice.handler_of_roll {v : Visit} {s : Supply} {o : ChoiceOption Spec}
    {options : List (ChoiceOption Spec)} {roll : Float} {source : Source}
    (hoptions : v.spec.options = o :: options)
    (hroll : Draw.percent s.source = some (roll, source)) :
    Choice.handler v s =
      some (.ok ((Choice.select (100.0 / (o :: options).length.toFloat) roll (o :: options)).elim
        (.finish .null) .redirect), { s with source }) := by
  simp only [Choice.handler, hoptions, Action.draw_bind, hroll, Option.bind_some]
  cases Choice.select (100.0 / (o :: options).length.toFloat) roll (o :: options) <;> rfl

/-- What a built-in handler is supplied with for a node in a scope. -/
def Progress.supply (p : Progress) (scope : Option ScopeId) : Supply :=
  ⟨p.source, p.synthesizer, scope.bind fun i => p.scopes[i]?, 0⟩

namespace Engine

/-- The handler that a new node asks, if the node comes to that. -/
def builtin? (e : Engine) (node : Node) : Option Builtin :=
  if node.stage = .toBuild ∨ e.IsTooDeep (e.registry.resolve node.spec) node.depth then none
  else Builtin.ofSpec? (e.registry.resolve node.spec)

/-- What the handler of a new node does when it is called. -/
def called? (e : Engine) (r : Run) (node : Node) : Option (Except Failure Verdict × Supply) :=
  (e.builtin? node).bind (e.call r · node)

/-- The exit of a node that is visited next. -/
def exitOf? (e : Engine) (r : Run) (node : Node) : Option Exit :=
  if node.stage = .toBuild then some .assembled
  else if e.IsTooDeep (e.registry.resolve node.spec) node.depth then some .truncated
  else if e.builtin? node = none then some .unknown
  else (e.called? r node).map fun (answer, _) => .ofAnswer node.redirects answer

/-- The exit of the next visit, and the node that is visited. -/
def exit? (e : Engine) (r : Run) : Option (NodeId × Exit) := do
  let id ← r.stack.head?
  let node ← r.arena.nodes[id]?
  (e.exitOf? r node).map (id, ·)

/-- What the handler of the next node says it has dropped. -/
def discarded (e : Engine) (r : Run) : UInt64 :=
  ((r.stack.head?.bind (r.arena.nodes[·]?)).bind (e.called? r)).elim 0 fun (_, supply) =>
    supply.dropped

/-! ## Answers -/

/-- A handler has answered a first visit in this way, and the exit has been counted. -/
def Ended (h : Handler) (v : Visit) (scope : Option ScopeId) (redirects : Nat) (label : String)
    (p : Progress) (response : Response) (p' : Progress) : Prop :=
  ∃ answer supply, h v (p.supply scope) = some (answer, supply) ∧
    (Exit.ofAnswer redirects answer).Answers response ∧
    p'.report =
      ((Exit.ofAnswer redirects answer).count label p.report).countDropped supply.dropped

section Answer

variable {v : Visit} {scope : Option ScopeId} {redirects : Nat} {label : String}
    {p p' : Progress}
  {response : Response}

theorem ended_of_leaf {f : Visit → Action Json}
    (h : Evaluation.leaf scope (f v) { p with report := p.report.countUsage label } =
      some (response, p')) :
    Ended (.leaf f) v scope redirects label p response p' := by
  obtain ⟨x, supply, hrun, hx⟩ := Evaluation.leaf_eq_some h
  have hcall : Handler.leaf f v (p.supply scope) = some (x.map .finish, supply) := by
    rw [Handler.leaf_apply]
    exact Option.map_eq_some_iff.2 ⟨_, hrun, rfl⟩
  refine ⟨_, _, hcall, ?_⟩
  obtain ⟨w, rfl, rfl, rfl⟩ | ⟨err, rfl, rfl, rfl⟩ := hx
  · exact ⟨.finished w, rfl⟩
  · exact ⟨.failed, rfl⟩

theorem ended_of_record (hstage : v.stage = .delayed)
    (h : Evaluation.record v.room v.spec.keys { p with report := p.report.countUsage label } =
      some (response, p')) :
    Ended Record.handler v scope redirects label p response p' := by
  obtain ⟨plan, source, hplan, hrest⟩ := Evaluation.record_eq_some h
  refine ⟨_, _, (Record.handler_of_delayed v.spec v.room hstage rfl rfl _).trans
    (Option.map_eq_some_iff.2 ⟨_, hplan, rfl⟩), ?_⟩
  dsimp only [Progress.supply]
  rw [UInt64.zero_add]
  obtain ⟨hempty, rfl, rfl⟩ | ⟨hne, rfl, rfl⟩ := hrest
  · rw [if_pos (List.isEmpty_iff.2 hempty)]
    exact ⟨.finished _, rfl⟩
  · rw [if_neg (mt List.isEmpty_iff.1 hne)]
    exact ⟨.expanded _ _, rfl⟩

theorem ended_of_array (hstage : v.stage = .delayed)
    (h : Evaluation.array v.room v.spec { p with report := p.report.countUsage label } =
      some (response, p')) :
    Ended Sequence.handler v scope redirects label p response p' := by
  obtain ⟨hbounds, rfl, rfl⟩ | ⟨length, source, kept, hbounds, rfl, hdraw, hrest⟩ :=
    Evaluation.array_eq_some h
  · refine ⟨_, _, Sequence.handler_of_inverted v.spec hstage rfl _ hbounds, .finished _, ?_⟩
    exact (Report.countDropped_zero _).symm
  · refine ⟨_, _, (Sequence.handler_of_ordered v.spec v.room hstage rfl rfl _
      (Int.not_lt.2 hbounds)).trans (Option.map_eq_some_iff.2 ⟨_, hdraw, rfl⟩), ?_⟩
    dsimp only [Progress.supply]
    rw [UInt64.zero_add]
    obtain ⟨hkept, rfl, rfl⟩ | ⟨hkept, rfl, rfl⟩ := hrest
    · rw [if_pos hkept]
      exact ⟨.finished _, rfl⟩
    · rw [if_neg hkept]
      refine ⟨.expanded _ _, ?_⟩
      simp only [Exit.ofAnswer, Exit.count, queuedCount_replicate]
      rfl

theorem ended_of_choice
    (h : Evaluation.choice redirects v.spec.options
      { p with report := p.report.countUsage label } = some (response, p')) :
    Ended Choice.handler v scope redirects label p response p' := by
  cases hoptions : v.spec.options with
  | nil =>
      rw [hoptions] at h
      cases h
      refine ⟨.ok (.finish .null), p.supply scope, ?_, .finished _, ?_⟩
      · simp only [Choice.handler, hoptions]
        rfl
      · exact (Report.countDropped_zero _).symm
  | cons o options =>
      rw [hoptions] at h
      obtain ⟨hnil, -⟩ | ⟨roll, source, hroll, hrest⟩ := Evaluation.choice_eq_some h
      · cases hnil
      have hcall := Choice.handler_of_roll (s := p.supply scope) hoptions hroll
      refine ⟨_, _, hcall, ?_⟩
      simp only [Progress.supply, Report.countDropped_zero]
      obtain ⟨hselect, rfl, rfl⟩ | ⟨s, hselect, hredirect⟩ := hrest
      · rw [hselect]
        exact ⟨.finished _, rfl⟩
      · simp only [hselect, Option.elim_some, Exit.ofAnswer]
        obtain ⟨hlimit, rfl, rfl⟩ | ⟨hlimit, rfl, rfl⟩ := hredirect
        · rw [if_pos hlimit]
          exact ⟨.failed, rfl⟩
        · rw [if_neg (Nat.not_le.2 hlimit)]
          exact ⟨.again s, rfl⟩

/-- The answer to a first visit is what the handler makes of its
call, and its exit is counted. -/
theorem ended_of_answer {e : Engine} {b : Builtin} {spec : Spec} {depth : Nat}
    (h : e.answer b spec depth scope redirects { p with report := p.report.countUsage label } =
      some (response, p')) :
    Ended b.handler (e.firstVisit spec depth scope (e.room p.report)) scope redirects label p
      response p' := by
  cases b with
  | record => exact ended_of_record rfl h
  | array => exact ended_of_array rfl h
  | choice => exact ended_of_choice h
  | _ => exact ended_of_leaf h

end Answer

/-! ## Turns -/

/-- What the visit of a node with this exit does. -/
structure Leaving (e : Engine) (r s : Run) (id : NodeId) (x : Exit) : Prop where
  before : ∃ node, r.arena.nodes[id]? = some node ∧
    node.stage = if x = .assembled then .toBuild else .delayed
  after : ∃ node, s.arena.nodes[id]? = some node ∧ node.stage = x.stage
  stack : ∃ rest queued, r.stack = id :: rest ∧
    s.stack = queued ++ (if x.isLast then rest else id :: rest) ∧ queued.length = x.queued ∧
    queued.Nodup ∧ ∀ j ∈ queued, r.arena.nodes.size ≤ j
  report : ∃ label,
    s.report = (x.count label r.report.countStep).countDropped (e.discarded r)

variable {e : Engine} {r s : Run} {id : NodeId} {rest : List NodeId} {node : Node}

theorem exit?_eq_some_iff {x : Exit} : e.exit? r = some (id, x) ↔ ∃ rest node,
    r.stack = id :: rest ∧ r.arena.nodes[id]? = some node ∧ e.exitOf? r node = some x := by
  cases hstack : r.stack with
  | nil => simp [exit?, hstack]
  | cons top rest =>
      simp only [exit?, hstack, List.head?_cons, Option.bind_eq_bind, Option.bind_some,
        Option.bind_eq_some_iff, Option.map_eq_some_iff, Prod.mk.injEq, List.cons.injEq]
      constructor
      · rintro ⟨node, hnode, y, hy, rfl, rfl⟩
        exact ⟨rest, node, ⟨rfl, rfl⟩, hnode, hy⟩
      · rintro ⟨_, node, ⟨rfl, rfl⟩, hnode, hx⟩
        exact ⟨node, hnode, x, hx, rfl, rfl⟩

section Top

variable (hstack : r.stack = id :: rest) (hnode : r.arena.nodes[id]? = some node)
include hstack hnode

theorem exit?_of_waiting (hstage : node.stage = .toBuild) :
    e.exit? r = some (id, .assembled) ∧ e.discarded r = 0 := by
  simp [exit?, exitOf?, discarded, called?, builtin?, hstack, hnode, hstage]

/-- The exit of a new node is the one that its answer shows, and it is counted. -/
theorem exit_of_respond (hstage : node.stage = .delayed) {response : Response} {p : Progress}
    (h : e.respond node.spec node.depth node.scope node.redirects r.progress =
      some (response, p)) :
    ∃ x label, e.exit? r = some (id, x) ∧ x.Answers response ∧ x ≠ .assembled ∧
      p.report = (x.count label r.report.countStep).countDropped (e.discarded r) := by
  obtain ⟨hdeep, rfl, rfl⟩ | ⟨hdeep, hkind, rfl, rfl⟩ | ⟨b, hdeep, hkind, h⟩ := respond_eq_some h
  · refine ⟨.truncated, "", ?_, .truncated, by decide, ?_⟩
    · simp [exit?, exitOf?, hstack, hnode, hstage, hdeep]
    · simp [discarded, called?, builtin?, hstack, hnode, hdeep]
      rfl
  · have hbuiltin : e.builtin? node = none := by simp [builtin?, hstage, hdeep, hkind]
    refine ⟨.unknown, "", ?_, .unknown, by decide, ?_⟩
    · simp [exit?, exitOf?, hstack, hnode, hstage, hdeep, hbuiltin]
    · simp [discarded, called?, hstack, hnode, hbuiltin]
      rfl
  · obtain ⟨answer, supply, hcall, hanswers, hreport⟩ :=
      ended_of_answer (p := { r.progress with report := r.report.countStep }) h
    have hbuiltin : e.builtin? node = some b := by simp [builtin?, hstage, hdeep, hkind]
    have hcalled : e.called? r node = some (answer, supply) := by
      rw [called?, hbuiltin]
      exact hcall
    refine ⟨_, (HandlerKey.ofSpec (e.registry.resolve node.spec)).label, ?_, hanswers,
      hanswers.ne_assembled, ?_⟩
    · simp [exit?, exitOf?, hstack, hnode, hstage, hdeep, hbuiltin, hcalled]
    · rw [hreport]
      simp [discarded, hstack, hnode, hcalled]

end Top

/-- Every turn is the visit of a node with the exit that was to be expected. -/
theorem exit_of_turn (he : e.handlers.registered = []) (h : Orderly r.arena.nodes r.stack)
    (hstack : r.stack ≠ []) (hturn : e.turn r = some s) :
    ∃ id x, e.exit? r = some (id, x) ∧ e.Leaving r s id x := by
  obtain ⟨id, rest, node, hr, hnode, ⟨hstage, response, p, hrespond, rfl⟩ | ⟨hstage, rfl⟩⟩ :=
    turn_cases he h hstack hturn
  · obtain ⟨x, label, hexit, hanswers, hne, hreport⟩ := exit_of_respond hr hnode hstage hrespond
    have hid := (Array.getElem?_eq_some_iff.1 hnode).1
    refine ⟨id, x, hexit, ⟨node, hnode, by rw [if_neg hne, hstage]⟩, ?after, ?stack,
      label, ?report⟩
    case after =>
        cases hanswers <;>
        first
          | exact ⟨_, Array.getElem?_setIfInBounds_self_of_lt hid, rfl⟩
          | exact ⟨_, Array.getElem?_setIfInBounds_self_of_lt hid, hstage⟩
          | exact ⟨_, (getElem?_withFamily _ _ _ hid).trans (if_pos rfl), rfl⟩
    case stack =>
        cases hanswers with
        | again t => exact ⟨rest, [], hr, rfl, rfl, List.nodup_nil, by simp⟩
        | expanded scope children =>
            exact ⟨rest, _, hr, rfl, length_queuedIds _ _, nodup_queuedIds _ _,
              fun j => le_of_mem_queuedIds⟩
        | _ => exact ⟨rest, [], hr, rfl, rfl, List.nodup_nil, by simp⟩
    case report => cases hanswers <;> exact hreport
  · obtain ⟨hexit, hnone⟩ := exit?_of_waiting (e := e) hr hnode hstage
    refine ⟨id, .assembled, hexit, ⟨node, hnode, hstage⟩, ?after, ?stack, "", ?report⟩
    case after =>
        rw [Run.finish_eq_ofProgress]
        exact ⟨_, (Arena.getElem?_finish _ hnode id).trans (if_pos rfl), rfl⟩
    case stack => exact ⟨rest, [], hr, rfl, rfl, List.nodup_nil, by simp⟩
    case report =>
        rw [hnone, Report.countDropped_zero]
        rfl

/-! ## The exits of a generation -/

/-- The exits of the first visits of a generation, in their order, with the nodes visited. -/
def exits (e : Engine) (start : Run) (n : Nat) : List (NodeId × Exit) :=
  (List.range n).filterMap fun m => (e.turns m start).bind e.exit?

theorem exits_succ {start : Run} {n : Nat} (hr : e.turns n start = some r) :
    e.exits start (n + 1) = e.exits start n ++ (e.exit? r).toList :=
  filterMap_turns_succ hr _

theorem mem_exits {start : Run} {n : Nat} {id : NodeId} {x : Exit} :
    (id, x) ∈ e.exits start n ↔
      ∃ m < n, ∃ q, e.turns m start = some q ∧ e.exit? q = some (id, x) := by
  simp only [exits, List.mem_filterMap, List.mem_range, Option.bind_eq_some_iff]

end Engine

end Specimen
