import Specimen.Proofs.Engine.Agenda
import Specimen.Proofs.Engine.Budget
import Specimen.Proofs.Random.Words
/-!
# Termination

No generation goes on for ever, not even that of a description which refers to itself: there is a
number of turns that no source, however long, can make it exceed, and it returns if every call of
a leaf handler returns and the source has words for the other handlers. By then it has taken at
most 66 steps for each node ever queued, as a node is visited 65 times at most before it has a
value or waits for children, and once to be put together (`Engine.terminates`).
-/

namespace Specimen

open Specimen.Random Regex

/-- The node on top of the stack, with its stage. -/
def Run.top? (r : Run) : Option (NodeId × Stage) :=
  r.stack.head?.bind fun id => r.arena.nodes[id]?.map fun node => (id, node.stage)

namespace Engine

/-- How often a node is visited at a stage, from the start up to the turn after `n` others. -/
def visits (e : Engine) (start : Run) (id : NodeId) (stage : Stage) (n : Nat) : Nat :=
  (List.range n).countP fun m => (e.turns m start).bind Run.top? = some (id, stage)

/-- The call of a handler at the first visit of a node. -/
def call (e : Engine) (r : Run) (b : Builtin) (node : Node) :
    Option (Except Failure Verdict × Supply) :=
  b.handler (e.firstVisit (e.registry.resolve node.spec) node.depth node.scope (e.room r.report))
    ⟨r.source, r.synthesizer, r.arena.scope? node.scope, 0⟩

/-- The handler that is asked next returns: a leaf handler when it is called, and the others as
the source has words for their draws. -/
def Supplied (e : Engine) (r : Run) : Prop :=
  ∀ (id : NodeId) (rest : List NodeId) (node : Node) (b : Builtin), r.stack = id :: rest →
    r.arena.nodes[id]? = some node → node.stage = .delayed →
    Builtin.ofSpec? (e.registry.resolve node.spec) = some b →
    match b with
    | .record =>
      2 * (Record.occurrences (e.registry.resolve node.spec).keys).length ≤ r.source.remaining
    | .array => 4 ≤ r.source.remaining
    | .choice => 2 ≤ r.source.remaining
    | _ => (e.call r b node).isSome

variable {e : Engine} {r s : Run} {id : NodeId} {rest : List NodeId} {node : Node}

/-! ## Calls -/

section Call

variable (he : e.handlers.registered = []) (h : Orderly r.arena.nodes r.stack)
  (hstack : r.stack = id :: rest) (hnode : r.arena.nodes[id]? = some node)
  (hstage : node.stage = .delayed)
include he h hstack hnode hstage

theorem turn_eq_call {b : Builtin}
    (hdeep : ¬ e.IsTooDeep (e.registry.resolve node.spec) node.depth)
    (hkind : Builtin.ofSpec? (e.registry.resolve node.spec) = some b) :
    ∃ (p : Progress) (nodes : Array Node),
      nodes[id]? = some { node with spec := e.registry.resolve node.spec } ∧
      p.report.handlerFailures = r.report.handlerFailures ∧
      e.turn r = (e.call r b node).map fun (answer, supply) =>
        match answer with
        | .error _ => (Run.ofProgress (p.after node.scope supply) nodes rest).fail id
        | .ok verdict =>
          settle (.ofProgress (p.after node.scope supply) nodes rest) id
            { node with spec := e.registry.resolve node.spec } (e.room r.report) verdict := by
  have hnil := h.children_eq_nil hnode (by simp [hstage])
  have hturn := congrArg e.turn (Run.eq_ofProgress hstack)
  rw [turn_eq_consult hnode hstage he hdeep hkind, consult_ofProgress,
    view_ofProgress (by exact hstage) (by exact hnil)] at hturn
  refine ⟨_, _, ?_, ?_, hturn⟩
  · exact Array.getElem?_setIfInBounds_self_of_lt (Array.getElem?_eq_some_iff.1 hnode).1
  · rfl

/-- Where a node may not go on any more, it becomes null and a failure is counted. -/
theorem turn_of_refused {b : Builtin}
    (hdeep : ¬ e.IsTooDeep (e.registry.resolve node.spec) node.depth)
    (hkind : Builtin.ofSpec? (e.registry.resolve node.spec) = some b) {t : Spec}
    {supply : Supply} (hcall : e.call r b node = some (.ok (.redirect t), supply))
    (hlimit : maxRedirects ≤ node.redirects) :
    ∃ s, e.turn r = some s ∧ s.stack = rest ∧ s.arena.outcome id = ⟨.done, .null⟩ ∧
      s.report.handlerFailures = r.report.handlerFailures + 1 := by
  have hnil := h.children_eq_nil hnode (by simp [hstage])
  obtain ⟨p, nodes, hresolved, hfailures, hturn⟩ :=
    turn_eq_call he h hstack hnode hstage hdeep hkind
  have hid := (Array.getElem?_eq_some_iff.1 hresolved).1
  rw [hcall, Option.map_some] at hturn
  simp only [settle, if_pos (Or.inr hlimit)] at hturn
  rw [fail_ofProgress hresolved (by exact hnil)] at hturn
  refine ⟨_, hturn, rfl, ?_, congrArg (· + 1) hfailures⟩
  simp [Run.advance, Response.done, Run.ofProgress, Arena.outcome, hid, Json.ofOption]

omit he h in
theorem isSome_call_of_supplied {b : Builtin}
    (hkind : Builtin.ofSpec? (e.registry.resolve node.spec) = some b)
    (hsupplied : e.Supplied r) :
    (e.call r b node).isSome := by
  have hwords := hsupplied id rest node b hstack hnode hstage hkind
  cases b with
  | record =>
      rw [call, Builtin.handler,
        Record.handler_of_delayed (e.registry.resolve node.spec) (e.room r.report) rfl rfl rfl]
      obtain ⟨plan, source, hplan, -⟩ := Record.takes_plan _ { room := e.room r.report } _ hwords
      simp [hplan]
  | array =>
      by_cases hbounds : (Sequence.bounds (e.registry.resolve node.spec)).2 <
          (Sequence.bounds (e.registry.resolve node.spec)).1
      · rw [call, Builtin.handler,
          Sequence.handler_of_inverted (e.registry.resolve node.spec) rfl rfl _ hbounds]
        rfl
      · rw [call, Builtin.handler, Sequence.handler_of_ordered (e.registry.resolve node.spec)
          (e.room r.report) rfl rfl rfl _ hbounds]
        obtain ⟨length, source, hdraw, -⟩ := Draw.takes_between
          (Sequence.bounds (e.registry.resolve node.spec)).1
          (Sequence.bounds (e.registry.resolve node.spec)).2 _ hwords
        simp [hdraw]
  | choice =>
      rw [call, Builtin.handler]
      simp only [Choice.handler, firstVisit]
      cases (e.registry.resolve node.spec).options with
      | nil => rfl
      | cons o options =>
          obtain ⟨roll, source, hroll, -⟩ := Draw.takes_percent _ hwords
          simp only [Action.draw_bind, hroll, Option.bind_some]
          cases Choice.select _ roll (o :: options) <;> rfl
  | _ => exact hwords

end Call

theorem exists_turn_of_supplied (he : e.handlers.registered = [])
    (h : Orderly r.arena.nodes r.stack) (hstack : r.stack ≠ []) (hsupplied : e.Supplied r) :
    ∃ s, e.turn r = some s := by
  obtain ⟨id, rest, hr⟩ := List.exists_cons_of_ne_nil hstack
  obtain ⟨node, hnode, hthrough⟩ := h.mem_stack.1 (hr ▸ List.mem_cons_self)
  cases hstage : node.stage with
  | delayed =>
      have hnil := h.children_eq_nil hnode (by simp [hstage])
      by_cases hdeep : e.IsTooDeep (e.registry.resolve node.spec) node.depth
      · rw [Run.eq_ofProgress hr, turn_eq_respond hnode hstage he hnil,
          respond_of_deep _ _ _ hdeep]
        exact ⟨_, rfl⟩
      cases hkind : Builtin.ofSpec? (e.registry.resolve node.spec) with
      | none =>
          rw [Run.eq_ofProgress hr, turn_eq_respond hnode hstage he hnil,
            respond_of_unknown _ _ _ hdeep hkind]
          exact ⟨_, rfl⟩
      | some b =>
          obtain ⟨p, nodes, -, -, hturn⟩ := turn_eq_call he h hr hnode hstage hdeep hkind
          obtain ⟨answer, hcall⟩ := Option.isSome_iff_exists.1
            (isSome_call_of_supplied hr hnode hstage hkind hsupplied)
          rw [hturn, hcall]
          exact ⟨_, rfl⟩
  | toBuild => exact ⟨_, assemble_of_turn he h hr hnode hstage⟩
  | done => simp [hstage, Stage.isThrough] at hthrough
  | truncated => simp [hstage, Stage.isThrough] at hthrough

/-! ## Counting the visits of a node -/

section Visits

variable {root : Spec} {source : Source} {synthesizer : Synthesizer} {n : Nat}

theorem visits_succ (start : Run) (id : NodeId) (stage : Stage) (n : Nat) :
    e.visits start id stage (n + 1) = e.visits start id stage n +
      if (e.turns n start).bind Run.top? = some (id, stage) then 1 else 0 := by
  rw [visits, List.range_succ, List.countP_append, ← visits]
  simp [List.countP_singleton]

theorem top?_eq_some {stage : Stage} : r.top? = some (id, stage) ↔
    ∃ rest node, r.stack = id :: rest ∧ r.arena.nodes[id]? = some node ∧ node.stage = stage := by
  cases hstack : r.stack with
  | nil => simp [Run.top?, hstack]
  | cons top rest =>
      simp only [Run.top?, hstack, List.head?_cons, Option.bind_some, Option.map_eq_some_iff,
        Prod.mk.injEq, List.cons.injEq]
      constructor
      · rintro ⟨node, hnode, rfl, rfl⟩
        exact ⟨rest, node, ⟨rfl, rfl⟩, hnode, rfl⟩
      · rintro ⟨-, node, ⟨rfl, -⟩, hnode, rfl⟩
        exact ⟨node, hnode, rfl, rfl⟩

/-- The visits of a node so far. While it is delayed it has gone on after each of them. -/
structure Visited (node : Node) (delayed toBuild : Nat) : Prop where
  delayed_eq : node.stage = .delayed → delayed = node.redirects
  delayed_le : delayed ≤ maxRedirects + 1
  toBuild_eq : node.stage.isThrough = false → toBuild = 0
  toBuild_le : toBuild ≤ 1

variable (he : e.handlers.registered = [])
include he

theorem visits_eq_zero (hr : e.turns n (Run.start root source synthesizer) = some r)
    (hnone : r.arena.nodes[id]? = none) (stage : Stage) :
    e.visits (Run.start root source synthesizer) id stage n = 0 := by
  refine List.countP_eq_zero.2 fun m hm htop => ?_
  obtain ⟨q, hq⟩ := exists_turns_of_le hr (Nat.le_of_lt (List.mem_range.1 hm))
  have hsize := size_le_of_turns he hq hr (Nat.le_of_lt (List.mem_range.1 hm))
  have hout := Array.getElem?_eq_none_iff.1 hnone
  simp only [decide_eq_true_eq, hq, Option.bind_some] at htop
  obtain ⟨-, node, -, hnode, -⟩ := top?_eq_some.1 htop
  have := (Array.getElem?_eq_some_iff.1 hnode).1
  omega

theorem visited_of_turns (hr : e.turns n (Run.start root source synthesizer) = some r)
    (hnode : r.arena.nodes[id]? = some node) :
    Visited node (e.visits (Run.start root source synthesizer) id .delayed n)
      (e.visits (Run.start root source synthesizer) id .toBuild n) := by
  induction n generalizing r id node with
  | zero =>
      cases hr
      cases id with
      | zero =>
          cases hnode
          exact ⟨fun _ => rfl, Nat.zero_le _, fun _ => rfl, Nat.zero_le _⟩
      | succ id => simp [Run.start] at hnode
  | succ n ih =>
      obtain ⟨q, hq, hne, hturn⟩ := turns_succ_eq_some.1 hr
      have h := orderly_of_turns he hq
      obtain ⟨top, rest, m, hstack, hm, -⟩ := turn_cases he h hne hturn
      have hredirects := redirects_le_of_turns he hq hm
      have htop := top?_eq_some.2 ⟨rest, m, hstack, hm, rfl⟩
      simp only [visits_succ, hq, Option.bind_some, htop]
      cases leaves_of_turn he h hstack hm hturn hnode with
      | other value hj hold =>
          have hbefore := ih hq hold
          have hother : ∀ stage, ¬ some (top, m.stage) = some (id, stage) := by
            intro stage hsame
            cases hsame
            exact hj rfl
          simp only [hother, if_false, Nat.add_zero]
          exact ⟨hbefore.delayed_eq, hbefore.delayed_le, hbefore.toBuild_eq, hbefore.toBuild_le⟩
      | @child c scope hnone hc =>
          have hother : ∀ stage, ¬ some (top, m.stage) = some (id, stage) := by
            intro stage hsame
            cases hsame
            simp [hm] at hnone
          simp only [hother, if_false, Nat.add_zero, visits_eq_zero he hq hnone]
          refine ⟨fun _ => ?_, Nat.zero_le _, fun _ => rfl, Nat.zero_le _⟩
          cases c <;> rfl
      | through hj hthrough hsame hspec =>
          cases hj
          have hbefore := ih hq hm
          have hdone : node.stage = .delayed → False := fun hstage => by
            simp [hstage, Stage.isThrough] at hthrough
          refine ⟨fun hstage => (hdone hstage).elim, ?_, fun hfalse => ?_, ?_⟩
          · cases hstage : m.stage with
            | delayed =>
                have hcount := hbefore.delayed_eq hstage
                simp only [if_true]
                omega
            | _ => simpa using hbefore.delayed_le
          · simp [hthrough] at hfalse
          · cases hstage : m.stage with
            | toBuild =>
                have hcount := hbefore.toBuild_eq (by simp [hstage, Stage.isThrough])
                simp [hcount]
            | _ => simpa using hbefore.toBuild_le
      | again hj hstage hlt hs =>
          cases hj
          have hbefore := ih hq hm
          have hcount := hbefore.delayed_eq hstage
          have hnever := hbefore.toBuild_eq (by simp [hstage, Stage.isThrough])
          refine ⟨fun _ => ?_, ?_, fun _ => ?_, ?_⟩ <;> simp [hstage, hcount, hnever]
          omega
      | waits children hj hstage =>
          cases hj
          have hbefore := ih hq hm
          have hcount := hbefore.delayed_eq hstage
          have hnever := hbefore.toBuild_eq (by simp [hstage, Stage.isThrough])
          refine ⟨fun hagain => (by cases hagain), ?_, fun _ => ?_, ?_⟩ <;>
            simp [hstage, hcount, hnever]
          omega

omit he in
/-- A bound on the visits of a node at the moments at which it is visited is one for all. -/
theorem visits_le {bound : Nat} {stage : Stage} (hbound : ∀ n r node,
      e.turns n (Run.start root source synthesizer) = some r → r.arena.nodes[id]? = some node →
      node.stage = stage → e.visits (Run.start root source synthesizer) id stage n < bound)
    (n : Nat) : e.visits (Run.start root source synthesizer) id stage n ≤ bound := by
  induction n with
  | zero => exact Nat.zero_le _
  | succ n ih =>
      rw [visits_succ]
      split
      · rename_i htop
        obtain ⟨r, hr, htop⟩ := Option.bind_eq_some_iff.1 htop
        obtain ⟨-, node, -, hnode, hstage⟩ := top?_eq_some.1 htop
        exact hbound n r node hr hnode hstage
      · exact ih

end Visits

/-! ## The end of a generation -/

section Generation

variable {root : Spec} {source : Source} {synthesizer : Synthesizer} {n : Nat}
  (he : e.handlers.registered = [])
include he

/-- The steps so far and the visits that are left are paid for by the nodes that were queued. -/
theorem steps_le_of_turns (hr : e.turns n (Run.start root source synthesizer) = some r) :
    n + (r.agenda.map Prod.snd).sum ≤ (maxRedirects + 2) * r.report.nodesQueued := by
  obtain ⟨limit, hlimit, hroot⟩ := e.exists_limitedBy root
  induction n generalizing r with
  | zero =>
      cases hr
      exact Nat.le_refl _
  | succ n ih =>
      obtain ⟨q, hq, hstack, hturn⟩ := turns_succ_eq_some.1 hr
      obtain ⟨queued, hqueued, hstep⟩ := agenda_of_turn he (orderly_of_turns he hq) hlimit
        (fun j m => limited_of_turns he hq hlimit hroot) hstack hturn
      have hbefore := ih hq
      have hpays := hstep.pays
      rw [hqueued, Nat.mul_add]
      omega

/-- The depth limits and the widths of the descriptions bound the turns, and the bound
knows nothing of the source. -/
theorem turns_le_turnsWithin {limit width : Nat} (hlimit : e.LimitedBy limit)
    (hroot : root.LimitedBy limit) (hregistry : e.registry.Everywhere fun t => t.width ≤ width)
    (hwidth : root.Everywhere fun t => t.width ≤ width)
    (hr : e.turns n (Run.start root source synthesizer) = some r) :
    n + (r.agenda.map (AgendaStep.cost limit width)).sum ≤ turnsWithin width (limit + 1) := by
  induction n generalizing r with
  | zero =>
      cases hr
      have hstart : (Run.start root source synthesizer).agenda = [(0, maxRedirects + 2)] := rfl
      rw [hstart, turnsWithin_succ]
      simp [AgendaStep.cost, Nat.add_comm]
  | succ n ih =>
      obtain ⟨q, hq, hstack, hturn⟩ := turns_succ_eq_some.1 hr
      have h := orderly_of_turns he hq
      obtain ⟨queued, hqueued, hstep⟩ := agenda_of_turn he h hlimit
        (fun j m => limited_of_turns he hq hlimit hroot) hstack hturn
      have hle : queued ≤ width := by
        have hnodes := queued_le_width_of_turn he h (fun j m => everywhere_of_turns he hq
          (Nat.zero_le _) hregistry hwidth) hregistry hstack hturn
        omega
      have hbefore := ih hq
      have hless := hstep.cost_lt hle
      omega

/-- The turns of a generation are bounded before any word is drawn. -/
theorem exists_turns_bound (root : Spec) :
    ∃ bound, ∀ (source : Source) (synthesizer : Synthesizer) (n : Nat), bound < n →
      e.turns n (Run.start root source synthesizer) = none := by
  obtain ⟨limit, hlimit, hroot⟩ := e.exists_limitedBy root
  obtain ⟨width, hregistry, hwidth⟩ := e.exists_bound Spec.width root
  refine ⟨turnsWithin width (limit + 1), fun source synthesizer n hn => ?_⟩
  refine Option.eq_none_iff_forall_not_mem.2 fun r hr => ?_
  have := turns_le_turnsWithin he hlimit hroot hregistry hwidth hr
  omega

/-- The last moment of a generation whose handlers all return is one with an empty stack. -/
theorem exists_end_of_supplied (hsupplied : ∀ n r,
      e.turns n (Run.start root source synthesizer) = some r → e.Supplied r) :
    ∃ n final, e.turns n (Run.start root source synthesizer) = some final ∧
      final.stack = [] := by
  obtain ⟨bound, hbound⟩ := exists_turns_bound he root
  have hn := hbound source synthesizer (bound + 1) (Nat.lt_succ_self bound)
  generalize bound + 1 = n at hn
  induction n with
  | zero => cases hn
  | succ n ih =>
      cases hr : e.turns n (Run.start root source synthesizer) with
      | none => exact ih hr
      | some r =>
          refine ⟨n, r, hr, Classical.byContradiction fun hstack => ?_⟩
          obtain ⟨s, hs⟩ :=
            exists_turn_of_supplied he (orderly_of_turns he hr) hstack (hsupplied n r hr)
          rw [turns_succ_eq_some.2 ⟨r, hr, hstack, hs⟩] at hn
          cases hn

end Generation

/-- What bounds the generations of a description. -/
structure Terminates (e : Engine) (root : Spec) : Prop where
  /-- There is no endless run: one bound holds for every source. -/
  ends : ∃ bound, ∀ (source : Source) (synthesizer : Synthesizer) (n : Nat), bound < n →
    e.turns n (Run.start root source synthesizer) = none
  /-- A run only stops short where a handler does not return. -/
  returns : ∀ (source : Source) (synthesizer : Synthesizer),
    (∀ n r, e.turns n (Run.start root source synthesizer) = some r → e.Supplied r) →
    ∃ fuel final, e.run fuel (Run.start root source synthesizer) = some final ∧
      fuel ≤ 66 * final.report.nodesQueued
  steps : ∀ (source : Source) (synthesizer : Synthesizer) (n : Nat) (r : Run),
    e.turns n (Run.start root source synthesizer) = some r →
    r.report.steps = n ∧ r.report.steps ≤ 66 * r.report.nodesQueued
  delayed : ∀ (source : Source) (synthesizer : Synthesizer) (id : NodeId) (n : Nat),
    e.visits (Run.start root source synthesizer) id .delayed n ≤ 65
  toBuild : ∀ (source : Source) (synthesizer : Synthesizer) (id : NodeId) (n : Nat),
    e.visits (Run.start root source synthesizer) id .toBuild n ≤ 1
  /-- A node that would go on once more after 64 times becomes null, and a failure is counted. -/
  refused : ∀ (source : Source) (synthesizer : Synthesizer) (n : Nat) (r : Run) (id : NodeId)
    (rest : List NodeId) (node : Node) (b : Builtin) (t : Spec) (supply : Supply),
    e.turns n (Run.start root source synthesizer) = some r → r.stack = id :: rest →
    r.arena.nodes[id]? = some node → node.stage = .delayed →
    e.visits (Run.start root source synthesizer) id .delayed n = 64 →
    ¬ e.IsTooDeep (e.registry.resolve node.spec) node.depth →
    Builtin.ofSpec? (e.registry.resolve node.spec) = some b →
    e.call r b node = some (.ok (.redirect t), supply) →
    ∃ s, e.turns (n + 1) (Run.start root source synthesizer) = some s ∧ s.stack = rest ∧
      s.arena.outcome id = ⟨.done, .null⟩ ∧
      s.report.handlerFailures = r.report.handlerFailures + 1
  /-- With a size limit the number of steps is bounded by it. -/
  limited : ∀ limit, e.maxSize = some limit →
    ∀ (source : Source) (synthesizer : Synthesizer) (n : Nat), 66 * max limit 1 < n →
      e.turns n (Run.start root source synthesizer) = none
  returns_limited : ∀ (source : Source) (synthesizer : Synthesizer),
    (∀ n r, e.turns n (Run.start root source synthesizer) = some r → e.Supplied r) →
    ∀ limit, e.maxSize = some limit →
      ∃ final, e.run (66 * max limit 1) (Run.start root source synthesizer) = some final

/-- With the built-in handlers alone every generation comes to an end, within 66 steps for each
node that it queues. -/
theorem terminates {e : Engine} (he : e.handlers.registered = []) (root : Spec) :
    e.Terminates root := by
  have hsteps : ∀ (source : Source) (synthesizer : Synthesizer) (n : Nat) (r : Run),
      e.turns n (Run.start root source synthesizer) = some r →
      n ≤ 66 * r.report.nodesQueued := by
    intro source synthesizer n r hr
    have hpaid := steps_le_of_turns he hr
    simp only [maxRedirects] at hpaid
    omega
  have hlimited : ∀ limit, e.maxSize = some limit →
      ∀ (source : Source) (synthesizer : Synthesizer) (n : Nat) (r : Run),
        e.turns n (Run.start root source synthesizer) = some r → n ≤ 66 * max limit 1 := by
    intro limit hlimit source synthesizer n r hr
    have hqueued := nodesQueued_le_of_turns he hr hlimit
    have := hsteps source synthesizer n r hr
    omega
  refine ⟨exists_turns_bound he root, ?returns, ?steps, ?delayed, ?toBuild, ?refused, ?limited,
    ?returns_limited⟩
  case returns =>
      intro source synthesizer hsupplied
      obtain ⟨n, final, hfinal, hstack⟩ := exists_end_of_supplied he hsupplied
      exact ⟨n, final, run_eq_some_iff.2 ⟨n, Nat.le_refl n, hfinal, hstack⟩,
        hsteps source synthesizer n final hfinal⟩
  case steps =>
      intro source synthesizer n r hr
      rw [steps_of_turns he hr]
      exact ⟨rfl, hsteps source synthesizer n r hr⟩
  case delayed =>
      intro source synthesizer id
      apply visits_le
      intro n r node hr hnode hstage
      have hredirects := redirects_le_of_turns he hr hnode
      rw [(visited_of_turns he hr hnode).delayed_eq hstage]
      simp only [maxRedirects] at hredirects
      omega
  case toBuild =>
      intro source synthesizer id
      apply visits_le
      intro n r node hr hnode hstage
      rw [(visited_of_turns he hr hnode).toBuild_eq (by simp [hstage, Stage.isThrough])]
      exact Nat.one_pos
  case refused =>
      intro source synthesizer n r id rest node b t supply hr hstack hnode hstage hvisits hdeep
        hkind hcall
      rw [(visited_of_turns he hr hnode).delayed_eq hstage] at hvisits
      obtain ⟨s, hs, hafter⟩ := turn_of_refused he (orderly_of_turns he hr) hstack hnode hstage
        hdeep hkind hcall (Nat.le_of_eq hvisits.symm)
      exact ⟨s, (turns_succ_of_cons hr hstack).trans hs, hafter⟩
  case limited =>
      intro limit hlimit source synthesizer n hn
      refine Option.eq_none_iff_forall_not_mem.2 fun r hr => ?_
      have := hlimited limit hlimit source synthesizer n r hr
      omega
  case returns_limited =>
      intro source synthesizer hsupplied limit hlimit
      obtain ⟨n, final, hfinal, hstack⟩ := exists_end_of_supplied he hsupplied
      exact ⟨final, run_eq_some_iff.2
        ⟨n, hlimited limit hlimit source synthesizer n final hfinal, hfinal, hstack⟩⟩

/-- A record that holds itself, down to the depth of one. -/
def nested : Spec where
  kind := some "record"
  keys := [⟨.fixed "inner", { loadRef := some "nested" }, 1, .always⟩]
  storeRef := some "nested"

def nestedEngine : Engine where
  registry := Registry.build nested
  handlers := {}
  providers := .absent
  maxDepth := 1
  maxSize := none

/-- Whether the next node is a record that two words are enough for, or it is put together. -/
def isModest (r : Run) : Bool :=
  (r.stack.head?.bind (r.arena.nodes[·]?)).all fun node =>
    node.stage = .toBuild ||
      (Builtin.ofSpec? (nestedEngine.registry.resolve node.spec) = some .record &&
        (Record.occurrences (nestedEngine.registry.resolve node.spec).keys).length = 1 &&
        r.source.remaining = 2)

theorem isModest_of_turns : ∀ n < 4,
    (nestedEngine.turns n (Run.start nested (.tape [0, 0]) {})).all isModest = true := by
  decide +kernel

theorem supplied_nested (n : Nat) (r : Run)
    (hr : nestedEngine.turns n (Run.start nested (.tape [0, 0]) {}) = some r) :
    nestedEngine.Supplied r := by
  have hend : nestedEngine.turns 4 (Run.start nested (.tape [0, 0]) {}) = none := by cbv
  have hlt : n < 4 := by
    refine Nat.lt_of_not_le fun hle => ?_
    obtain ⟨q, hq⟩ := exists_turns_of_le hr hle
    rw [hend] at hq
    cases hq
  intro id rest node b hstack hnode hstage hkind
  have hmodest := isModest_of_turns n hlt
  simp only [hr, Option.all_some, isModest, hstack, List.head?_cons, Option.bind_some, hnode,
    hstage, hkind, Bool.or_eq_true, Bool.and_eq_true, decide_eq_true_eq, reduceCtorEq, false_or,
    Option.some.injEq] at hmodest
  obtain ⟨⟨rfl, hlength⟩, hwords⟩ := hmodest
  show 2 * _ ≤ r.source.remaining
  rw [hlength, hwords]

theorem terminates_nestedEngine :
    nestedEngine.handlers.registered = [] ∧ nestedEngine.Terminates nested ∧
      ∃ fuel final, nestedEngine.run fuel (Run.start nested (.tape [0, 0]) {}) = some final := by
  have h := terminates (e := nestedEngine) rfl nested
  obtain ⟨fuel, final, hrun, -⟩ := h.returns (.tape [0, 0]) {} supplied_nested
  exact ⟨rfl, h, fuel, final, hrun⟩

end Engine

end Specimen
