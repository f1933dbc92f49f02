import Specimen.Proofs.Engine.Generation
import Specimen.Proofs.Engine.Turns
/-!
# The size budget

A generation that may queue `limit` nodes never queues more, the root apart. `Engine.Budgeted`
says besides what a composite gets when it is expanded: an array as many elements as it drew and
there is room for, a record the longest prefix of its present entries that there is room for.
Entries are kept whole, so the children of a record are names and values in turn.
-/

namespace Specimen

open Specimen.Random Regex

theorem Record.length_flatMap_children (entries : List Record.Entry) :
    (entries.flatMap Record.Entry.children).length = 2 * entries.length := by
  induction entries with
  | nil => rfl
  | cons entry entries ih =>
      obtain ⟨name, value⟩ := entry
      cases name <;> simp [Entry.children, ih] <;> omega

theorem Record.flatMap_children_eq_nil {entries : List Record.Entry} :
    entries.flatMap Record.Entry.children = [] ↔ entries = [] := by
  rw [← List.length_eq_zero_iff, length_flatMap_children, ← List.length_eq_zero_iff]
  omega

theorem map_getElem?_withFamily (nodes : Array Node) (id : NodeId) (n : Node) (scope : ScopeId)
    (children : List Child) :
    (List.range' nodes.size children.length).map ((withFamily nodes id n scope children)[·]?) =
      children.map fun c => some (Node.ofChild (n.depth + 1) (some scope) c) := by
  apply List.ext_getElem?
  intro k
  rw [List.getElem?_map, List.getElem?_map]
  by_cases hk : k < children.length
  · simp [hk, getElem?_withFamily_new]
  · simp [hk]

namespace Engine

/-- A turn gives the node on top of the stack these new children and queues them, or it settles
the node if there are none. -/
structure Expands (r r' : Run) (id : NodeId) (rest : List NodeId) (depth : Nat)
    (children : List Child) : Prop where
  nodesQueued : r'.report.nodesQueued = r.report.nodesQueued + queuedCount children
  stack : r'.stack =
    if children.isEmpty then rest else queuedIds r.arena.nodes.size children ++ id :: rest
  ids : ∃ node, r'.arena.nodes[id]? = some node ∧
    node.children = List.range' r.arena.nodes.size children.length
  nodes : ∃ scope, r'.arena.nodes.toList.drop r.arena.nodes.size =
    children.map (Node.ofChild (depth + 1) scope)

variable {e : Engine} {r r' : Run} {id : NodeId} {rest : List NodeId} {node : Node}
    {p : Progress}

theorem room_of_limit {limit : Nat} (h : e.maxSize = some limit) (report : Report) :
    e.room report = some (limit - report.nodesQueued) := by
  rw [room, h, Option.map_some]

theorem expands_of_done {v : Json} (hid : id < r.arena.nodes.size)
    (hnil : node.children = []) (hp : p.report.nodesQueued = r.report.nodesQueued)
    (depth : Nat) :
    Expands r (Run.advance r.arena.nodes id node rest (.done v, p)) id rest depth [] := by
  refine ⟨hp, rfl, ⟨_, Array.getElem?_setIfInBounds_self_of_lt hid, hnil⟩, none, ?_⟩
  simp [Run.advance, Response.done, Run.ofProgress]

theorem expands_of_family {scope : ScopeId} {children : List Child}
    (hid : id < r.arena.nodes.size) (hchildren : children ≠ [])
    (hp : p.report.nodesQueued = r.report.nodesQueued + queuedCount children) :
    Expands r (Run.advance r.arena.nodes id node rest (.family scope children, p)) id rest
      node.depth children := by
  refine ⟨hp, ?_, ⟨_, (getElem?_withFamily node scope children hid).trans (if_pos rfl), rfl⟩,
    some scope, ?_⟩
  · rw [if_neg (by simpa using hchildren)]
    rfl
  · simp [Run.advance, Run.ofProgress, withFamily]

section Turn

variable (he : e.handlers.registered = []) (h : Orderly r.arena.nodes r.stack)
  (hstack : r.stack = id :: rest) (hnode : r.arena.nodes[id]? = some node)
  (hstage : node.stage = .delayed)
  (hdeep : ¬ e.IsTooDeep (e.registry.resolve node.spec) node.depth)
  (hturn : e.turn r = some r')
include he h hstack hnode hstage hdeep hturn

theorem array_of_turn (hkind : Builtin.ofSpec? (e.registry.resolve node.spec) = some .array)
    {low high length : Int} {source : Source}
    (hbounds : Sequence.bounds (e.registry.resolve node.spec) = (low, high)) (hle : low ≤ high)
    (hdraw : Draw.between low high r.source = some (length, source)) :
    Expands r r' id rest node.depth
      (List.replicate (Sequence.admitted (e.room r.report) length.toNat)
        (.queued ((e.registry.resolve node.spec).typeElements.getD .empty))) := by
  obtain ⟨response, p, hrespond, rfl⟩ := advance_of_turn he h hstack hnode hstage hturn
  have hnil := h.children_eq_nil hnode (by simp [hstage])
  have hid := (Array.getElem?_eq_some_iff.1 hnode).1
  rw [respond_of_builtin _ _ _ hdeep hkind] at hrespond
  obtain ⟨hlt, -⟩ | ⟨length', source', kept, -, hkept, hdraw', hrest⟩ :=
    Evaluation.array_eq_some hrespond
  · rw [hbounds] at hlt
    omega
  · rw [hbounds] at hdraw'
    have hsame := hdraw.symm.trans hdraw'
    cases hsame
    have hadmitted : Sequence.admitted (e.room r.report) length.toNat = kept := hkept.symm
    rw [hadmitted]
    obtain ⟨rfl, rfl, rfl⟩ | ⟨hne, rfl, rfl⟩ := hrest
    · refine expands_of_done hid ?_ ?_ _
      · exact hnil
      · rfl
    · refine expands_of_family hid (by simp [hne]) ?_
      rw [queuedCount_replicate]
      rfl

theorem record_of_turn (hkind : Builtin.ofSpec? (e.registry.resolve node.spec) = some .record) :
    ∃ os kept,
      Record.Observed [] (Record.occurrences (e.registry.resolve node.spec).keys) os r.source
        r'.source ∧
      (∀ more, (os ++ more).length =
          (Record.occurrences (e.registry.resolve node.spec).keys).length →
        Record.LongestFit (e.room r.report) kept
          (Record.present (Record.occurrences (e.registry.resolve node.spec).keys)
            (os ++ more))) ∧
      Expands r r' id rest node.depth (kept.flatMap Record.Entry.children) := by
  obtain ⟨response, p, hrespond, rfl⟩ := advance_of_turn he h hstack hnode hstage hturn
  have hnil := h.children_eq_nil hnode (by simp [hstage])
  have hid := (Array.getElem?_eq_some_iff.1 hnode).1
  rw [respond_of_builtin _ _ _ hdeep hkind] at hrespond
  obtain ⟨plan, source, hplan, hrest⟩ := Evaluation.record_eq_some hrespond
  obtain ⟨os, hos, hkept⟩ := Record.longestFit_of_plan hplan
  refine ⟨os, plan.entries.reverse, ?_, hkept, ?_⟩
  · obtain ⟨-, rfl, rfl⟩ | ⟨-, rfl, rfl⟩ := hrest <;> exact hos
  · obtain ⟨hempty, rfl, rfl⟩ | ⟨hne, rfl, rfl⟩ := hrest
    · rw [hempty]
      refine expands_of_done hid ?_ ?_ _
      · exact hnil
      · rfl
    · refine expands_of_family hid ?_ rfl
      rw [Record.Plan.children, ne_eq, Record.flatMap_children_eq_nil, List.reverse_eq_nil_iff]
      exact hne

end Turn

/-- The children of a node have just been made of some entries: a name and a value for each. -/
def MadeOfEntries (nodes : Array Node) (node : Node) : Prop :=
  ∃ (scope : Option ScopeId) (entries : List Record.Entry),
    node.children.length = 2 * entries.length ∧
    node.children.map (nodes[·]?) = (entries.flatMap Record.Entry.children).map
      fun c => some (Node.ofChild (node.depth + 1) scope c)

/-- What holds of the budget after so many turns of a generation. -/
structure Budgeted (e : Engine) (limit : Nat) (start : Run) (n : Nat) (r : Run) : Prop where
  nodesQueued_le : r.report.nodesQueued ≤ max limit 1
  /-- An array that draws a length gets as many elements as there is room for. -/
  array : ∀ (id : NodeId) (rest : List NodeId) (node : Node) (spec : Spec)
    (low high length : Int) (source : Source) (r' : Run),
    r.stack = id :: rest → r.arena.nodes[id]? = some node →
    node.stage = .delayed → spec = e.registry.resolve node.spec → ¬ e.IsTooDeep spec node.depth →
    Builtin.ofSpec? spec = some .array → Sequence.bounds spec = (low, high) → low ≤ high →
    Draw.between low high r.source = some (length, source) → e.turns (n + 1) start = some r' →
    Expands r r' id rest node.depth
      (List.replicate (min (limit - r.report.nodesQueued) length.toNat)
        (.queued (spec.typeElements.getD .empty)))
  /-- A record keeps the longest prefix that there is room for, of the entries that are present.
  The outcomes `more` of the occurrences that it does not look at make no difference. -/
  record : ∀ (id : NodeId) (rest : List NodeId) (node : Node) (spec : Spec) (r' : Run),
    r.stack = id :: rest → r.arena.nodes[id]? = some node → node.stage = .delayed →
    spec = e.registry.resolve node.spec → ¬ e.IsTooDeep spec node.depth →
    Builtin.ofSpec? spec = some .record → e.turns (n + 1) start = some r' →
    ∃ os kept, Record.Observed [] (Record.occurrences spec.keys) os r.source r'.source ∧
      (∀ more, (os ++ more).length = (Record.occurrences spec.keys).length →
        Record.LongestFit (some (limit - r.report.nodesQueued)) kept
          (Record.present (Record.occurrences spec.keys) (os ++ more))) ∧
      Expands r r' id rest node.depth (kept.flatMap Record.Entry.children)
  /-- The children that a record waits for were made as names and values in turn. -/
  alternates : ∀ (id : NodeId) (node : Node), r.arena.nodes[id]? = some node →
    node.stage = .toBuild → Builtin.ofSpec? node.spec = some .record →
    ∃ m s, m ≤ n ∧ e.turns m start = some s ∧ MadeOfEntries s.arena.nodes node

theorem entries_of_respond {spec : Spec} {depth redirects : Nat} {scope : Option ScopeId}
    {inner : ScopeId} {children : List Child} {p' : Progress}
    (h : e.respond spec depth scope redirects p = some (.family inner children, p'))
    (hkind : Builtin.ofSpec? (e.registry.resolve spec) = some .record) :
    ∃ entries : List Record.Entry, children = entries.flatMap Record.Entry.children := by
  obtain ⟨-, hr, -⟩ | ⟨-, -, hr, -⟩ | ⟨b, -, hb, h⟩ := respond_eq_some h
  · cases hr
  · cases hr
  · rw [hkind] at hb
    cases hb
    obtain ⟨plan, source, -, ⟨-, hr, -⟩ | ⟨-, hr, -⟩⟩ := Evaluation.record_eq_some h
    · cases hr
    · cases hr
      exact ⟨plan.entries.reverse, rfl⟩

section Generation

variable {root : Spec} {source : Source} {synthesizer : Synthesizer} {n : Nat}
  (he : e.handlers.registered = [])
  (hr : e.turns n (Run.start root source synthesizer) = some r)
include he hr

theorem nodesQueued_le_of_turns {limit : Nat} (hlimit : e.maxSize = some limit) :
    r.report.nodesQueued ≤ max limit 1 := by
  induction n generalizing r with
  | zero =>
      cases hr
      exact Nat.le_max_right _ _
  | succ n ih =>
      obtain ⟨q, hq, hstack, hturn⟩ := turns_succ_eq_some.1 hr
      have h := orderly_of_turns he hq
      have hqueued := ih hq
      obtain ⟨id, rest, node, -, -, ⟨-, response, p, hrespond, rfl⟩ | ⟨-, rfl⟩⟩ :=
        turn_cases he h hstack hturn
      · obtain ⟨hreport, hroom⟩ := queued_of_respond hrespond
        have hfits := hroom _ (room_of_limit hlimit q.report)
        have hbudget : p.report.nodesQueued ≤ max limit 1 := by
          have : q.progress.report.nodesQueued = q.report.nodesQueued := rfl
          omega
        cases response <;> exact hbudget
      · exact hqueued

theorem entries_of_turns {id : NodeId} {node : Node} (hnode : r.arena.nodes[id]? = some node)
    (hwaits : node.stage = .toBuild) (hkind : Builtin.ofSpec? node.spec = some .record) :
    ∃ m s, m ≤ n ∧ e.turns m (Run.start root source synthesizer) = some s ∧
      MadeOfEntries s.arena.nodes node := by
  induction n generalizing r node with
  | zero =>
      cases hr
      cases id with
      | zero =>
          cases hnode
          cases hwaits
      | succ id => simp [Run.start] at hnode
  | succ n ih =>
      obtain ⟨q, hq, hstack, hturn⟩ := turns_succ_eq_some.1 hr
      have h := orderly_of_turns he hq
      -- A node that waits has waited before, or its family has been made in this turn.
      rcases h.cases_of_move (move_of_turn he h hstack hturn) hnode with
        ⟨a, v, ha, rfl⟩ | ⟨hne, -⟩ | ⟨rest, a, hstack, ha, hstage, -⟩
      · obtain ⟨m, s, hm, hs, hentries⟩ := ih hq ha hwaits hkind
        exact ⟨m, s, by omega, hs, hentries⟩
      · exact absurd hwaits hne
      · obtain ⟨response, p, hrespond, rfl⟩ := advance_of_turn he h hstack ha hstage hturn
        refine ⟨n + 1, _, Nat.le_refl _, hr, ?_⟩
        have hid := (Array.getElem?_eq_some_iff.1 ha).1
        cases response with
        | settled o =>
            rw [show (Run.advance _ id _ rest (.settled o, p)).arena.nodes[id]? = _ from
              Array.getElem?_setIfInBounds_self_of_lt hid] at hnode
            cases hnode
            rcases stage_of_settled hrespond with ho | ho <;>
            · rw [show o.stage = .toBuild from hwaits] at ho
              cases ho
        | again t =>
            rw [show (Run.advance _ id _ rest (.again t, p)).arena.nodes[id]? = _ from
              Array.getElem?_setIfInBounds_self_of_lt hid] at hnode
            cases hnode
            rw [show a.stage = .toBuild from hwaits] at hstage
            cases hstage
        | family scope children =>
            rw [show
              (Run.advance _ id _ rest (.family scope children, p)).arena.nodes[id]? = _ from
              (getElem?_withFamily _ scope children hid).trans (if_pos rfl)] at hnode
            cases hnode
            obtain ⟨entries, rfl⟩ := entries_of_respond hrespond hkind
            refine ⟨some scope, entries, ?_, ?_⟩
            · rw [List.length_range', Record.length_flatMap_children]
            · exact map_getElem?_withFamily _ _ _ _ _

end Generation

/-- With the built-in handlers alone, every generation keeps to its size budget. -/
theorem budgeted {e : Engine} (he : e.handlers.registered = []) {limit : Nat}
    (hlimit : e.maxSize = some limit) (root : Spec) (source : Source) (synthesizer : Synthesizer)
    {n : Nat} {r : Run} (hr : e.turns n (Run.start root source synthesizer) = some r) :
    e.Budgeted limit (Run.start root source synthesizer) n r where
  nodesQueued_le := nodesQueued_le_of_turns he hr hlimit
  array := by
    rintro id rest node _ low high length source r' hstack hnode hstage rfl hdeep hkind hbounds
      hle hdraw hr'
    rw [turns_succ_of_cons hr hstack] at hr'
    rw [← Sequence.admitted, ← room_of_limit hlimit]
    exact array_of_turn he (orderly_of_turns he hr) hstack hnode hstage hdeep hr' hkind hbounds
      hle
      hdraw
  record := by
    rintro id rest node _ r' hstack hnode hstage rfl hdeep hkind hr'
    rw [turns_succ_of_cons hr hstack] at hr'
    rw [← room_of_limit hlimit]
    exact record_of_turn he (orderly_of_turns he hr) hstack hnode hstage hdeep hr' hkind
  alternates _ _ hnode hwaits hkind := entries_of_turns he hr hnode hwaits hkind

/-- After one turn the array of `Generator.sample` comes up, and
there is room for one element. -/
theorem room_sampleGenerator :
    (Generator.sampleGenerator.engine.turns 1
      (Run.start Generator.sample (.tape [0, 0x80000000, 0, 0x40000000]) {})).map
        (fun r => (r.stack, r.report.nodesQueued)) = some ([2, 4, 0], 3) := by
  cbv

theorem budgeted_sampleGenerator :
    Generator.sampleGenerator.engine.handlers.registered = [] ∧
      Generator.sampleGenerator.engine.maxSize = some 4 ∧
      ∃ r, r.stack = [2, 4, 0] ∧ Generator.sampleGenerator.engine.Budgeted 4
        (Run.start Generator.sample (.tape [0, 0x80000000, 0, 0x40000000]) {}) 1 r := by
  obtain ⟨r, hr, hroom⟩ := Option.map_eq_some_iff.1 room_sampleGenerator
  exact ⟨rfl, rfl, r, congrArg Prod.fst hroom, budgeted rfl rfl Generator.sample _ {} hr⟩

end Engine

end Specimen
