import Specimen.Proofs.Engine.Generation
import Specimen.Proofs.Engine.Turns
/-!
# The life of a node

A node goes from its first visit to its value in one direction, and its value goes from it to the
node that asked for it once. `Engine.Lifecycle` collects what holds at every moment of a
generation; `Engine.lifecycle` proves it for the built-in handlers, whatever the description, the
limits and the draws are. Among it is that the ways out which the engine keeps for other handlers
are never taken.
-/

namespace Specimen

open Specimen.Random Regex

/-! ## Verdicts of the built-in handlers -/

theorem Handler.verdict_of_leaf {f : Visit → Action Json} {v : Visit} {s t : Supply}
    {verdict : Verdict} (h : Handler.leaf f v s = some (.ok verdict, t)) :
    ∃ value, verdict = .finish value := by
  rw [Handler.leaf_apply] at h
  obtain ⟨⟨x, t⟩, -, h⟩ := Option.map_eq_some_iff.1 h
  cases x with
  | error err => cases h
  | ok value =>
      cases h
      exact ⟨value, rfl⟩

theorem Record.verdict_of_handler {v : Visit} {s t : Supply} {verdict : Verdict}
    (h : Record.handler v s = some (.ok verdict, t)) :
    (∃ value, verdict = .finish value) ∨ ∃ children, verdict = .expand .fresh children := by
  cases hstage : v.stage with
  | toBuild =>
      simp only [Record.handler, hstage] at h
      cases h
      exact .inl ⟨_, rfl⟩
  | _ =>
      simp only [Record.handler, hstage, Action.draw_bind] at h
      obtain ⟨⟨plan, source⟩, -, h⟩ := Option.bind_eq_some_iff.1 h
      simp only [Action.discard_bind] at h
      by_cases hempty : plan.entries.isEmpty
      · rw [if_pos hempty] at h
        cases h
        exact .inl ⟨_, rfl⟩
      · rw [if_neg hempty] at h
        cases h
        exact .inr ⟨_, rfl⟩

theorem Sequence.verdict_of_handler {v : Visit} {s t : Supply} {verdict : Verdict}
    (h : Sequence.handler v s = some (.ok verdict, t)) :
    (∃ value, verdict = .finish value) ∨ ∃ children, verdict = .expand .fresh children := by
  cases hstage : v.stage with
  | toBuild =>
      simp only [Sequence.handler, hstage] at h
      cases h
      exact .inl ⟨_, rfl⟩
  | _ =>
      simp only [Sequence.handler, hstage] at h
      by_cases hbounds : (Sequence.bounds v.spec).2 < (Sequence.bounds v.spec).1
      · rw [if_pos hbounds] at h
        cases h
        exact .inl ⟨_, rfl⟩
      · rw [if_neg hbounds, Action.draw_bind] at h
        obtain ⟨⟨length, source⟩, -, h⟩ := Option.bind_eq_some_iff.1 h
        simp only [Action.discard_bind] at h
        by_cases hkept : admitted v.room length.toNat = 0
        · rw [if_pos hkept] at h
          cases h
          exact .inl ⟨_, rfl⟩
        · rw [if_neg hkept] at h
          cases h
          exact .inr ⟨_, rfl⟩

theorem Choice.verdict_of_handler {v : Visit} {s t : Supply} {verdict : Verdict}
    (h : Choice.handler v s = some (.ok verdict, t)) :
    (∃ value, verdict = .finish value) ∨ ∃ o ∈ v.spec.options, verdict = .redirect o.spec := by
  cases hoptions : v.spec.options with
  | nil =>
      simp only [Choice.handler, hoptions] at h
      cases h
      exact .inl ⟨_, rfl⟩
  | cons o options =>
      simp only [Choice.handler, hoptions, Action.draw_bind] at h
      obtain ⟨⟨roll, source⟩, -, h⟩ := Option.bind_eq_some_iff.1 h
      dsimp only at h
      cases hselect : select (100.0 / (o :: options).length.toFloat) roll (o :: options) with
      | none =>
          rw [hselect] at h
          cases h
          exact .inl ⟨_, rfl⟩
      | some spec =>
          rw [hselect] at h
          cases h
          obtain ⟨o', ho', rfl⟩ := Evaluation.mem_of_select hselect
          exact .inr ⟨o', ho', rfl⟩

/-- A built-in handler always decides something, and what it goes on with is smaller than what it
was asked about. -/
theorem Builtin.verdict_of_handler {b : Builtin} {v : Visit} {s t : Supply} {verdict : Verdict}
    (h : b.handler v s = some (.ok verdict, t)) :
    verdict ≠ .pending ∧ ∀ spec, verdict = .redirect spec → sizeOf spec < sizeOf v.spec := by
  have hfinish : (∃ value, verdict = .finish value) →
      verdict ≠ .pending ∧ ∀ spec, verdict = .redirect spec → sizeOf spec < sizeOf v.spec := by
    rintro ⟨value, rfl⟩
    exact ⟨nofun, nofun⟩
  cases b with
  | record =>
      rcases Record.verdict_of_handler h with hv | ⟨children, rfl⟩
      · exact hfinish hv
      · exact ⟨nofun, nofun⟩
  | array =>
      rcases Sequence.verdict_of_handler h with hv | ⟨children, rfl⟩
      · exact hfinish hv
      · exact ⟨nofun, nofun⟩
  | choice =>
      rcases Choice.verdict_of_handler h with hv | ⟨o, ho, rfl⟩
      · exact hfinish hv
      · refine ⟨nofun, fun spec hspec => ?_⟩
        cases hspec
        exact Spec.sizeOf_lt_of_mem_children (Spec.spec_mem_children ho)
  | _ => exact hfinish (Handler.verdict_of_leaf h)

theorem Stage.isThrough_eq_true_iff {s : Stage} :
    s.isThrough = true ↔ s = .done ∨ s = .truncated := by
  cases s <;> simp [isThrough]

namespace Engine

/-- What the handler of a node is asked about: its description, resolved at the first visit. -/
def visited (e : Engine) (node : Node) : Spec :=
  if node.stage = .toBuild then node.spec else e.registry.resolve node.spec

/-- In the turn after so many others, the value of a node goes to its parent. -/
def MovesOut (e : Engine) (start : Run) (n c : Nat) : Prop :=
  ∃ r r' m m', e.turns n start = some r ∧ e.turns (n + 1) start = some r' ∧
    r.arena.nodes[c]? = some m ∧ m.value.isSome = true ∧
    r'.arena.nodes[c]? = some m' ∧ m'.value = none

/-- What holds after so many turns of a generation. -/
structure Lifecycle (e : Engine) (start : Run) (n : Nat) (r : Run) : Prop where
  stack_lt : ∀ id ∈ r.stack, id < r.arena.nodes.size
  /-- A node is on the stack once until it has its value, and then no more. -/
  count_stack : ∀ (id : Nat) (node : Node), r.arena.nodes[id]? = some node →
    r.stack.count id = if node.stage = .delayed ∨ node.stage = .toBuild then 1 else 0
  /-- Since any earlier moment the stage of a node has only gone on. -/
  stage_next : ∀ (m : Nat) (s : Run) (id : Nat) (a : Node), m ≤ n → e.turns m start = some s →
    s.arena.nodes[id]? = some a → ∃ b : Node,
      r.arena.nodes[id]? = some b ∧ Stage.Next a.stage b.stage
  /-- A node but the root is a child of one node only, at any moment,
  and lies one level deeper. -/
  parent : ∀ (c : Nat) (child : Node), 0 < c → r.arena.nodes[c]? = some child →
    ∃ (i : Nat) (node : Node), r.arena.nodes[i]? = some node ∧ child.depth = node.depth + 1 ∧
      (∃ m s, m ≤ n ∧ e.turns m start = some s ∧ IsChild s.arena.nodes i c) ∧
      ∀ m s j, e.turns m start = some s → IsChild s.arena.nodes j c → j = i
  root_not_child : ∀ i, ¬ IsChild r.arena.nodes i 0
  children_nodup : ∀ (id : Nat) (node : Node), r.arena.nodes[id]? = some node →
    node.children.Nodup
  /-- When a composite comes up again, its children are through, and each has its value, which
  moves out in the next turn and in no other. -/
  children : ∀ (id : Nat) (rest : List Nat) (node : Node) (c : Nat), r.stack = id :: rest →
    r.arena.nodes[id]? = some node → node.stage = .toBuild → c ∈ node.children →
    (∃ (child : Node) (v : Json), r.arena.nodes[c]? = some child ∧ child.value = some v ∧
      (child.stage = .done ∨ child.stage = .truncated)) ∧
    ∀ k, e.MovesOut start k c ↔ k = n
  /-- No child of such a composite is in a stage that an array has no item for. -/
  items : ∀ (id : Nat) (rest : List Nat) (node : Node), r.stack = id :: rest →
    r.arena.nodes[id]? = some node → node.stage = .toBuild →
    ∀ o ∈ r.arena.outcomes node.children, Sequence.item? o ≠ none
  /-- Such a composite has a handler, and that puts it together. -/
  assembles : ∀ (id : Nat) (rest : List Nat) (node : Node), r.stack = id :: rest →
    r.arena.nodes[id]? = some node → node.stage = .toBuild →
    ∃ h, e.handlers.get? (.ofSpec (e.visited node)) = some h ∧
      ∀ v : Visit, v.stage = .toBuild → h v = pure (.finish (assemble node.spec v.children))
  /-- No handler leaves its node as it is: if it goes on, then with a smaller description. -/
  verdict : ∀ (id : Nat) (rest : List Nat) (node : Node) (h : Handler), r.stack = id :: rest →
    r.arena.nodes[id]? = some node → e.handlers.get? (.ofSpec (e.visited node)) = some h →
    ∀ (v : Visit) (supply supply' : Supply) (verdict : Verdict), v.spec = e.visited node →
      h v supply = some (.ok verdict, supply') →
      verdict ≠ .pending ∧ ∀ spec, verdict = .redirect spec →
        sizeOf spec < sizeOf (e.visited node)
  /-- On return every node is through, and the root has its value, which is returned. -/
  returned : ∀ (fuel : Nat) (final : Run), e.run fuel start = some final →
    (∀ (id : Nat) (node : Node), final.arena.nodes[id]? = some node →
      node.stage = .done ∨ node.stage = .truncated) ∧
    ∃ node, final.arena.nodes[0]? = some node ∧ node.value = some final.value

section Moments

variable {e : Engine} (he : e.handlers.registered = []) {root : Spec} {source : Source}
  {synthesizer : Synthesizer} {n : Nat} {r : Run}
  (hr : e.turns n (Run.start root source synthesizer) = some r)
include he hr

theorem count_stack_of_turns {id : Nat} {node : Node} (hnode : r.arena.nodes[id]? = some node) :
    r.stack.count id = if node.stage = .delayed ∨ node.stage = .toBuild then 1 else 0 := by
  have h := orderly_of_turns he hr
  have hmem : id ∈ r.stack ↔ node.stage = .delayed ∨ node.stage = .toBuild := by
    rw [h.mem_stack, hnode]
    cases hstage : node.stage <;> simp [hstage, Stage.isThrough]
  rw [h.nodup.count]
  simp only [hmem]

theorem parent_of_turns {c : Nat} {child : Node} (hpos : 0 < c)
    (hchild : r.arena.nodes[c]? = some child) :
    ∃ i node, r.arena.nodes[i]? = some node ∧ child.depth = node.depth + 1 ∧
      (∃ m s, m ≤ n ∧ e.turns m (Run.start root source synthesizer) = some s ∧
        IsChild s.arena.nodes i c) ∧
      ∀ m s j, e.turns m (Run.start root source synthesizer) = some s →
        IsChild s.arena.nodes j c → j = i := by
  obtain ⟨m, s, i, hm, hs, hi⟩ :=
    exists_parent_of_turns he hr hpos (Array.getElem?_eq_some_iff.1 hchild).1
  obtain ⟨a, ha, hmem⟩ := hi
  obtain ⟨-, k, hk, hdepth⟩ := (orderly_of_turns he hs).child ha hmem
  obtain ⟨b, hb, hab⟩ := later_of_turns he hs hr hm ha
  obtain ⟨k', hk', hkk'⟩ := later_of_turns he hs hr hm hk
  rw [hchild] at hk'
  cases hk'
  refine ⟨i, b, hb, ?_, ⟨m, s, hm, hs, a, ha, hmem⟩, fun m' s' j hs' hj => ?_⟩
  · rw [hkk'.depth, hab.depth, hdepth]
  · exact parent_unique_of_turns he hs' hs hj ⟨a, ha, hmem⟩

section Composite

variable {id : Nat} {rest : List Nat} {node : Node} (hstack : r.stack = id :: rest)
  (hnode : r.arena.nodes[id]? = some node) (hstage : node.stage = .toBuild)
include hstack hnode hstage

theorem exists_turn_of_toBuild :
    ∃ r', e.turns (n + 1) (Run.start root source synthesizer) = some r' ∧
      ∃ scopes v, r'.arena.nodes = (Arena.finish ⟨r.arena.nodes, scopes⟩ id v).nodes := by
  have hturn := assemble_of_turn he (orderly_of_turns he hr) hstack hnode hstage
  exact ⟨_, (turns_succ_of_cons hr hstack).trans hturn, _, _, rfl⟩

omit hstage in
theorem child_of_turns {c : Nat} (hc : c ∈ node.children) :
    ∃ child v, r.arena.nodes[c]? = some child ∧ child.value = some v ∧
      (child.stage = .done ∨ child.stage = .truncated) := by
  have h := orderly_of_turns he hr
  rw [hstack] at h
  obtain ⟨child, hchild, hthrough, hvalue⟩ := h.through_of_isChild ⟨node, hnode, hc⟩
  obtain ⟨v, hv⟩ := Option.isSome_iff_exists.1 hvalue
  exact ⟨child, v, hchild, hv, Stage.isThrough_eq_true_iff.1 hthrough⟩

/-- The value of a child moves out when its parent comes up again, and only then. -/
theorem movesOut_iff {c : Nat} (hc : c ∈ node.children) (k : Nat) :
    e.MovesOut (Run.start root source synthesizer) k c ↔ k = n := by
  obtain ⟨r', hr', scopes, v, hfinish⟩ := exists_turn_of_toBuild he hr hstack hnode hstage
  obtain ⟨child, w, hchild, hw, hthrough⟩ := child_of_turns he hr hstack hnode hc
  have hself : c ≠ id := by
    rintro rfl
    rw [hnode] at hchild
    cases hchild
    simp [hstage] at hthrough
  have hgone : r'.arena.nodes[c]? = some { child with value := none } := by
    rw [hfinish, Arena.getElem?_finish (a := ⟨_, scopes⟩) v hnode, if_neg hself, hchild]
    simp [hc]
  constructor
  · rintro ⟨s, s', m, m', hs, hs', hm, hmv, hm', hmv'⟩
    have hmthrough := ((orderly_of_turns he hs).value hm).1 hmv
    rcases Nat.lt_trichotomy k n with hk | rfl | hk
    · -- The value had gone before, and does not come back.
      obtain ⟨b, hb, hb'⟩ := later_of_turns he hs' hr hk hm'
      obtain ⟨a, ha, hma⟩ := (move_of_turns he hs hs').later hm
      rw [hm'] at ha
      cases ha
      rw [hchild] at hb
      cases hb
      rw [hb'.gone (hma.stage.isThrough hmthrough.1) hmv'] at hw
      cases hw
    · rfl
    · obtain ⟨b, hb, hb'⟩ := later_of_turns he hr' hs hk hgone
      rw [hm] at hb
      cases hb
      rw [hb'.gone (Stage.isThrough_eq_true_iff.2 hthrough) rfl] at hmv
      cases hmv
  · rintro rfl
    exact ⟨r, r', child, _, hr, hr', hchild, by rw [hw]; rfl, hgone, rfl⟩

omit hstage in
theorem item_of_turns {o : Outcome} (ho : o ∈ r.arena.outcomes node.children) :
    Sequence.item? o ≠ none := by
  obtain ⟨c, hc, rfl⟩ := List.mem_map.1 ho
  obtain ⟨child, v, hchild, hv, hthrough⟩ := child_of_turns he hr hstack hnode hc
  rcases hthrough with hthrough | hthrough <;>
    simp [Arena.outcome, hchild, Sequence.item?, hthrough]

end Composite

theorem returned_of_turns (hstack : r.stack = []) :
    (∀ (id : Nat) (node : Node), r.arena.nodes[id]? = some node →
      node.stage = .done ∨ node.stage = .truncated) ∧
    ∃ node, r.arena.nodes[0]? = some node ∧ node.value = some r.value := by
  have h := orderly_of_turns he hr
  have hthrough : ∀ {id : Nat} {node : Node}, r.arena.nodes[id]? = some node →
      node.stage.isThrough = true := by
    intro id node hnode
    rw [← Bool.not_eq_false]
    intro hopen
    have hmem := h.mem_stack.2 ⟨node, hnode, hopen⟩
    simp [hstack] at hmem
  refine ⟨fun id node hnode => Stage.isThrough_eq_true_iff.1 (hthrough hnode), ?_⟩
  have hroot := Array.getElem?_eq_getElem h.root
  refine ⟨_, hroot, ?_⟩
  obtain ⟨v, hv⟩ := Option.isSome_iff_exists.1 ((h.value hroot).2 ⟨hthrough hroot, .inl rfl⟩)
  rw [hv, Run.value, Arena.outcome, hroot]
  simp [hv, Json.ofOption]

end Moments

/-- With the built-in handlers alone, the nodes of every generation live in order. -/
theorem lifecycle {e : Engine} (he : e.handlers.registered = []) (root : Spec) (source : Source)
    (synthesizer : Synthesizer) {n : Nat} {r : Run}
    (hr : e.turns n (Run.start root source synthesizer) = some r) :
    e.Lifecycle (Run.start root source synthesizer) n r where
  stack_lt _ hid := (orderly_of_turns he hr).lt_of_mem_stack hid
  count_stack _ _ hnode := count_stack_of_turns he hr hnode
  stage_next m s id a hm hs ha := by
    obtain ⟨b, hb, hab⟩ := later_of_turns he hs hr hm ha
    exact ⟨b, hb, hab.stage⟩
  parent _ _ hpos hchild := parent_of_turns he hr hpos hchild
  root_not_child i hi := by
    obtain ⟨node, hnode, hc⟩ := hi
    exact Nat.lt_irrefl 0 ((orderly_of_turns he hr).child hnode hc).1
  children_nodup _ _ hnode := (orderly_of_turns he hr).children_nodup hnode
  children _ _ _ _ hstack hnode hstage hc :=
    ⟨child_of_turns he hr hstack hnode hc, movesOut_iff he hr hstack hnode hstage hc⟩
  items _ _ _ hstack hnode hstage _ ho := item_of_turns he hr hstack hnode ho
  assembles id rest node hstack hnode hstage := by
    obtain ⟨b, hb, hhandler⟩ :=
      handler_of_toBuild ((orderly_of_turns he hr).composite hnode hstage)
    refine ⟨b.handler, ?_, hhandler⟩
    rw [get?_builtin he, visited, if_pos hstage, hb, Option.map_some]
  verdict id rest node h hstack hnode hh v supply supply' verdict hv hverdict := by
    rw [get?_builtin he] at hh
    obtain ⟨b, -, rfl⟩ := Option.map_eq_some_iff.1 hh
    rw [← hv]
    exact Builtin.verdict_of_handler hverdict
  returned fuel final hfinal := by
    obtain ⟨m, -, hm, hstack⟩ := run_eq_some_iff.1 hfinal
    exact returned_of_turns he hm hstack

/-- After three turns the array of `Generator.sample` comes up again. -/
theorem stack_sampleGenerator :
    (Generator.sampleGenerator.engine.turns 3
      (Run.start Generator.sample (.tape [0, 0x80000000, 0, 0x40000000]) {})).map (·.stack) =
        some [2, 4, 0] := by
  cbv

theorem lifecycle_sampleGenerator :
    Generator.sampleGenerator.engine.handlers.registered = [] ∧
      ∃ r, r.stack = [2, 4, 0] ∧ Generator.sampleGenerator.engine.Lifecycle
        (Run.start Generator.sample (.tape [0, 0x80000000, 0, 0x40000000]) {}) 3 r := by
  obtain ⟨r, hr, hstack⟩ := Option.map_eq_some_iff.1 stack_sampleGenerator
  exact ⟨rfl, r, hstack, lifecycle rfl Generator.sample _ {} hr⟩

end Engine

end Specimen
