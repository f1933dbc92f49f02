import Mathlib.Algebra.Order.BigOperators.Group.List
import Mathlib.Algebra.Order.Ring.Nat
import Mathlib.Algebra.Ring.GeomSum
import Specimen.Proofs.Engine.Turns
import Specimen.Proofs.Random.Range
import Specimen.Proofs.Spec.Descendants
/-!
# What is left to do

The agenda of a run lists the nodes on the stack by their depth and by how many visits they
may still get: `maxRedirects + 2` for a new node, one less after each redirect, and one for
a composite that waits. A turn takes a visit of the first node away, and only a node above
the greatest depth limit of the descriptions gets children in exchange
(`Engine.agenda_of_turn`). Two measures come of it: the visits that are left pay for the
steps, and so do the turns that the nodes on the agenda may take with all that comes of
them, of which the root has so many before anything is drawn.
-/

namespace Specimen

open Specimen.Random Regex

/-! ## Depth limits -/

/-- No depth limit in the description or inside it is greater. -/
def Spec.LimitedBy (limit : Nat) (s : Spec) : Prop :=
  s.Everywhere fun t => ∀ d ∈ t.maxDepth, d ≤ limit

/-- No depth limit that a generation can meet is greater. -/
structure Engine.LimitedBy (e : Engine) (limit : Nat) : Prop where
  maxDepth : e.maxDepth ≤ limit
  registry : e.registry.Everywhere fun t => ∀ d ∈ t.maxDepth, d ≤ limit

namespace Spec

/-- How many children a node of a description may queue. -/
def width (s : Spec) : Nat :=
  match Builtin.ofSpec? s with
  | some .record => Record.needs s.keys
  | some .array => (Sequence.bounds s).2.toNat
  | _ => 0

end Spec

namespace Engine

variable {e : Engine} {limit : Nat} {s : Spec}

/-- Some bound holds for all the descriptions that a generation can meet. -/
theorem exists_bound (f : Spec → Nat) (e : Engine) (root : Spec) :
    ∃ bound, (e.registry.Everywhere fun t => f t ≤ bound) ∧
      root.Everywhere fun t => f t ≤ bound := by
  let specs := root :: e.registry.entries.map (·.2)
  have hbound : ∀ s ∈ specs,
      s.Everywhere fun t => f t ≤ ((specs.flatMap Spec.preorder).map f).sum :=
    fun s hs t ht =>
      List.le_sum_of_mem (List.mem_map_of_mem (List.mem_flatMap.2 ⟨s, hs, ht⟩))
  refine ⟨_, fun name t ht => ?_, hbound root List.mem_cons_self⟩
  have hmem := List.mem_map_of_mem (f := Prod.snd) (Table.mem_of_get? ht)
  exact hbound t (List.mem_cons_of_mem _ hmem)

theorem exists_limitedBy (e : Engine) (root : Spec) :
    ∃ limit, e.LimitedBy limit ∧ root.LimitedBy limit := by
  obtain ⟨limit, hregistry, hroot⟩ := e.exists_bound (·.maxDepth.getD 0) root
  have hdepth : ∀ t : Spec, t.maxDepth.getD 0 ≤ limit →
      ∀ d ∈ t.maxDepth, d ≤ max e.maxDepth limit := by
    intro t ht d hd
    rw [Option.mem_def.1 hd, Option.getD_some] at ht
    exact Nat.le_trans ht (Nat.le_max_right _ _)
  exact ⟨max e.maxDepth limit,
    ⟨Nat.le_max_left _ _, fun name t ht => (hregistry name t ht).mono hdepth⟩,
    hroot.mono hdepth⟩

theorem LimitedBy.resolve (h : e.LimitedBy limit) (hs : s.LimitedBy limit) :
    (e.registry.resolve s).LimitedBy limit :=
  h.registry.resolve (by simp [Spec.empty]) hs

theorem LimitedBy.depth_lt (h : e.LimitedBy limit) (hs : s.LimitedBy limit) {depth : Nat}
    (hdeep : ¬ e.IsTooDeep s depth) : depth < limit := by
  have hown : s.maxDepth.getD e.maxDepth ≤ limit := by
    cases hmax : s.maxDepth with
    | none => exact h.maxDepth
    | some d => exact hs.self d hmax
  rw [IsTooDeep] at hdeep
  omega

end Engine

/-! ## Widths -/

namespace Engine

theorem queued_le_width_of_respond {e : Engine} {spec : Spec} {depth redirects : Nat}
    {scope : Option ScopeId} {p p' : Progress} {response : Response}
    (h : e.respond spec depth scope redirects p = some (response, p')) :
    response.queued ≤ (e.registry.resolve spec).width := by
  obtain ⟨-, rfl, -⟩ | ⟨-, -, rfl, -⟩ | ⟨b, -, hkind, h⟩ := respond_eq_some h
  · exact Nat.zero_le _
  · exact Nat.zero_le _
  rw [Spec.width, hkind]
  cases b with
  | record =>
      obtain ⟨plan, source, hplan, ⟨-, rfl, -⟩ | ⟨-, rfl, -⟩⟩ := Evaluation.record_eq_some h
      · exact Nat.zero_le _
      · exact Record.queuedCount_le_needs_of_plan hplan
  | array =>
      obtain ⟨-, rfl, -⟩ | ⟨length, source, kept, hle, rfl, hdraw, hrest⟩ :=
        Evaluation.array_eq_some h
      · exact Nat.zero_le _
      · obtain ⟨-, rfl, -⟩ | ⟨-, rfl, -⟩ := hrest
        · exact Nat.zero_le _
        · have hlength := Draw.le_of_between (Int.le_max_left _ _) hle hdraw
          have hkept := Sequence.admitted_le (e.room p.report) length.toNat
          exact (queuedCount_replicate _ _).trans_le (hkept.trans (Int.toNat_le_toNat hlength))
  | _ =>
      obtain ⟨v, rfl⟩ | ⟨-, o, -, rfl, -⟩ | ⟨hb, -⟩ := answer_eq_some h
      · exact Nat.zero_le _
      · exact Nat.zero_le _
      · simp at hb

end Engine

/-! ## What a turn leaves -/

/-- What a turn that visits `node`, which stands at `id`, leaves at the place `j`. -/
inductive Leaves (e : Engine) (nodes : Array Node) (id : NodeId) (node : Node) (j : NodeId) :
    Node → Prop
  | other {m : Node} (value : Option Json) : j ≠ id → nodes[j]? = some m →
      Leaves e nodes id node j { m with value }
  | child {c : Child} (scope : Option ScopeId) : nodes[j]? = none →
      (∀ s, c = .queued s → s ∈ (e.registry.resolve node.spec).children ∨ s = .empty) →
      Leaves e nodes id node j (Node.ofChild (node.depth + 1) scope c)
  | through {m : Node} : j = id → m.stage.isThrough = true → m.redirects = node.redirects →
      m.spec = node.spec ∨ m.spec = e.registry.resolve node.spec → Leaves e nodes id node j m
  | again {s : Spec} : j = id → node.stage = .delayed → node.redirects < maxRedirects →
      s ∈ (e.registry.resolve node.spec).children →
      Leaves e nodes id node j { node with spec := s, redirects := node.redirects + 1 }
  | waits (children : List NodeId) : j = id → node.stage = .delayed →
      Leaves e nodes id node j
        { node with spec := e.registry.resolve node.spec, stage := .toBuild, children }

namespace Engine

variable {e : Engine} {r s : Run} {id : NodeId} {rest : List NodeId} {node m : Node}

theorem leaves_of_set {nodes : Array Node} {n : Node} {j : NodeId}
    (hnode : nodes[id]? = some node) (hm : (nodes.setIfInBounds id n)[j]? = some m)
    (hn : j = id → Leaves e nodes id node j n) : Leaves e nodes id node j m := by
  rw [getElem?_set_of_some n hnode] at hm
  by_cases hj : j = id
  · rw [if_pos hj] at hm
    cases hm
    exact hn hj
  · rw [if_neg hj] at hm
    exact .other m.value hj hm

theorem leaves_of_turn (he : e.handlers.registered = []) (h : Orderly r.arena.nodes r.stack)
    (hstack : r.stack = id :: rest) (hnode : r.arena.nodes[id]? = some node)
    (hturn : e.turn r = some s) {j : NodeId} (hm : s.arena.nodes[j]? = some m) :
    Leaves e r.arena.nodes id node j m := by
  obtain ⟨id, rest, node, hr, hn, ⟨hstage, response, p, hrespond, rfl⟩ | ⟨hstage, rfl⟩⟩ :=
    turn_cases he h (by simp [hstack]) hturn
  all_goals
    rw [hstack] at hr
    cases hr
    rw [hnode] at hn
    cases hn
  · cases response with
    | settled o =>
        refine leaves_of_set hnode hm fun hj => .through hj ?_ rfl (.inr rfl)
        rcases stage_of_settled hrespond with ho | ho <;> simp [ho, Stage.isThrough]
    | again t =>
        obtain ⟨ht, hlt⟩ := mem_children_of_again hrespond
        exact leaves_of_set hnode hm fun hj => .again hj hstage hlt ht
    | family scope children =>
        obtain ⟨-, hchildren⟩ := mem_children_of_family hrespond
        rcases getElem?_withFamily_cases hm with ⟨hj, -, rfl⟩ | ⟨hj, hm⟩ | ⟨k, c, rfl, hc, rfl⟩
        · exact .waits _ hj hstage
        · exact .other m.value hj hm
        · refine .child (some scope) (by simp) fun t ht => hchildren t ?_
          exact ht ▸ List.mem_of_getElem? hc
  · have hfinish : (Arena.finish ⟨r.arena.nodes, r.arena.scopes⟩ id
        (assemble node.spec (r.arena.outcomes node.children))).nodes[j]? = some m := hm
    rw [Arena.getElem?_finish _ hnode] at hfinish
    by_cases hj : j = id
    · rw [if_pos hj] at hfinish
      cases hfinish
      exact .through hj rfl rfl (.inl rfl)
    · rw [if_neg hj] at hfinish
      obtain ⟨n, hn, rfl⟩ := Option.map_eq_some_iff.1 hfinish
      split
      · exact .other none hj hn
      · exact .other n.value hj hn

section Generation

variable {root : Spec} {source : Source} {synthesizer : Synthesizer} {n limit : Nat}
  (he : e.handlers.registered = [])
  (hr : e.turns n (Run.start root source synthesizer) = some r)
include he hr

/-- What holds of the root, and of all that a turn leaves where it held before, holds of every
node. -/
theorem of_leaves {P : Node → Prop}
    (hstart : ∀ m ∈ (Run.start root source synthesizer).arena.nodes[0]?, P m)
    (hstep : ∀ {nodes : Array Node} {id : NodeId} {node : Node} {j : NodeId} {m : Node},
      (∀ {i : NodeId} {n : Node}, nodes[i]? = some n → P n) → nodes[id]? = some node →
        Leaves e nodes id node j m → P m) {j : NodeId}
    (hm : r.arena.nodes[j]? = some m) : P m := by
  induction n generalizing r j m with
  | zero =>
      cases hr
      cases j with
      | zero => exact hstart m hm
      | succ j => simp [Run.start] at hm
  | succ n ih =>
      obtain ⟨q, hq, hstack, hturn⟩ := turns_succ_eq_some.1 hr
      have h := orderly_of_turns he hq
      obtain ⟨id, rest, node, hstack, hnode, -⟩ := turn_cases he h hstack hturn
      exact hstep (fun hn => ih hq hn) hnode (leaves_of_turn he h hstack hnode hturn hm)

/-- What holds everywhere in the root and in the registry holds in what the nodes stand for. -/
theorem everywhere_of_turns {Q : Spec → Prop} (hempty : Q .empty)
    (hregistry : e.registry.Everywhere Q) (hroot : root.Everywhere Q) {j : NodeId}
    (hm : r.arena.nodes[j]? = some m) : m.spec.Everywhere Q := by
  refine of_leaves (P := fun m => m.spec.Everywhere Q) he hr (fun m hm => ?_)
    (fun hbefore hnode hleaves => ?_) hm
  · cases hm
    exact hroot
  have hspec := hbefore hnode
  have hresolved := hregistry.resolve hempty hspec
  cases hleaves with
  | other value hj hold =>
      have hother := hbefore hold
      exact hother
  | @child c scope hj hc =>
      cases c with
      | ready v => exact .empty hempty
      | queued s =>
          rcases hc s rfl with hs | rfl
          · exact hresolved.child hs
          · exact .empty hempty
  | through hj hthrough hsame hm =>
      rcases hm with hm | hm <;> rw [hm]
      · exact hspec
      · exact hresolved
  | again hj hstage hlt hs => exact hresolved.child hs
  | waits children hj hstage => exact hresolved

theorem redirects_le_of_turns {j : NodeId} (hm : r.arena.nodes[j]? = some m) :
    m.redirects ≤ maxRedirects := by
  refine of_leaves (P := fun m => m.redirects ≤ maxRedirects) he hr (fun m hm => ?_)
    (fun hbefore hnode hleaves => ?_) hm
  · cases hm
    exact Nat.zero_le _
  have hredirects := hbefore hnode
  cases hleaves with
  | other value hj hold =>
      have hother := hbefore hold
      exact hother
  | @child c scope hj hc => cases c <;> exact Nat.zero_le _
  | through hj hthrough hsame hm => rwa [hsame]
  | again hj hstage hlt hs => exact hlt
  | waits children hj hstage => exact hredirects

/-- No node stands for a description beyond the depth limits, and none goes on too often. -/
theorem limited_of_turns (hlimit : e.LimitedBy limit) (hroot : root.LimitedBy limit) {j : NodeId}
    (hm : r.arena.nodes[j]? = some m) : m.spec.LimitedBy limit ∧ m.redirects ≤ maxRedirects :=
  ⟨everywhere_of_turns he hr (by simp [Spec.empty]) hlimit.registry hroot hm,
    redirects_le_of_turns he hr hm⟩

theorem steps_of_turns : r.report.steps = n := by
  induction n generalizing r with
  | zero =>
      cases hr
      rfl
  | succ n ih =>
      obtain ⟨q, hq, hstack, hturn⟩ := turns_succ_eq_some.1 hr
      have hbefore := ih hq
      obtain ⟨id, rest, node, -, -, ⟨-, response, p, hrespond, rfl⟩ | ⟨-, rfl⟩⟩ :=
        turn_cases he (orderly_of_turns he hq) hstack hturn
      · have hsteps : p.report.steps = n + 1 := by
          rw [steps_of_respond hrespond, ← hbefore]
          rfl
        cases response <;> exact hsteps
      · exact congrArg (· + 1) hbefore

end Generation

end Engine

/-! ## The agenda -/

/-- How many visits a node may still get. -/
def Node.visitsLeft (n : Node) : Nat :=
  match n.stage with
  | .delayed => maxRedirects + 2 - n.redirects
  | .toBuild => 1
  | .done | .truncated => 0

/-- How deep some nodes lie, and how many visits each may still get. -/
def agendaOf (nodes : Array Node) (ids : List NodeId) : List (Nat × Nat) :=
  ids.filterMap fun id => nodes[id]?.map fun n => (n.depth, n.visitsLeft)

/-- The agenda of the nodes on the stack. -/
def Run.agenda (r : Run) : List (Nat × Nat) := agendaOf r.arena.nodes r.stack

/-- What a turn can do to an agenda, and how many nodes it queues. -/
inductive AgendaStep (limit : Nat) : List (Nat × Nat) → List (Nat × Nat) → Nat → Prop
  | leave (depth left : Nat) (rest : List (Nat × Nat)) :
      AgendaStep limit ((depth, left + 1) :: rest) rest 0
  | again (depth left : Nat) (rest : List (Nat × Nat)) :
      AgendaStep limit ((depth, left + 1) :: rest) ((depth, left) :: rest) 0
  | expand (depth left queued : Nat) (rest : List (Nat × Nat)) : depth < limit →
      AgendaStep limit ((depth, left + 2) :: rest)
        (List.replicate queued (depth + 1, maxRedirects + 2) ++ (depth, 1) :: rest) queued

section Agenda

variable {nodes nodes' : Array Node} {ids : List NodeId} {id : NodeId} {node : Node}

theorem agendaOf_cons (hnode : nodes[id]? = some node) (ids : List NodeId) :
    agendaOf nodes (id :: ids) = (node.depth, node.visitsLeft) :: agendaOf nodes ids := by
  rw [agendaOf, List.filterMap_cons, hnode]
  rfl

theorem agendaOf_append (nodes : Array Node) (ids ids' : List NodeId) :
    agendaOf nodes (ids ++ ids') = agendaOf nodes ids ++ agendaOf nodes ids' :=
  List.filterMap_append

/-- New children come onto the agenda with all their visits. -/
theorem agendaOf_queuedIds (node : Node) (scope : ScopeId) (children : List Child) :
    agendaOf (withFamily nodes id node scope children) (queuedIds nodes.size children) =
      List.replicate (queuedCount children) (node.depth + 1, maxRedirects + 2) := by
  have hentry : ∀ j ∈ queuedIds nodes.size children,
      (withFamily nodes id node scope children)[j]?.map (fun n => (n.depth, n.visitsLeft)) =
        some (node.depth + 1, maxRedirects + 2) := by
    intro j hj
    obtain ⟨k, s, hk, rfl⟩ := mem_queuedIds.1 hj
    rw [getElem?_withFamily_new, hk]
    rfl
  rw [agendaOf, List.filterMap_congr hentry, ← length_queuedIds nodes.size, ← List.map_const',
    List.filterMap_eq_map']

end Agenda

namespace Engine

section Turn

variable {e : Engine} {r s : Run} (he : e.handlers.registered = [])
  (h : Orderly r.arena.nodes r.stack)
include he h

/-- The nodes below the top stay on the agenda as they are. -/
theorem agendaOf_rest_of_turn {id : NodeId} {rest : List NodeId} {node : Node}
    (hstack : r.stack = id :: rest) (hnode : r.arena.nodes[id]? = some node)
    (hturn : e.turn r = some s) :
    agendaOf s.arena.nodes rest = agendaOf r.arena.nodes rest := by
  have hnodup : (id :: rest).Nodup := hstack ▸ h.nodup
  refine List.filterMap_congr fun j hj => ?_
  have hne : j ≠ id := fun hid => (List.nodup_cons.1 hnodup).1 (hid ▸ hj)
  obtain ⟨m, hm, -⟩ := h.mem_stack.1 (hstack ▸ List.mem_cons_of_mem _ hj)
  obtain ⟨m', hm', -⟩ := (move_of_turn he h (by simp [hstack]) hturn).later hm
  rw [hm, hm']
  cases leaves_of_turn he h hstack hnode hturn hm' with
  | other value hj hold =>
      rw [hm] at hold
      cases hold
      rfl
  | child scope hj => simp [hm] at hj
  | through hj => exact absurd hj hne
  | again hj => exact absurd hj hne
  | waits children hj => exact absurd hj hne

/-- A turn queues no more nodes than the widest description is wide. -/
theorem queued_le_width_of_turn {width : Nat}
    (hnodes : ∀ (j : NodeId) (m : Node), r.arena.nodes[j]? = some m →
      m.spec.Everywhere fun t => t.width ≤ width)
    (hregistry : e.registry.Everywhere fun t => t.width ≤ width)
    (hstack : r.stack ≠ []) (hturn : e.turn r = some s) :
    s.report.nodesQueued ≤ r.report.nodesQueued + width := by
  obtain ⟨id, rest, node, hr, hnode, ⟨-, response, p, hrespond, rfl⟩ | ⟨-, rfl⟩⟩ :=
    turn_cases he h hstack hturn
  · have hqueued := (queued_of_respond hrespond).1
    have hle := queued_le_width_of_respond hrespond
    have hwidth := (hregistry.resolve (Nat.zero_le _) (hnodes id node hnode)).self
    have hreport : r.progress.report.nodesQueued = r.report.nodesQueued := rfl
    have hnow : p.report.nodesQueued ≤ r.report.nodesQueued + width := by omega
    cases response <;> exact hnow
  · exact Nat.le_add_right _ _

/-- Every turn is a step of the agenda. -/
theorem agenda_of_turn {limit : Nat} (hlimit : e.LimitedBy limit)
    (hnodes : ∀ (j : NodeId) (m : Node), r.arena.nodes[j]? = some m →
      m.spec.LimitedBy limit ∧ m.redirects ≤ maxRedirects)
    (hstack : r.stack ≠ []) (hturn : e.turn r = some s) :
    ∃ queued, s.report.nodesQueued = r.report.nodesQueued + queued ∧
      AgendaStep limit r.agenda s.agenda queued := by
  obtain ⟨id, rest, node, hr, hnode, hcases⟩ := turn_cases he h hstack hturn
  obtain ⟨hspec, hredirects⟩ := hnodes id node hnode
  have hid := (Array.getElem?_eq_some_iff.1 hnode).1
  have hrest := agendaOf_rest_of_turn he h hr hnode hturn
  rw [Run.agenda, hr, agendaOf_cons hnode, ← hrest, Run.agenda]
  obtain ⟨hstage, response, p, hrespond, rfl⟩ | ⟨hstage, rfl⟩ := hcases
  · have hqueued := (queued_of_respond hrespond).1
    obtain ⟨left, hleft⟩ : ∃ left, maxRedirects + 2 - node.redirects = left + 2 :=
      ⟨maxRedirects - node.redirects, by omega⟩
    rw [show node.visitsLeft = left + 2 by rw [Node.visitsLeft, hstage, ← hleft]]
    cases response with
    | settled o => exact ⟨0, hqueued, .leave node.depth (left + 1) _⟩
    | again t =>
        refine ⟨0, hqueued, ?_⟩
        have hnow : (Run.advance r.arena.nodes id
            { node with spec := e.registry.resolve node.spec } rest
              (.again t, p)).arena.nodes[id]? = some { node with
                spec := t, redirects := node.redirects + 1 } :=
          Array.getElem?_setIfInBounds_self_of_lt hid
        have hless : Node.visitsLeft { node with spec := t, redirects := node.redirects + 1 } =
            left + 1 := by
          rw [Node.visitsLeft, hstage]
          dsimp only
          omega
        rw [show (Run.advance _ id _ rest (.again t, p)).stack = id :: rest from rfl,
          agendaOf_cons hnow, hless]
        exact .again node.depth (left + 1) _
    | family scope children =>
        refine ⟨queuedCount children, hqueued, ?_⟩
        have hnow : (Run.advance r.arena.nodes id
            { node with spec := e.registry.resolve node.spec } rest
              (.family scope children, p)).arena.nodes[id]? = some { node with
                spec := e.registry.resolve node.spec, stage := .toBuild
                children := List.range' r.arena.nodes.size children.length } :=
          (getElem?_withFamily _ scope children hid).trans (if_pos rfl)
        have hdepth := hlimit.depth_lt (hlimit.resolve hspec) (mem_children_of_family hrespond).1
        have hnew : agendaOf (withFamily r.arena.nodes id
            { node with spec := e.registry.resolve node.spec } scope children)
              (queuedIds r.arena.nodes.size children) = _ := agendaOf_queuedIds _ scope children
        rw [show (Run.advance _ id _ rest (.family scope children, p)).stack =
          queuedIds r.arena.nodes.size children ++ id :: rest from rfl, agendaOf_append,
          agendaOf_cons hnow]
        exact hnew ▸ .expand node.depth left _ _ hdepth
  · refine ⟨0, rfl, ?_⟩
    rw [show node.visitsLeft = 0 + 1 by rw [Node.visitsLeft, hstage]]
    exact .leave node.depth 0 _

end Turn

end Engine

/-! ## Two measures -/

/-- The turns that a node and all below it may take, on so many levels, where no node queues more
than `width` children. -/
def turnsWithin (width levels : Nat) : Nat :=
  (maxRedirects + 2) * ∑ level ∈ Finset.range levels, width ^ level

theorem turnsWithin_succ (width levels : Nat) :
    turnsWithin width (levels + 1) = width * turnsWithin width levels + (maxRedirects + 2) := by
  rw [turnsWithin, turnsWithin, geom_sum_succ, Nat.mul_add, Nat.mul_left_comm, Nat.mul_one]

namespace AgendaStep

variable {limit queued : Nat} {a b : List (Nat × Nat)}

/-- The visits that are left pay for a turn, together with those of the nodes it queues. -/
theorem pays (h : AgendaStep limit a b queued) :
    (b.map Prod.snd).sum + 1 ≤ (a.map Prod.snd).sum + (maxRedirects + 2) * queued := by
  cases h with
  | leave depth left =>
      simp only [List.map_cons, List.sum_cons]
      omega
  | again depth left =>
      simp only [List.map_cons, List.sum_cons]
      omega
  | expand depth left queued rest =>
      simp only [List.map_append, List.map_replicate, List.map_cons, List.sum_append,
        List.sum_replicate_nat, List.sum_cons, Nat.mul_comm queued]
      omega

/-- The turns that an item may take with all that comes of it: its own visits, and those of the
children that it may still get. -/
def cost (limit width : Nat) (item : Nat × Nat) : Nat :=
  item.2 + if item.2 < 2 then 0 else width * turnsWithin width (limit - item.1)

/-- A turn costs something: children are paid for by the item that gets them. -/
theorem cost_lt {width : Nat} (h : AgendaStep limit a b queued) (hqueued : queued ≤ width) :
    (b.map (cost limit width)).sum < (a.map (cost limit width)).sum := by
  cases h with
  | leave depth left =>
      simp only [List.map_cons, List.sum_cons, cost]
      omega
  | again depth left rest =>
      simp only [List.map_cons, List.sum_cons, cost]
      split <;> split <;> omega
  | expand depth left queued rest hdepth =>
      have hchild : cost limit width (depth + 1, maxRedirects + 2) =
          turnsWithin width (limit - depth) := by
        rw [show limit - depth = limit - (depth + 1) + 1 by omega, turnsWithin_succ, cost,
          if_neg (by simp), Nat.add_comm]
      have hchildren : queued * turnsWithin width (limit - depth) ≤
          width * turnsWithin width (limit - depth) := Nat.mul_le_mul_right _ hqueued
      simp only [List.map_append, List.map_replicate, List.map_cons, List.sum_append,
        List.sum_replicate_nat, List.sum_cons, hchild]
      simp only [cost, Nat.reduceLT, if_true, if_neg (show ¬ left + 2 < 2 by omega)]
      omega

end AgendaStep

end Specimen
