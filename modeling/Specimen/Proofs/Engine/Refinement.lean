import Specimen.Proofs.Engine.Response
import Specimen.Proofs.Engine.Turn
/-!
# The engine computes the recursive evaluation

A run that has a new node on top of its stack works through that node and all that comes of
it before it touches what lies below. So a stretch of turns that leaves the rest of the
stack is one evaluation: `eval_of_run` reads the evaluation off a run that ends, by
induction on the turns, and `run_of_eval` makes the turns of an evaluation, by induction on
its nesting. Between the two ends of a stretch the arena only grows, and of the nodes that
were there only the one on top may differ.
-/

namespace Specimen

open Specimen.Random Regex

def outcomeAt (nodes : Array Node) (id : Nat) : Outcome := Arena.outcome { nodes } id

/-- The nodes from `start` on have got these outcomes. The arena may have grown, and no other
node that was there differs. -/
structure Made (nodes nodes' : Array Node) (start : Nat) (os : List Outcome) : Prop where
  size_le : nodes.size ≤ nodes'.size
  same : ∀ j < nodes.size, j < start ∨ start + os.length ≤ j → nodes'[j]? = nodes[j]?
  outcomes : (List.range' start os.length).map (outcomeAt nodes') = os

theorem outcomeAt_congr {nodes nodes' : Array Node} {id : Nat} (h : nodes'[id]? = nodes[id]?) :
    outcomeAt nodes' id = outcomeAt nodes id := by
  simp only [outcomeAt, Arena.outcome, h]

namespace Made

variable {nodes nodes₁ nodes' : Array Node} {start id : Nat} {o : Outcome} {os : List Outcome}

theorem nil (nodes : Array Node) (start : Nat) : Made nodes nodes start [] :=
  ⟨Nat.le_refl _, fun _ _ _ => rfl, rfl⟩

theorem one (hsize : nodes.size ≤ nodes'.size)
    (hsame : ∀ j < nodes.size, j ≠ id → nodes'[j]? = nodes[j]?) (ho : outcomeAt nodes' id = o) :
    Made nodes nodes' id [o] := by
  refine ⟨hsize, fun j hj hout => hsame j hj ?_, by simp [ho]⟩
  simp only [List.length_singleton] at hout
  omega

theorem outcome (h : Made nodes nodes' id [o]) : outcomeAt nodes' id = o := by
  simpa using h.outcomes

theorem same_of_ne (h : Made nodes nodes' id [o]) {j : Nat} (hj : j < nodes.size)
    (hne : j ≠ id) : nodes'[j]? = nodes[j]? := by
  apply h.same j hj
  simp only [List.length_singleton]
  omega

theorem cons (hstart : start < nodes.size) (h : Made nodes nodes₁ start [o])
    (h' : Made nodes₁ nodes' (start + 1) os) : Made nodes nodes' start (o :: os) := by
  have hsize := h.size_le
  refine ⟨Nat.le_trans h.size_le h'.size_le, fun j hj hout => ?_, ?_⟩
  · simp only [List.length_cons] at hout
    rw [h'.same j (by omega) (by omega), h.same_of_ne hj (by omega)]
  · have hhead : outcomeAt nodes' start = o := by
      rw [← h.outcome]
      exact outcomeAt_congr (h'.same start (by omega) (by omega))
    rw [List.length_cons, List.range'_succ, List.map_cons, hhead, h'.outcomes]

end Made

/-- The children of a node have just been made, from the place `start` on. -/
def AreNew (nodes : Array Node) (depth : Nat) (scope : Option ScopeId) (start : Nat)
    (children : List Child) : Prop :=
  ∀ i c, children[i]? = some c → nodes[start + i]? = some (Node.ofChild depth scope c)

namespace AreNew

variable {nodes nodes' : Array Node} {depth : Nat} {scope : Option ScopeId} {start : Nat}
  {c : Child} {children : List Child}

theorem head (h : AreNew nodes depth scope start (c :: children)) :
    nodes[start]? = some (Node.ofChild depth scope c) :=
  h 0 c rfl

theorem tail (h : AreNew nodes depth scope start (c :: children)) :
    AreNew nodes depth scope (start + 1) children := by
  intro i d hi
  have := h (i + 1) d (by simpa using hi)
  rwa [Nat.add_comm i 1, ← Nat.add_assoc] at this

theorem of_made {o : Outcome} (h : AreNew nodes depth scope start (c :: children))
    (hmade : Made nodes nodes' start [o]) : AreNew nodes' depth scope (start + 1) children := by
  intro i d hi
  have hd := h.tail i d hi
  rw [hmade.same_of_ne (Array.getElem?_eq_some_iff.1 hd).1 (by omega), hd]

end AreNew

/-! ## The arena around a family -/

theorem areNew_withFamily (nodes : Array Node) (id : Nat) (node : Node) (scope : ScopeId)
    (children : List Child) :
    AreNew (withFamily nodes id node scope children) (node.depth + 1) (some scope) nodes.size
      children := by
  intro i c hi
  rw [withFamily, Array.getElem?_append_right (by simp)]
  simp [hi]

theorem Made.of_settled {nodes : Array Node} {id : Nat} (node : Node) (o : Outcome)
    (hid : id < nodes.size) :
    Made nodes (nodes.setIfInBounds id { node with stage := o.stage, value := some o.value }) id
      [o] := by
  refine .one (by simp) (fun j hj hne => ?_) ?_
  · rw [Array.getElem?_setIfInBounds_ne (Ne.symm hne)]
  · simp [outcomeAt, Arena.outcome, hid, Json.ofOption]

theorem Made.of_again {nodes nodes' : Array Node} {id : Nat} {node : Node} {o : Outcome}
    (hmade : Made (nodes.setIfInBounds id node) nodes' id [o]) : Made nodes nodes' id [o] := by
  refine .one ?_ (fun j hj hne => ?_) hmade.outcome
  · simpa using hmade.size_le
  · rw [hmade.same_of_ne (by simpa using hj) hne, Array.getElem?_setIfInBounds_ne (Ne.symm hne)]

theorem Made.of_family {nodes nodes' : Array Node} {id : Nat} {node : Node} {scope : ScopeId}
    {children : List Child} {os : List Outcome} (scopes : Array Scope) (v : Json)
    (hid : id < nodes.size)
    (hmade : Made (withFamily nodes id node scope children) nodes' nodes.size os) :
    Made nodes (Arena.finish ⟨nodes', scopes⟩ id v).nodes id [⟨.done, v⟩] := by
  have hsize := hmade.size_le
  have hbelow : ∀ j < nodes.size,
      nodes'[j]? = (withFamily nodes id node scope children)[j]? := by
    intro j hj
    exact hmade.same j (Nat.lt_of_lt_of_le hj (size_le_withFamily _ _ _ _ _)) (.inl hj)
  have hnode := (hbelow id hid).trans (getElem?_withFamily node scope children hid)
  rw [if_pos rfl] at hnode
  have hfinish := Arena.getElem?_finish (a := ⟨nodes', scopes⟩) v hnode
  refine .one ?_ (fun j hj hne => ?_) ?_
  · rw [Arena.size_finish]
    exact Nat.le_trans (size_le_withFamily _ _ _ _ _) hsize
  · have hout : j ∉ List.range' nodes.size children.length := by
      rw [List.mem_range'_1]
      omega
    refine (hfinish j).trans ?_
    rw [if_neg hne, hbelow j hj, getElem?_withFamily node scope children hj, if_neg hne]
    simp [hout]
  · have hdone := hfinish id
    rw [if_pos rfl] at hdone
    simp only [outcomeAt, Arena.outcome]
    rw [hdone]
    rfl

namespace Engine

theorem run_succ (e : Engine) (n : Nat) (p : Progress) (nodes : Array Node) (id : NodeId)
    (rest : List NodeId) :
    e.run (n + 1) (.ofProgress p nodes (id :: rest)) =
      (e.turn (.ofProgress p nodes (id :: rest))).bind (e.run n) := rfl

/-- The second visit of a composite, once its children are made. -/
theorem run_of_made_family {e : Engine} (he : e.handlers.registered = []) (p : Progress)
    (rest : List NodeId) (n : Nat) {nodes nodes' : Array Node} {id : NodeId} {node : Node}
    {scope : ScopeId} {children : List Child} {os : List Outcome} (hid : id < nodes.size)
    (hcomposite : node.spec.IsComposite)
    (hlength : os.length = children.length)
    (hmade : Made (withFamily nodes id node scope children) nodes' nodes.size os) :
    e.run (n + 1) (.ofProgress p nodes' (id :: rest)) =
      e.run n (.ofProgress { p with report := p.report.countStep }
        (Arena.finish ⟨nodes', p.scopes⟩ id (assemble node.spec os)).nodes rest) := by
  have hwaiting : nodes'[id]? = some { node with
      stage := .toBuild, children := List.range' nodes.size children.length } := by
    rw [hmade.same id (Nat.lt_of_lt_of_le hid (size_le_withFamily _ _ _ _ _)) (.inl hid),
      getElem?_withFamily _ _ _ hid, if_pos rfl]
  have houtcomes : Arena.outcomes { nodes := nodes' }
      (List.range' nodes.size children.length) = os := by
    rw [← hlength]
    exact hmade.outcomes
  rw [run_succ, turn_eq_assemble he hwaiting rfl hcomposite]
  simp only [houtcomes, Option.bind_some, Run.finish_eq_ofProgress]

/-! ## From a run to the evaluation -/

/-- The children of a node, after which the rest of the stack is left. `hchild`
is the same for one node. -/
theorem each_of_run {e : Engine} {depth : Nat} {scope : Option ScopeId} {fuel bound : Nat}
    (hchild : ∀ n ≤ bound, ∀ {p : Progress} {nodes : Array Node} {id : NodeId}
      {rest : List NodeId} {node : Node} {final : Run}, nodes[id]? = some node →
      node.stage = .delayed → node.children = [] →
      e.run n (.ofProgress p nodes (id :: rest)) = some final →
      ∃ o p' nodes' m, m ≤ n ∧
        e.eval fuel node.spec node.depth node.scope node.redirects p = some (o, p') ∧
        Made nodes nodes' id [o] ∧ e.run m (.ofProgress p' nodes' rest) = some final)
    {children : List Child} {n : Nat} (hn : n ≤ bound) {p : Progress} {nodes : Array Node}
    {start : Nat} {rest : List NodeId} {final : Run}
    (hnew : AreNew nodes depth scope start children)
    (hrun : e.run n (.ofProgress p nodes (queuedIds start children ++ rest)) = some final) :
    ∃ os p' nodes' m, m ≤ n ∧
      Evaluation.each (fun s => e.eval fuel s depth scope 0) children p = some (os, p') ∧
      Made nodes nodes' start os ∧ e.run m (.ofProgress p' nodes' rest) = some final := by
  induction children generalizing n p nodes start with
  | nil => exact ⟨[], p, nodes, n, Nat.le_refl _, rfl, .nil _ _, hrun⟩
  | cons c children ih =>
      have hstart := (Array.getElem?_eq_some_iff.1 hnew.head).1
      cases c with
      | ready v =>
          have hready : Made nodes nodes start [⟨.done, v⟩] := by
            refine .one (Nat.le_refl _) (fun _ _ _ => rfl) ?_
            simp only [outcomeAt, Arena.outcome, hnew.head]
            rfl
          obtain ⟨os, p', nodes', m, hm, heach, hmade, hrun⟩ := ih hn hnew.tail hrun
          exact ⟨⟨.done, v⟩ :: os, p', nodes', m, hm,
            Evaluation.bind_eq_some.2 ⟨os, p', heach, rfl⟩, .cons hstart hready hmade, hrun⟩
      | queued s =>
          obtain ⟨o, p₁, nodes₁, m₁, hm₁, heval, hmade₁, hrun⟩ :=
            hchild n hn hnew.head rfl rfl hrun
          obtain ⟨os, p', nodes', m, hm, heach, hmade, hrun⟩ :=
            ih (Nat.le_trans hm₁ hn) (hnew.of_made hmade₁) hrun
          exact ⟨o :: os, p', nodes', m, Nat.le_trans hm hm₁,
            Evaluation.bind_eq_some.2
              ⟨o, p₁, heval, Evaluation.bind_eq_some.2 ⟨os, p', heach, rfl⟩⟩,
            .cons hstart hmade₁ hmade, hrun⟩

theorem length_of_each {child : Spec → Evaluation Outcome} {children : List Child}
    {p p' : Progress} {os : List Outcome}
    (h : Evaluation.each child children p = some (os, p')) : os.length = children.length := by
  induction children generalizing p os with
  | nil =>
      cases h
      rfl
  | cons c children ih =>
      cases c with
      | ready v =>
          obtain ⟨os', u, heach, h⟩ := Evaluation.bind_eq_some.1 h
          cases h
          simp [ih heach]
      | queued s =>
          obtain ⟨o, u, -, h⟩ := Evaluation.bind_eq_some.1 h
          obtain ⟨os', u', heach, h⟩ := Evaluation.bind_eq_some.1 h
          cases h
          simp [ih heach]

/-- A run that ends works through the node on top of its stack and leaves the rest of the stack,
which makes one evaluation. -/
theorem eval_of_run {e : Engine} (he : e.handlers.registered = []) :
    ∀ {n fuel : Nat}, n ≤ fuel → ∀ {p : Progress} {nodes : Array Node} {id : NodeId}
      {rest : List NodeId} {node : Node} {final : Run}, nodes[id]? = some node →
      node.stage = .delayed → node.children = [] →
      e.run n (.ofProgress p nodes (id :: rest)) = some final →
      ∃ o p' nodes' m, m < n ∧
        e.eval fuel node.spec node.depth node.scope node.redirects p = some (o, p') ∧
        Made nodes nodes' id [o] ∧ e.run m (.ofProgress p' nodes' rest) = some final := by
  -- By induction on the turns: every level of the evaluation takes at least one of them, so fuel
  -- for the turns is fuel for the nesting.
  intro n
  induction n using Nat.strongRecOn with
  | ind n ih =>
  intro fuel hfuel p nodes id rest node final hnode hstage hchildren hrun
  have hid := (Array.getElem?_eq_some_iff.1 hnode).1
  obtain _ | n := n
  · cases hrun
  obtain ⟨fuel, rfl⟩ : ∃ k, fuel = k + 1 := ⟨fuel - 1, by omega⟩
  rw [run_succ, turn_eq_respond hnode hstage he hchildren] at hrun
  obtain ⟨r₁, hr₁, hrun⟩ := Option.bind_eq_some_iff.1 hrun
  obtain ⟨⟨response, p₁⟩, hrespond, rfl⟩ := Option.map_eq_some_iff.1 hr₁
  cases response with
  | settled o =>
      exact ⟨o, p₁, _, n, Nat.lt_succ_self n,
        Evaluation.bind_eq_some.2 ⟨_, _, hrespond, rfl⟩, .of_settled _ o hid, hrun⟩
  | again s =>
      have hnew : (nodes.setIfInBounds id { node with
          spec := s, redirects := node.redirects + 1 })[id]? = some { node with
          spec := s, redirects := node.redirects + 1 } :=
        Array.getElem?_setIfInBounds_self_of_lt hid
      obtain ⟨o, p', nodes', m, hm, heval, hmade, hrun⟩ :=
        ih n (Nat.lt_succ_self n) (Nat.le_of_succ_le_succ hfuel) hnew hstage hchildren hrun
      exact ⟨o, p', nodes', m, Nat.lt_succ_of_lt hm,
        Evaluation.bind_eq_some.2 ⟨_, _, hrespond, heval⟩, .of_again hmade, hrun⟩
  | family scope children =>
      have hchild : ∀ k ≤ n, ∀ {p : Progress} {nodes : Array Node} {id : NodeId}
          {rest : List NodeId} {node : Node} {final : Run}, nodes[id]? = some node →
          node.stage = .delayed → node.children = [] →
          e.run k (.ofProgress p nodes (id :: rest)) = some final →
          ∃ o p' nodes' m, m ≤ k ∧
            e.eval fuel node.spec node.depth node.scope node.redirects p = some (o, p') ∧
            Made nodes nodes' id [o] ∧ e.run m (.ofProgress p' nodes' rest) = some final := by
        intro k hk p nodes id rest node final hnode hstage hchildren hrun
        obtain ⟨o, p', nodes', m, hm, h⟩ :=
          ih k (Nat.lt_succ_of_le hk) (show k ≤ fuel by omega) hnode hstage hchildren hrun
        exact ⟨o, p', nodes', m, Nat.le_of_lt hm, h⟩
      obtain ⟨os, p₂, nodes₂, m, hm, heach, hmade, hrun⟩ :=
        each_of_run hchild (Nat.le_refl n) (areNew_withFamily nodes id _ scope children) hrun
      cases m with
      | zero => cases hrun
      | succ m =>
          have hlast := run_of_made_family he p₂ rest m hid (isComposite_of_family hrespond)
            (length_of_each heach) hmade
          rw [hlast] at hrun
          refine ⟨_, _, _, m, by omega, ?_, .of_family _ _ hid hmade, hrun⟩
          exact Evaluation.bind_eq_some.2
            ⟨_, _, hrespond, Evaluation.bind_eq_some.2 ⟨_, _, heach, rfl⟩⟩

/-! ## From the evaluation to a run -/

/-- The children of a node, whatever lies below them on the stack. `hchild` is the same for one
node. -/
theorem run_of_each {e : Engine} {depth : Nat} {scope : Option ScopeId} {fuel : Nat}
    (hchild : ∀ {p p' : Progress} {nodes : Array Node} {id : NodeId} {node : Node} {o : Outcome},
      nodes[id]? = some node → node.stage = .delayed → node.children = [] →
      e.eval fuel node.spec node.depth node.scope node.redirects p = some (o, p') →
      ∃ k nodes', Made nodes nodes' id [o] ∧ ∀ rest n,
        e.run (k + n) (.ofProgress p nodes (id :: rest)) = e.run n (.ofProgress p' nodes' rest))
    {children : List Child} {p p' : Progress} {nodes : Array Node} {start : Nat}
    {os : List Outcome} (hnew : AreNew nodes depth scope start children)
    (heach : Evaluation.each (fun s => e.eval fuel s depth scope 0) children p = some (os, p')) :
    ∃ k nodes', Made nodes nodes' start os ∧ ∀ rest n,
      e.run (k + n) (.ofProgress p nodes (queuedIds start children ++ rest)) =
        e.run n (.ofProgress p' nodes' rest) := by
  induction children generalizing p nodes start os with
  | nil =>
      cases heach
      exact ⟨0, nodes, .nil _ _, fun rest n => by rw [Nat.zero_add]; rfl⟩
  | cons c children ih =>
      have hstart := (Array.getElem?_eq_some_iff.1 hnew.head).1
      cases c with
      | ready v =>
          obtain ⟨os, p₁, heach, h⟩ := Evaluation.bind_eq_some.1 heach
          cases h
          have hready : Made nodes nodes start [⟨.done, v⟩] := by
            refine .one (Nat.le_refl _) (fun _ _ _ => rfl) ?_
            simp only [outcomeAt, Arena.outcome, hnew.head]
            rfl
          obtain ⟨k, nodes', hmade, hrun⟩ := ih hnew.tail heach
          exact ⟨k, nodes', .cons hstart hready hmade, hrun⟩
      | queued s =>
          obtain ⟨o, p₁, heval, h⟩ := Evaluation.bind_eq_some.1 heach
          obtain ⟨os, p₂, heach, h⟩ := Evaluation.bind_eq_some.1 h
          cases h
          obtain ⟨k₁, nodes₁, hmade₁, hrun₁⟩ := hchild hnew.head rfl rfl heval
          obtain ⟨k₂, nodes₂, hmade₂, hrun₂⟩ := ih (hnew.of_made hmade₁) heach
          refine ⟨k₁ + k₂, nodes₂, .cons hstart hmade₁ hmade₂, fun rest n => ?_⟩
          rw [Nat.add_assoc]
          exact (hrun₁ _ _).trans (hrun₂ rest n)

/-- An evaluation that ends is made by some number of turns, whatever lies below on the stack. -/
theorem run_of_eval {e : Engine} (he : e.handlers.registered = []) {fuel : Nat} :
    ∀ {p p' : Progress} {nodes : Array Node} {id : NodeId} {node : Node} {o : Outcome},
      nodes[id]? = some node → node.stage = .delayed → node.children = [] →
      e.eval fuel node.spec node.depth node.scope node.redirects p = some (o, p') →
      ∃ k nodes', Made nodes nodes' id [o] ∧ ∀ rest n,
        e.run (k + n) (.ofProgress p nodes (id :: rest)) =
          e.run n (.ofProgress p' nodes' rest) := by
  induction fuel with
  | zero =>
      intro p p' nodes id node o _ _ _ h
      cases h
  | succ fuel ih =>
      intro p p' nodes id node o hnode hstage hchildren heval
      have hid := (Array.getElem?_eq_some_iff.1 hnode).1
      obtain ⟨response, p₁, hrespond, heval⟩ := Evaluation.bind_eq_some.1 heval
      have hturn : ∀ rest n, e.run (n + 1) (.ofProgress p nodes (id :: rest)) =
          e.run n (Run.advance nodes id { node with spec := e.registry.resolve node.spec } rest
            (response, p₁)) := by
        intro rest n
        rw [run_succ, turn_eq_respond hnode hstage he hchildren, hrespond]
        rfl
      cases response with
      | settled o =>
          cases heval
          have hmade := Made.of_settled { node with spec := e.registry.resolve node.spec } o hid
          refine ⟨1, _, hmade, fun rest n => ?_⟩
          rw [Nat.add_comm]
          exact hturn rest n
      | again s =>
          have hid' : (nodes.setIfInBounds id { node with
              spec := s, redirects := node.redirects + 1 })[id]? = some { node with
              spec := s, redirects := node.redirects + 1 } :=
            Array.getElem?_setIfInBounds_self_of_lt hid
          obtain ⟨k, nodes', hmade, hrun⟩ := ih hid' hstage hchildren heval
          refine ⟨k + 1, nodes', .of_again hmade, fun rest n => ?_⟩
          rw [Nat.add_right_comm]
          exact (hturn rest _).trans (hrun rest n)
      | family scope children =>
          obtain ⟨os, p₂, heach, heval⟩ := Evaluation.bind_eq_some.1 heval
          cases heval
          -- One turn for the first visit, `k` for the children, and one to put them together.
          obtain ⟨k, nodes₂, hmade, hrun⟩ :=
            run_of_each ih (areNew_withFamily nodes id
              { node with spec := e.registry.resolve node.spec } scope children) heach
          refine ⟨k + 1 + 1, _, .of_family p₂.scopes _ hid hmade, fun rest n => ?_⟩
          have hlast := run_of_made_family he p₂ rest n hid (isComposite_of_family hrespond)
            (length_of_each heach) hmade
          rw [Nat.add_right_comm, Nat.add_right_comm k, Nat.add_assoc k]
          exact (hturn rest _).trans ((hrun (id :: rest) (n + 1)).trans hlast)

end Engine

end Specimen
