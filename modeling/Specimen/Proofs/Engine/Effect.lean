import Specimen.Proofs.Engine.Turns
/-!
# What a visit may do, whatever its handler decides

A visit closes its node or leaves it on the stack below new nodes. It changes no other node, but
that the children of a node that is closed hand their values over (`Effect`). So at every moment
the stack has each node at most once and children are nodes that exist, also with handlers that
are not built in (`Grounded`).
-/

namespace Specimen

open Specimen.Random Regex

/-- What a visit of a node above `rest` may do to the nodes and the stack. -/
structure Effect (nodes : Array Node) (id : NodeId) (node : Node) (rest : List NodeId)
    (nodes' : Array Node) (stack' : List NodeId) : Prop where
  visited : nodes[id]? = some node
  size_le : nodes.size ≤ nodes'.size
  /-- Another node stays as it is, or hands its value over. -/
  others : ∀ j x, j ≠ id → nodes[j]? = some x →
    nodes'[j]? = some x ∨ j ∈ node.children ∧ nodes'[j]? = some { x with value := none }
  newborn : ∀ j y, nodes.size ≤ j → nodes'[j]? = some y → y.children = []
  own : ∃ y, nodes'[id]? = some y ∧
    (∀ c ∈ y.children, c ∈ node.children ∨ nodes.size ≤ c ∧ c < nodes'.size) ∧
    (y.stage = .delayed → node.stage = .delayed ∧ y.children = node.children) ∧
    (y.stage.isThrough = true ∧ stack' = rest ∨
      ∃ fresh, stack' = fresh ++ id :: rest ∧ fresh.Nodup ∧
        ∀ j ∈ fresh, nodes.size ≤ j ∧ j < nodes'.size)

variable {nodes nodes' : Array Node} {id : NodeId} {node n : Node} {rest stack' : List NodeId}

namespace Effect

/-- Where another node comes from that is there after a visit. -/
theorem cases_of_getElem? (h : Effect nodes id node rest nodes' stack') {j : NodeId} {y : Node}
    (hj : j ≠ id) (hy : nodes'[j]? = some y) :
    (∃ x, nodes[j]? = some x ∧ (y = x ∨ j ∈ node.children ∧ y = { x with value := none })) ∨
      nodes.size ≤ j ∧ y.children = [] := by
  rcases Nat.lt_or_ge j nodes.size with hlt | hge
  · have hx := Array.getElem?_eq_getElem hlt
    refine .inl ⟨nodes[j], hx,
      (h.others j _ hj hx).imp (fun hsame => ?_) fun ⟨hmem, hsame⟩ => ?_⟩
    · exact Option.some.inj (hy.symm.trans hsame)
    · exact ⟨hmem, Option.some.inj (hy.symm.trans hsame)⟩
  · exact .inr ⟨hge, h.newborn j y hge hy⟩

/-- What is done to a node that stays on the stack, and then more to it. -/
theorem trans {nodes₁ : Array Node} (h : Effect nodes id node rest nodes₁ (id :: rest))
    (hn : nodes₁[id]? = some n) (h' : Effect nodes₁ id n rest nodes' stack') :
    Effect nodes id node rest nodes' stack' := by
  have hsize := h.size_le
  obtain ⟨y, hy, hchildren, hdelayed, -⟩ := h.own
  obtain rfl : y = n := Option.some.inj (hy.symm.trans hn)
  refine ⟨h.visited, Nat.le_trans hsize h'.size_le, fun j x hj hx => ?_, fun j z hj hz => ?_, ?_⟩
  · have hlt := (Array.getElem?_eq_some_iff.1 hx).1
    rcases h.others j x hj hx with hx₁ | ⟨hmem, hx₁⟩
    · refine (h'.others j x hj hx₁).imp_right fun ⟨hmem, hx'⟩ => ⟨?_, hx'⟩
      exact (hchildren j hmem).resolve_right fun hnew => absurd hlt (Nat.not_lt.2 hnew.1)
    · exact (h'.others j _ hj hx₁).elim (fun hx' => .inr ⟨hmem, hx'⟩)
        fun ⟨_, hx'⟩ => .inr ⟨hmem, hx'⟩
  · have hne : j ≠ id := fun heq =>
      absurd (Array.getElem?_eq_some_iff.1 h.visited).1 (Nat.not_lt.2 (heq ▸ hj))
    obtain ⟨x, hx, rfl | ⟨-, rfl⟩⟩ | ⟨-, hnil⟩ := h'.cases_of_getElem? hne hz
    · exact h.newborn j _ hj hx
    · exact h.newborn j x hj hx
    · exact hnil
  · obtain ⟨z, hz, hchildren', hdelayed', hstack⟩ := h'.own
    refine ⟨z, hz, fun c hc => ?_, fun hz => ?_, hstack.imp_right ?_⟩
    · rcases hchildren' c hc with hmem | hnew
      · exact (hchildren c hmem).imp_right fun h => ⟨h.1, Nat.lt_of_lt_of_le h.2 h'.size_le⟩
      · exact .inr ⟨Nat.le_trans hsize hnew.1, hnew.2⟩
    · obtain ⟨hy, hsame⟩ := hdelayed' hz
      exact ⟨(hdelayed hy).1, hsame.trans (hdelayed hy).2⟩
    · rintro ⟨fresh, hstack, hnodup, hfresh⟩
      exact ⟨fresh, hstack, hnodup,
        fun j hj => ⟨Nat.le_trans hsize (hfresh j hj).1, (hfresh j hj).2⟩⟩

/-- Only the node itself is changed. -/
theorem set (hnode : nodes[id]? = some node) (hchildren : n.children = node.children)
    (hdelayed : n.stage = .delayed → node.stage = .delayed)
    (hstack : n.stage.isThrough = true ∧ stack' = rest ∨ stack' = id :: rest) :
    Effect nodes id node rest (nodes.setIfInBounds id n) stack' := by
  have hsize : (nodes.setIfInBounds id n).size = nodes.size := Array.size_setIfInBounds
  refine ⟨hnode, Nat.le_of_eq hsize.symm, fun j x hj hx => .inl ?_, fun j y hj hy => ?_, n, ?_,
    ?_, ?_, ?_⟩
  · rwa [getElem?_set_of_some n hnode, if_neg hj]
  · have := (Array.getElem?_eq_some_iff.1 hy).1
    omega
  · rw [getElem?_set_of_some n hnode, if_pos rfl]
  · exact fun c hc => .inl (hchildren ▸ hc)
  · exact fun h => ⟨hdelayed h, hchildren⟩
  · exact hstack.imp_right fun h => ⟨[], h, List.nodup_nil, nofun⟩

/-- The node gets its value, and its children hand over theirs. -/
theorem finish (hnode : nodes[id]? = some node) (scopes : Array Scope) (v : Json) :
    Effect nodes id node rest (Arena.finish ⟨nodes, scopes⟩ id v).nodes rest := by
  have hget := Arena.getElem?_finish (a := ⟨nodes, scopes⟩) v hnode
  have hsize := Arena.size_finish ⟨nodes, scopes⟩ id v
  refine ⟨hnode, Nat.le_of_eq hsize.symm, fun j x hj hx => ?_, fun j y hj hy => ?_,
    _, (hget id).trans (if_pos rfl), ?_, ?_, .inl ⟨rfl, rfl⟩⟩
  · rw [hget, if_neg hj, show nodes[j]? = some x from hx]
    by_cases hmem : j ∈ node.children
    · exact .inr ⟨hmem, by rw [Option.map_some, if_pos hmem]⟩
    · exact .inl (by rw [Option.map_some, if_neg hmem])
  · have hlt := (Array.getElem?_eq_some_iff.1 hy).1
    rw [hsize] at hlt
    exact absurd hj (Nat.not_le.2 hlt)
  · exact fun c hc => nomatch hc
  · exact fun h => nomatch h

end Effect

namespace Arena

/-- The nodes after some have been added as children of one. -/
theorem getElem?_adopt {a : Arena} (hnode : a.nodes[id]? = some node) (children : List Node)
    (j : NodeId) : (a.adopt id children).nodes[j]? =
      if j < a.nodes.size then
        if j = id then some { node with
          stage := .toBuild,
          children := node.children ++ List.range' a.nodes.size children.length }
        else a.nodes[j]?
      else children[j - a.nodes.size]? := by
  have hmodify := modify_eq_setIfInBounds (fun n : Node => { n with
    stage := .toBuild
    children := n.children ++ List.range' a.nodes.size children.length }) hnode
  have hnodes : (a.adopt id children).nodes = a.nodes.setIfInBounds id { node with
      stage := .toBuild
      children := node.children ++ List.range' a.nodes.size children.length } ++
        children.toArray := by
    rw [← hmodify]
    rfl
  rw [hnodes, Array.getElem?_append, Array.size_setIfInBounds]
  split
  · exact getElem?_set_of_some _ hnode j
  · exact List.getElem?_toArray

theorem size_adopt (a : Arena) (id : NodeId) (children : List Node) :
    (a.adopt id children).nodes.size = a.nodes.size + children.length := by
  simp [adopt, modify]

theorem nodes_place (a : Arena) (parent : Option ScopeId) (placement : Placement) :
    (a.place parent placement).1.nodes = a.nodes := by
  cases placement <;> rfl

theorem nodes_setScope (a : Arena) (id : Option ScopeId) (s : Option Scope) :
    (a.setScope id s).nodes = a.nodes := by
  cases id <;> cases s <;> rfl

end Arena

namespace Effect

/-- The node waits for new children. -/
theorem adopt {a : Arena} (hnode : a.nodes[id]? = some node) {children : List Node}
    (hchildren : ∀ c ∈ children, c.children = []) {fresh : List NodeId} (hnodup : fresh.Nodup)
    (hfresh : ∀ j ∈ fresh, a.nodes.size ≤ j ∧ j < a.nodes.size + children.length) :
    Effect a.nodes id node rest (a.adopt id children).nodes (fresh ++ id :: rest) := by
  have hget := Arena.getElem?_adopt hnode children
  have hsize := a.size_adopt id children
  have hid := (Array.getElem?_eq_some_iff.1 hnode).1
  refine ⟨hnode, by omega, fun j x hj hx => .inl ?_, fun j y hj hy => ?_,
    _, (hget id).trans ((if_pos hid).trans (if_pos rfl)), fun c hc => ?_, ?_,
    .inr ⟨fresh, rfl, hnodup, hsize ▸ hfresh⟩⟩
  · rw [hget, if_pos (Array.getElem?_eq_some_iff.1 hx).1, if_neg hj, hx]
  · rw [hget, if_neg (Nat.not_lt.2 hj)] at hy
    exact hchildren y (List.mem_of_getElem? hy)
  · rw [hsize]
    exact (List.mem_append.1 hc).imp_right List.mem_range'_1.1
  · exact fun h => nomatch h

/-- The node has asked for nothing that could be made, and fails with the children it got. -/
theorem adopt_finish {a : Arena} (hnode : a.nodes[id]? = some node) {children : List Node}
    (hchildren : ∀ c ∈ children, c.children = []) (v : Json) :
    Effect a.nodes id node rest ((a.adopt id children).finish id v).nodes rest := by
  have hid := (Array.getElem?_eq_some_iff.1 hnode).1
  have hadopted : (a.adopt id children).nodes[id]? = some { node with
      stage := .toBuild,
      children := node.children ++ List.range' a.nodes.size children.length } :=
    (Arena.getElem?_adopt hnode children id).trans ((if_pos hid).trans (if_pos rfl))
  have hadopt : Effect a.nodes id node rest (a.adopt id children).nodes ([] ++ id :: rest) :=
    .adopt hnode hchildren List.nodup_nil nofun
  exact hadopt.trans hadopted (.finish hadopted _ v)

end Effect

namespace Engine

variable {e : Engine} {r s : Run}

theorem effect_of_expand (hnode : r.arena.nodes[id]? = some node) (room : Option Nat)
    (placement : Placement) (children : List Child) :
    Effect r.arena.nodes id node r.stack (expand r id node room placement children).arena.nodes
      (expand r id node room placement children).stack := by
  generalize hkept : accommodate room children = kept
  obtain ⟨kept, cut⟩ := kept
  generalize hplace : r.arena.place node.scope placement = placed
  obtain ⟨a, scope⟩ := placed
  have hnodes : a.nodes = r.arena.nodes := by
    rw [← Arena.nodes_place r.arena node.scope placement, hplace]
  have hown : ∀ c ∈ kept.map (Node.ofChild (node.depth + 1) scope), c.children = [] := by
    intro c hc
    obtain ⟨child, -, rfl⟩ := List.mem_map.1 hc
    exact children_ofChild _ _ child
  rw [← hnodes] at hnode ⊢
  simp only [expand, hkept, hplace]
  split
  · exact .adopt_finish hnode hown .null
  · refine .adopt hnode hown (nodup_queuedIds _ kept) fun j hj => ?_
    obtain ⟨i, spec, hi, rfl⟩ := mem_queuedIds.1 hj
    have := (List.getElem?_eq_some_iff.1 hi).1
    rw [hnodes, List.length_map]
    exact ⟨Nat.le_add_right _ _, Nat.add_lt_add_left this _⟩

theorem effect_of_settle (hnode : r.arena.nodes[id]? = some node) (room : Option Nat)
    (verdict : Verdict) :
    Effect r.arena.nodes id node r.stack (settle r id node room verdict).arena.nodes
      (settle r id node room verdict).stack := by
  cases verdict with
  | finish v => exact .finish hnode r.arena.scopes v
  | pending => exact .finish hnode r.arena.scopes .null
  | redirect s =>
      simp only [settle]
      split
      · exact .finish hnode r.arena.scopes .null
      · have hset := modify_eq_setIfInBounds
          (fun n : Node => { n with spec := s, redirects := n.redirects + 1 }) hnode
        simp only [Arena.redirect, Arena.modify, hset]
        exact .set hnode rfl (fun h => h) (.inr rfl)
  | expand placement children => exact effect_of_expand hnode room placement children

theorem effect_of_consult {h : Handler} (hnode : r.arena.nodes[id]? = some node)
    (hs : e.consult h r id node = some s) :
    Effect r.arena.nodes id node r.stack s.arena.nodes s.stack := by
  simp only [consult] at hs
  split at hs
  · cases hs
  · rename_i answer supply _
    have hnodes := Arena.nodes_setScope r.arena node.scope supply.scope
    rw [← hnodes] at hnode ⊢
    split at hs
    · cases hs
      exact .finish hnode _ .null
    · cases hs
      exact effect_of_settle (r := { r with
        arena := r.arena.setScope node.scope supply.scope
        report := r.report.countDropped supply.dropped
        source := supply.source
        synthesizer := supply.synthesizer }) hnode _ _

theorem effect_of_dispatch (hnode : r.arena.nodes[id]? = some node)
    (hs : e.dispatch r id node = some s) :
    Effect r.arena.nodes id node r.stack s.arena.nodes s.stack := by
  simp only [dispatch] at hs
  split at hs
  · cases hs
    exact .finish hnode r.arena.scopes .null
  · split at hs
    · exact effect_of_consult hnode hs
    · exact effect_of_consult (r := { r with report := r.report.countUsage _ }) hnode hs

theorem effect_of_visit (hnode : r.arena.nodes[id]? = some node)
    (hs : e.visit r id node = some s) :
    Effect r.arena.nodes id node r.stack s.arena.nodes s.stack := by
  unfold visit at hs
  split at hs
  · exact effect_of_dispatch hnode hs
  · have hset := modify_eq_setIfInBounds
      (fun _ : Node => { node with spec := e.registry.resolve node.spec }) hnode
    have hresolved : (r.arena.nodes.setIfInBounds id
        { node with spec := e.registry.resolve node.spec })[id]? =
          some { node with spec := e.registry.resolve node.spec } := by
      rw [getElem?_set_of_some _ hnode, if_pos rfl]
    refine (Effect.set (n := { node with spec := e.registry.resolve node.spec }) hnode rfl
      (fun h => h) (.inr rfl)).trans hresolved ?_
    simp only [Arena.modify, hset] at hs
    split at hs
    · cases hs
      simp only [Arena.truncate, Arena.modify, modify_eq_setIfInBounds _ hresolved]
      exact .set hresolved rfl (by simp) (.inl ⟨rfl, rfl⟩)
    · exact effect_of_dispatch (r := { r with arena := { r.arena with nodes := _ } })
        hresolved hs

/-- Whatever the handlers are, a turn has the effect of a visit of the node on top. -/
theorem effect_of_turn (hstack : r.stack = id :: rest) (hnode : r.arena.nodes[id]? = some node)
    (hs : e.turn r = some s) : Effect r.arena.nodes id node rest s.arena.nodes s.stack := by
  simp only [turn, hstack, hnode] at hs
  exact effect_of_visit (r := { r with stack := rest, report := r.report.countStep }) hnode hs

end Engine

/-! ## What holds at every moment -/

/-- The stack and the children are made of nodes that exist, each once on the stack. A node that
nothing has been decided about has no children. -/
structure Grounded (nodes : Array Node) (stack : List NodeId) : Prop where
  nodup : stack.Nodup
  stack_lt : ∀ j ∈ stack, j < nodes.size
  child_lt : ∀ i c, IsChild nodes i c → c < nodes.size
  delayed : ∀ (i : NodeId) (x : Node), nodes[i]? = some x → x.stage = .delayed → x.children = []

/-- Where the children of a node come from that is there after a visit. -/
theorem Effect.isChild (h : Effect nodes id node rest nodes' stack') {i c : NodeId}
    (hc : IsChild nodes' i c) :
    IsChild nodes i c ∨ i = id ∧ nodes.size ≤ c ∧ c < nodes'.size := by
  obtain ⟨y, hy, hmem⟩ := hc
  by_cases hi : i = id
  · subst hi
    obtain ⟨z, hz, hchildren, -⟩ := h.own
    obtain rfl : y = z := Option.some.inj (hy.symm.trans hz)
    exact (hchildren c hmem).imp (fun hold => ⟨node, h.visited, hold⟩) fun hnew => ⟨rfl, hnew⟩
  · obtain ⟨x, hx, rfl | ⟨-, rfl⟩⟩ | ⟨-, hnil⟩ := h.cases_of_getElem? hi hy
    · exact .inl ⟨_, hx, hmem⟩
    · exact .inl ⟨x, hx, hmem⟩
    · rw [hnil] at hmem
      cases hmem

namespace Grounded

theorem start (root : Spec) : Grounded #[{ spec := root, depth := 0, scope := none }] [0] := by
  have hget : ∀ {i : Nat} {x : Node},
      (#[{ spec := root, depth := 0, scope := none }] : Array Node)[i]? = some x →
        x.children = [] := by
    intro i x h
    cases i with
    | zero => cases h; rfl
    | succ i => simp at h
  refine ⟨by simp, ?_, ?_, fun i x hx _ => hget hx⟩
  · rintro j hj
    rw [List.mem_singleton.1 hj]
    exact Nat.zero_lt_one
  · rintro i c ⟨x, hx, hc⟩
    rw [hget hx] at hc
    cases hc

/-- A visit keeps the nodes and the stack grounded. -/
theorem effect (h : Grounded nodes (id :: rest)) (he : Effect nodes id node rest nodes' stack') :
    Grounded nodes' stack' := by
  obtain ⟨hid, hrest⟩ := List.nodup_cons.1 h.nodup
  obtain ⟨y, hy, -, hdelayed, hstack⟩ := he.own
  have hlt : ∀ j ∈ id :: rest, j < nodes'.size := fun j hj =>
    Nat.lt_of_lt_of_le (h.stack_lt j hj) he.size_le
  refine ⟨?nodup, ?stack, ?child, ?delayed⟩
  case nodup =>
    rcases hstack with ⟨-, rfl⟩ | ⟨fresh, rfl, hnodup, hfresh⟩
    · exact hrest
    · refine List.nodup_append.2 ⟨hnodup, h.nodup, fun a ha b hb heq => ?_⟩
      exact absurd (h.stack_lt b hb) (Nat.not_lt.2 (heq ▸ (hfresh a ha).1))
  case stack =>
    rcases hstack with ⟨-, rfl⟩ | ⟨fresh, rfl, -, hfresh⟩
    · exact fun j hj => hlt j (List.mem_cons_of_mem _ hj)
    · exact fun j hj => (List.mem_append.1 hj).elim (fun hj => (hfresh j hj).2) (hlt j)
  case child =>
    rintro i c hc
    rcases he.isChild hc with hold | ⟨-, -, hnew⟩
    · exact Nat.lt_of_lt_of_le (h.child_lt i c hold) he.size_le
    · exact hnew
  case delayed =>
    intro i x hx hstage
    by_cases hi : i = id
    · subst hi
      obtain rfl : x = y := Option.some.inj (hx.symm.trans hy)
      obtain ⟨hnode, hchildren⟩ := hdelayed hstage
      rw [hchildren, h.delayed i node he.visited hnode]
    · obtain ⟨z, hz, rfl | ⟨-, rfl⟩⟩ | ⟨-, hnil⟩ := he.cases_of_getElem? hi hx
      · exact h.delayed i _ hz hstage
      · exact h.delayed i z hz hstage
      · exact hnil

end Grounded

namespace Engine

variable {e : Engine} {r s : Run} {root : Spec} {source : Source} {synthesizer : Synthesizer}
  {n : Nat}

/-- A turn that is taken visits a node that exists. -/
theorem exists_effect_of_turn (h : Grounded r.arena.nodes r.stack) (hstack : r.stack ≠ [])
    (hs : e.turn r = some s) : ∃ id node rest, r.stack = id :: rest ∧
      Effect r.arena.nodes id node rest s.arena.nodes s.stack := by
  obtain ⟨id, rest, hr⟩ := List.exists_cons_of_ne_nil hstack
  have hlt := h.stack_lt id (hr ▸ List.mem_cons_self)
  exact ⟨id, _, rest, hr, effect_of_turn hr (Array.getElem?_eq_getElem hlt) hs⟩

theorem grounded_of_turns (h : e.turns n (Run.start root source synthesizer) = some r) :
    Grounded r.arena.nodes r.stack := by
  induction n generalizing r with
  | zero =>
      cases h
      exact .start root
  | succ n ih =>
      obtain ⟨q, hq, hstack, hturn⟩ := turns_succ_eq_some.1 h
      obtain ⟨id, node, rest, hr, heffect⟩ := exists_effect_of_turn (ih hq) hstack hturn
      exact (hr ▸ ih hq).effect heffect

end Engine

end Specimen
