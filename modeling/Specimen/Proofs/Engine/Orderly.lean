import Specimen.Proofs.Engine.Move
/-!
# Order in the arena

What holds between the nodes and the stack of a generation, whatever the descriptions and the
draws are. There are three parts of it, each with the lemma that carries it over a move:

* `HasFamilies`: only composites wait for children, and each child has one parent, a level above;
* `IsStacked`: the stack holds the nodes that are not through, children above their parents;
* `HasValues`: the nodes that are through have values as long as somebody waits for them.

`Orderly` is all of them, and `Orderly.move` is the step of every induction over a generation.
-/

namespace Specimen

variable {nodes nodes' : Array Node} {stack stack' rest : List Nat} {id : Nat} {node : Node}

/-! ## Parents and children -/

/-- Only composites wait for children, and each child has one parent, one level above. -/
structure HasFamilies (nodes : Array Node) : Prop where
  root : 0 < nodes.size
  waits : ∀ {i c : Nat} {node : Node}, nodes[i]? = some node → c ∈ node.children →
    node.stage = .toBuild
  composite : ∀ {i : Nat} {node : Node}, nodes[i]? = some node → node.stage = .toBuild →
    node.spec.IsComposite
  child : ∀ {i c : Nat} {node : Node}, nodes[i]? = some node → c ∈ node.children →
    0 < c ∧ ∃ m, nodes[c]? = some m ∧ m.depth = node.depth + 1
  children_nodup : ∀ {i : Nat} {node : Node}, nodes[i]? = some node → node.children.Nodup
  parent_unique : ∀ {i j c : Nat}, IsChild nodes i c → IsChild nodes j c → i = j

namespace HasFamilies

theorem lt_of_isChild (h : HasFamilies nodes) {i c : Nat} (hc : IsChild nodes i c) :
    c < nodes.size := by
  obtain ⟨node, hnode, hc⟩ := hc
  obtain ⟨-, m, hm, -⟩ := h.child hnode hc
  exact (Array.getElem?_eq_some_iff.1 hm).1

theorem not_isChild_self (h : HasFamilies nodes) : ¬ IsChild nodes id id := by
  rintro ⟨node, hnode, hc⟩
  obtain ⟨-, m, hm, hdepth⟩ := h.child hnode hc
  rw [hnode] at hm
  cases hm
  omega

theorem children_eq_nil (h : HasFamilies nodes) (hnode : nodes[id]? = some node)
    (hstage : node.stage ≠ .toBuild) : node.children = [] := by
  apply List.eq_nil_iff_forall_not_mem.2
  intro c hc
  exact hstage (h.waits hnode hc)

theorem cases_of_move (h : HasFamilies nodes) (hmove : Move nodes stack nodes' stack') {j : Nat}
    {m' : Node} (hm' : nodes'[j]? = some m') :
    (∃ m v, nodes[j]? = some m ∧ m' = { m with value := v }) ∨
      (m'.stage ≠ .toBuild ∧ m'.children = []) ∨
      ∃ rest m, stack = j :: rest ∧ nodes[j]? = some m ∧ m.stage = .delayed ∧
        m'.WaitsForNew nodes nodes' := by
  apply hmove.cases_of_getElem? _ hm'
  intro i n hn hstage
  apply h.children_eq_nil hn
  rw [hstage]
  decide

/-- A child that a move gives to a node was one before, or it is new and the node was on top. -/
theorem isChild_of_move (h : HasFamilies nodes) (hmove : Move nodes stack nodes' stack')
    {i c : Nat} (hc : IsChild nodes' i c) :
    IsChild nodes i c ∨ (nodes.size ≤ c ∧ ∃ rest, stack = i :: rest) := by
  obtain ⟨m', hm', hmem⟩ := hc
  rcases h.cases_of_move hmove hm' with
    ⟨m, v, hm, rfl⟩ | ⟨-, hnil⟩ | ⟨rest, m, hstack, -, -, hnew⟩
  · exact .inl ⟨m, hm, hmem⟩
  · simp [hnil] at hmem
  · obtain ⟨k, hk⟩ := hnew.children
    rw [hk] at hmem
    exact .inr ⟨(List.mem_range'_1.1 hmem).1, rest, hstack⟩

theorem move (h : HasFamilies nodes) (hmove : Move nodes stack nodes' stack') :
    HasFamilies nodes' := by
  refine ⟨?root, ?waits, ?composite, ?child, ?nodup, ?unique⟩
  case root =>
      obtain ⟨m, hm, -⟩ := hmove.later (Array.getElem?_eq_getElem h.root)
      exact (Array.getElem?_eq_some_iff.1 hm).1
  case waits =>
      intro i c m' hm' hc
      rcases h.cases_of_move hmove hm' with ⟨m, v, hm, rfl⟩ | ⟨-, hnil⟩ | ⟨-, -, -, -, -, hnew⟩
      · have hwaits := h.waits hm hc
        exact hwaits
      · simp [hnil] at hc
      · exact hnew.stage
  case composite =>
      intro i m' hm' hbuild
      rcases h.cases_of_move hmove hm' with ⟨m, v, hm, rfl⟩ | ⟨hne, -⟩ | ⟨-, -, -, -, -, hnew⟩
      · have hcomposite := h.composite hm hbuild
        exact hcomposite
      · exact absurd hbuild hne
      · exact hnew.composite
  case child =>
      intro i c m' hm' hc
      rcases h.cases_of_move hmove hm' with ⟨m, v, hm, rfl⟩ | ⟨-, hnil⟩ | ⟨-, -, -, -, -, hnew⟩
      · obtain ⟨hpos, n, hn, hdepth⟩ := h.child hm hc
        obtain ⟨n', hn', hlater⟩ := hmove.later hn
        exact ⟨hpos, n', hn', hlater.depth.trans hdepth⟩
      · simp [hnil] at hc
      · refine ⟨?_, hnew.depth c hc⟩
        obtain ⟨k, hk⟩ := hnew.children
        rw [hk] at hc
        exact Nat.lt_of_lt_of_le h.root (List.mem_range'_1.1 hc).1
  case nodup =>
      intro i m' hm'
      rcases h.cases_of_move hmove hm' with ⟨m, v, hm, rfl⟩ | ⟨-, hnil⟩ | ⟨-, -, -, -, -, hnew⟩
      · have hnodup := h.children_nodup hm
        exact hnodup
      · rw [hnil]
        exact List.nodup_nil
      · obtain ⟨k, hk⟩ := hnew.children
        rw [hk]
        exact List.nodup_range'
  case unique =>
      intro i j c hi hj
      -- A new child has the node on top as its parent, and an old one the parent that it had.
      rcases h.isChild_of_move hmove hi with hi | ⟨hle, _, hi⟩ <;>
        rcases h.isChild_of_move hmove hj with hj | ⟨hle', _, hj⟩
      · exact h.parent_unique hi hj
      · exact absurd hle' (Nat.not_le.2 (h.lt_of_isChild hi))
      · exact absurd hle (Nat.not_le.2 (h.lt_of_isChild hj))
      · rw [hi] at hj
        exact (List.cons.inj hj).1

end HasFamilies

/-! ## The stack -/

/-- The stack holds the nodes that are not through, children above their parents. -/
structure IsStacked (nodes : Array Node) (stack : List Nat) : Prop where
  nodup : stack.Nodup
  mem_stack : ∀ {id : Nat}, id ∈ stack ↔
    ∃ node, nodes[id]? = some node ∧ node.stage.isThrough = false
  parents_below : stack.Pairwise fun a b => ¬ IsChild nodes a b

namespace IsStacked

theorem lt_of_mem_stack (h : IsStacked nodes stack) {j : Nat} (hj : j ∈ stack) :
    j < nodes.size := by
  obtain ⟨m, hm, -⟩ := h.mem_stack.1 hj
  exact (Array.getElem?_eq_some_iff.1 hm).1

theorem set (h : IsStacked nodes (id :: rest)) (hnode : nodes[id]? = some node) {n : Node}
    (hchildren : n.children = node.children)
    (hstack : stack = if n.stage.isThrough = true then rest else id :: rest) :
    IsStacked (nodes.setIfInBounds id n) stack := by
  have hsub : stack.Sublist (id :: rest) := by
    rw [hstack]
    split
    · exact List.sublist_cons_self _ _
    · exact List.Sublist.refl _
  refine ⟨hsub.nodup h.nodup, ?mem, ?below⟩
  case mem =>
      intro j
      rw [getElem?_set_of_some n hnode]
      by_cases hj : j = id
      · have hnotin := (List.nodup_cons.1 h.nodup).1
        rw [hj, hstack]
        cases hthrough : n.stage.isThrough <;> simp [hthrough, hnotin]
      · rw [if_neg hj, ← h.mem_stack, hstack]
        split <;> simp [hj]
  case below =>
      apply (h.parents_below.sublist hsub).imp
      intro a b hab hc
      exact hab ((isChild_set hnode hchildren a b).1 hc)

theorem withFamily (h : IsStacked nodes (id :: rest))
    (hnode : nodes[id]? = some node) (hnil : node.children = []) (n : Node) (scope : ScopeId)
    (children : List Child) :
    IsStacked (withFamily nodes id n scope children)
      (queuedIds nodes.size children ++ id :: rest) := by
  have hisChild := isChild_withFamily n scope children hnode hnil
  refine ⟨?nodup, ?mem, ?below⟩
  case nodup =>
      refine List.nodup_append.2 ⟨nodup_queuedIds _ _, h.nodup, fun a ha b hb hab => ?_⟩
      have := le_of_mem_queuedIds ha
      have := h.lt_of_mem_stack hb
      omega
  case mem =>
      intro j
      rw [List.mem_append]
      constructor
      · rintro (hj | hj)
        · obtain ⟨k, s, hk, rfl⟩ := mem_queuedIds.1 hj
          rw [getElem?_withFamily_new, hk]
          exact ⟨_, rfl, rfl⟩
        · rw [getElem?_withFamily n scope children (h.lt_of_mem_stack hj)]
          by_cases hji : j = id
          · exact ⟨_, if_pos hji, rfl⟩
          · rw [if_neg hji]
            exact h.mem_stack.1 hj
      · rintro ⟨m, hm, hthrough⟩
        rcases getElem?_withFamily_cases hm with ⟨rfl, -, -⟩ | ⟨-, hm⟩ | ⟨k, c, rfl, hc, rfl⟩
        · exact .inr List.mem_cons_self
        · exact .inr (h.mem_stack.2 ⟨m, hm, hthrough⟩)
        · cases c with
          | ready v => cases hthrough
          | queued s => exact .inl (mem_queuedIds.2 ⟨k, s, hc, rfl⟩)
  case below =>
      -- A new node has no children, and no node below it is new.
      have hnone : ∀ a ∈ queuedIds nodes.size children, ∀ b,
          ¬ IsChild (Specimen.withFamily nodes id n scope children) a b := by
        intro a ha b hab
        have hle := le_of_mem_queuedIds ha
        have hid := (Array.getElem?_eq_some_iff.1 hnode).1
        rcases (hisChild a b).1 hab with ⟨m, hm, -⟩ | ⟨rfl, -, -⟩
        · have := (Array.getElem?_eq_some_iff.1 hm).1
          omega
        · omega
      refine List.pairwise_append.2 ⟨?_, ?_, fun a ha b _ => hnone a ha b⟩
      · exact List.pairwise_of_forall_mem_list fun a ha b _ => hnone a ha b
      · apply h.parents_below.imp_of_mem
        intro a b _ hb hab hc
        rcases (hisChild a b).1 hc with hc | ⟨-, hle, -⟩
        · exact hab hc
        · have := h.lt_of_mem_stack hb
          omega

theorem finish (h : IsStacked nodes (id :: rest)) (hnode : nodes[id]? = some node)
    (scopes : Array Scope) (v : Json) :
    IsStacked (Arena.finish ⟨nodes, scopes⟩ id v).nodes rest := by
  have hget := Arena.getElem?_finish (a := ⟨nodes, scopes⟩) v hnode
  refine ⟨(List.nodup_cons.1 h.nodup).2, ?mem, ?below⟩
  case mem =>
      intro j
      by_cases hj : j = id
      · have hnotin := (List.nodup_cons.1 h.nodup).1
        rw [hj, hget, if_pos rfl]
        simp [hnotin, Stage.isThrough]
      · have hrest : j ∈ rest ↔ j ∈ id :: rest := by simp [hj]
        rw [hrest, h.mem_stack, hget, if_neg hj]
        cases hm : nodes[j]? with
        | none => simp
        | some m =>
            by_cases hc : j ∈ node.children <;> simp [hc]
  case below =>
      apply (List.pairwise_cons.1 h.parents_below).2.imp
      intro a b hab hc
      exact hab ((isChild_finish scopes v hnode a b).1 hc).2

theorem move (h : IsStacked nodes stack) (hfamilies : HasFamilies nodes)
    (hmove : Move nodes stack nodes' stack') : IsStacked nodes' stack' := by
  cases hmove with
  | settle node s o hnode hstage hthrough => exact h.set hnode rfl (if_pos hthrough).symm
  | redirect node s redirects hnode hstage =>
      refine h.set hnode (by rfl) ?_
      simp [hstage, Stage.isThrough]
  | expand node s scope children hnode hstage hcomposite =>
      have hnil := hfamilies.children_eq_nil hnode (by simp [hstage])
      exact h.withFamily hnode hnil _ scope children
  | assemble node scopes v hnode hstage => exact h.finish hnode scopes v

end IsStacked

/-! ## Values -/

/-- A node whose value somebody waits for: the root, or a child. -/
def IsHeld (nodes : Array Node) (id : Nat) : Prop := id = 0 ∨ ∃ i, IsChild nodes i id

/-- The nodes that are through have values as long as somebody waits for them. -/
structure HasValues (nodes : Array Node) : Prop where
  held : ∀ {id : Nat} {node : Node}, nodes[id]? = some node → node.stage.isThrough = false →
    IsHeld nodes id
  value : ∀ {id : Nat} {node : Node}, nodes[id]? = some node →
    (node.value.isSome ↔ node.stage.isThrough = true ∧ IsHeld nodes id)

theorem isHeld_set {n : Node} (hnode : nodes[id]? = some node)
    (hchildren : n.children = node.children) (j : Nat) :
    IsHeld (nodes.setIfInBounds id n) j ↔ IsHeld nodes j := by
  simp only [IsHeld, isChild_set hnode hchildren]

theorem isHeld_withFamily (n : Node) (scope : ScopeId) (children : List Child)
    (hnode : nodes[id]? = some node) (hnil : node.children = []) {j : Nat}
    (hj : j < nodes.size) :
    IsHeld (withFamily nodes id n scope children) j ↔ IsHeld nodes j := by
  simp only [IsHeld, isChild_withFamily n scope children hnode hnil]
  apply or_congr_right
  apply exists_congr
  intro i
  constructor
  · rintro (hi | ⟨-, hle, -⟩)
    · exact hi
    · omega
  · exact .inl

theorem isHeld_withFamily_new (n : Node) (scope : ScopeId) {children : List Child}
    (hnode : nodes[id]? = some node) (hnil : node.children = []) {k : Nat}
    (hk : k < children.length) :
    IsHeld (withFamily nodes id n scope children) (nodes.size + k) := by
  refine .inr ⟨id, ?_⟩
  rw [isChild_withFamily n scope children hnode hnil]
  exact .inr ⟨rfl, by omega, by omega⟩

theorem isHeld_finish (h : HasFamilies nodes) (hnode : nodes[id]? = some node)
    (scopes : Array Scope) (v : Json) (j : Nat) :
    IsHeld (Arena.finish ⟨nodes, scopes⟩ id v).nodes j ↔ IsHeld nodes j ∧ j ∉ node.children := by
  have hmem : j ∈ node.children ↔ IsChild nodes id j := by simp [IsChild, hnode]
  simp only [IsHeld, isChild_finish scopes v hnode, hmem]
  constructor
  · rintro (rfl | ⟨i, hi, hc⟩)
    · refine ⟨.inl rfl, fun hc => ?_⟩
      have := (h.child hnode (hmem.2 hc)).1
      omega
    · exact ⟨.inr ⟨i, hc⟩, fun hc' => hi (h.parent_unique hc hc')⟩
  · rintro ⟨rfl | ⟨i, hc⟩, hnot⟩
    · exact .inl rfl
    · refine .inr ⟨i, ?_, hc⟩
      rintro rfl
      exact hnot hc

namespace HasValues

theorem set (h : HasValues nodes) (hnode : nodes[id]? = some node)
    (hstage : node.stage.isThrough = false) {n : Node} (hchildren : n.children = node.children)
    (hvalue : n.value.isSome = n.stage.isThrough) : HasValues (nodes.setIfInBounds id n) := by
  have hopen : IsHeld nodes id := h.held hnode hstage
  refine ⟨?held, ?value⟩
  case held =>
      intro j m hm hthrough
      rw [isHeld_set hnode hchildren]
      rw [getElem?_set_of_some n hnode] at hm
      by_cases hj : j = id
      · rw [hj]
        exact hopen
      · rw [if_neg hj] at hm
        exact h.held hm hthrough
  case value =>
      intro j m hm
      rw [isHeld_set hnode hchildren]
      rw [getElem?_set_of_some n hnode] at hm
      by_cases hj : j = id
      · rw [if_pos hj] at hm
        cases hm
        rw [hvalue, hj]
        exact (and_iff_left hopen).symm
      · rw [if_neg hj] at hm
        exact h.value hm

theorem withFamily (h : HasValues nodes) (hnode : nodes[id]? = some node)
    (hstage : node.stage.isThrough = false) (hnil : node.children = []) (n : Node)
    (hvalue : n.value = node.value) (scope : ScopeId) (children : List Child) :
    HasValues (withFamily nodes id n scope children) := by
  have hopen : IsHeld nodes id := h.held hnode hstage
  have hold : ∀ {j : Nat} {m : Node}, nodes[j]? = some m →
      (IsHeld (Specimen.withFamily nodes id n scope children) j ↔ IsHeld nodes j) := by
    intro j m hm
    exact isHeld_withFamily n scope children hnode hnil (Array.getElem?_eq_some_iff.1 hm).1
  have hnew : ∀ {k : Nat} {c : Child}, children[k]? = some c →
      IsHeld (Specimen.withFamily nodes id n scope children) (nodes.size + k) := by
    intro k c hc
    exact isHeld_withFamily_new n scope hnode hnil (List.getElem?_eq_some_iff.1 hc).1
  refine ⟨?held, ?value⟩
  case held =>
      intro j m hm hthrough
      rcases getElem?_withFamily_cases hm with ⟨rfl, -, -⟩ | ⟨-, hm⟩ | ⟨k, c, rfl, hc, -⟩
      · exact (hold hnode).2 hopen
      · exact (hold hm).2 (h.held hm hthrough)
      · exact hnew hc
  case value =>
      intro j m hm
      rcases getElem?_withFamily_cases hm with ⟨rfl, -, rfl⟩ | ⟨-, hm⟩ | ⟨k, c, rfl, hc, rfl⟩
      · have hnone := h.value hnode
        simp [hstage] at hnone
        simp [Stage.isThrough, hvalue, hnone]
      · rw [hold hm]
        exact h.value hm
      · rw [value_ofChild]
        exact (and_iff_left (hnew hc)).symm

theorem finish (h : HasValues nodes) (hfamilies : HasFamilies nodes)
    (hnode : nodes[id]? = some node) (hstage : node.stage.isThrough = false)
    (hchildren : ∀ {c : Nat} {m : Node}, c ∈ node.children → nodes[c]? = some m →
      m.stage.isThrough = true) (scopes : Array Scope) (v : Json) :
    HasValues (Arena.finish ⟨nodes, scopes⟩ id v).nodes := by
  have hget := Arena.getElem?_finish (a := ⟨nodes, scopes⟩) v hnode
  have hheld := isHeld_finish hfamilies hnode scopes v
  have hopen : IsHeld nodes id ∧ id ∉ node.children :=
    ⟨h.held hnode hstage, fun hc => hfamilies.not_isChild_self ⟨node, hnode, hc⟩⟩
  refine ⟨?held, ?value⟩
  case held =>
      intro j m' hm' hthrough
      rw [hheld]
      rw [hget] at hm'
      by_cases hj : j = id
      · rw [hj]
        exact hopen
      · rw [if_neg hj] at hm'
        obtain ⟨m, hm, rfl⟩ := Option.map_eq_some_iff.1 hm'
        -- A child is through, so whatever is still open is none, and is held as before.
        have hopen' : m.stage.isThrough = false := by split at hthrough <;> exact hthrough
        refine ⟨h.held hm hopen', fun hc => ?_⟩
        rw [hchildren hc hm] at hopen'
        cases hopen'
  case value =>
      intro j m' hm'
      rw [hheld]
      rw [hget] at hm'
      by_cases hj : j = id
      · rw [if_pos hj] at hm'
        cases hm'
        rw [hj]
        simp [Stage.isThrough, hopen]
      · rw [if_neg hj] at hm'
        obtain ⟨m, hm, rfl⟩ := Option.map_eq_some_iff.1 hm'
        by_cases hc : j ∈ node.children
        · simp [hc]
        · simp only [hc, if_false, not_false_eq_true, and_true]
          exact h.value hm

end HasValues

/-! ## Together -/

/-- The nodes and the stack are in order. -/
structure Orderly (nodes : Array Node) (stack : List Nat) : Prop extends
  HasFamilies nodes, IsStacked nodes stack, HasValues nodes

namespace Orderly

theorem start (root : Spec) : Orderly #[{ spec := root, depth := 0, scope := none }] [0] := by
  have hget : ∀ {id : Nat} {node : Node},
      (#[{ spec := root, depth := 0, scope := none }] : Array Node)[id]? = some node →
        id = 0 ∧ node = { spec := root, depth := 0, scope := none } := by
    intro id node h
    cases id with
    | zero => exact ⟨rfl, (Option.some.inj h).symm⟩
    | succ id => simp at h
  have hchild : ∀ i c : Nat, ¬ IsChild #[{ spec := root, depth := 0, scope := none }] i c := by
    rintro i c ⟨node, hnode, hc⟩
    obtain ⟨-, rfl⟩ := hget hnode
    cases hc
  refine ⟨⟨by simp, ?waits, ?composite, ?child, ?nodup, ?unique⟩, ⟨by simp, ?mem, by simp⟩,
    ⟨?held, ?value⟩⟩
  case waits => exact fun hnode hc => absurd ⟨_, hnode, hc⟩ (hchild _ _)
  case child => exact fun hnode hc => absurd ⟨_, hnode, hc⟩ (hchild _ _)
  case unique => exact fun hi => absurd hi (hchild _ _)
  case composite =>
      intro i node hnode hstage
      obtain ⟨-, rfl⟩ := hget hnode
      cases hstage
  case nodup =>
      intro i node hnode
      obtain ⟨-, rfl⟩ := hget hnode
      exact List.nodup_nil
  case mem =>
      intro id
      constructor
      · intro h
        rw [List.mem_singleton.1 h]
        exact ⟨_, rfl, rfl⟩
      · rintro ⟨node, hnode, -⟩
        exact List.mem_singleton.2 (hget hnode).1
  case held =>
      intro id node hnode _
      exact .inl (hget hnode).1
  case value =>
      intro id node hnode
      obtain ⟨-, rfl⟩ := hget hnode
      simp [Stage.isThrough]

/-- The children of a composite that is visited again are through and have their values. -/
theorem through_of_isChild (h : Orderly nodes (id :: rest)) {c : Nat} (hc : IsChild nodes id c) :
    ∃ m, nodes[c]? = some m ∧ m.stage.isThrough = true ∧ m.value.isSome = true := by
  have hlt := h.lt_of_isChild hc
  have hm : nodes[c]? = some nodes[c] := Array.getElem?_eq_getElem hlt
  have hnotin : c ∉ id :: rest := by
    intro hstack
    rcases List.mem_cons.1 hstack with rfl | hrest
    · exact h.not_isChild_self hc
    · exact (List.pairwise_cons.1 h.parents_below).1 c hrest hc
  have hthrough : nodes[c].stage.isThrough = true := by
    rw [← Bool.not_eq_false]
    exact fun hopen => hnotin (h.mem_stack.2 ⟨_, hm, hopen⟩)
  exact ⟨_, hm, hthrough, (h.value hm).2 ⟨hthrough, .inr ⟨id, hc⟩⟩⟩

theorem hasValues_of_move (h : Orderly nodes stack) (hmove : Move nodes stack nodes' stack') :
    HasValues nodes' := by
  cases hmove with
  | settle node s o hnode hstage hthrough =>
      refine h.toHasValues.set hnode ?_ rfl hthrough.symm
      rw [hstage, Stage.isThrough]
  | redirect node s redirects hnode hstage =>
      have hopen : node.stage.isThrough = false := by rw [hstage, Stage.isThrough]
      have hvalue := h.value hnode
      refine h.toHasValues.set hnode hopen (by rfl) ?_
      simp_all
  | expand node s scope children hnode hstage hcomposite =>
      have hopen : node.stage.isThrough = false := by rw [hstage, Stage.isThrough]
      have hnil := h.children_eq_nil hnode (by simp [hstage])
      exact h.toHasValues.withFamily hnode hopen hnil { node with spec := s } rfl scope children
  | assemble node scopes v hnode hstage =>
      refine h.toHasValues.finish h.toHasFamilies hnode ?_ ?_ scopes v
      · rw [hstage, Stage.isThrough]
      · intro c m hc hm
        obtain ⟨m', hm', hthrough, -⟩ := h.through_of_isChild ⟨node, hnode, hc⟩
        rw [hm] at hm'
        cases hm'
        exact hthrough

/-- One move keeps the order. -/
theorem move (h : Orderly nodes stack) (hmove : Move nodes stack nodes' stack') :
    Orderly nodes' stack' :=
  ⟨h.toHasFamilies.move hmove, h.toIsStacked.move h.toHasFamilies hmove,
    h.hasValues_of_move hmove⟩

end Orderly

end Specimen
