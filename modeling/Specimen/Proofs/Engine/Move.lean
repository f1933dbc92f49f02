import Specimen.Proofs.Engine.Turn
/-!
# Moves of nodes

What one turn can do to the nodes and the stack of a generation, whatever the description and the
draws are. A `Move` settles the node on top, gives it another description, lets it wait for new
children, or puts it together from its children. The rest of the module says what that means for
a single node: its stage goes on, a value that has gone does not come back, and only a node that
was just visited gets children, which are new.
-/

namespace Specimen

/-- Whether a node has come to its value. -/
def Stage.isThrough : Stage → Bool
  | .delayed | .toBuild => false
  | .done | .truncated => true

/-- `c` is one of the children that `i` waits for. -/
def IsChild (nodes : Array Node) (i c : Nat) : Prop :=
  ∃ node, nodes[i]? = some node ∧ c ∈ node.children

/-- What a turn can do to the nodes and the stack. -/
inductive Move : Array Node → List Nat → Array Node → List Nat → Prop
  | settle {nodes : Array Node} {id : Nat} {rest : List Nat} (node : Node) (s : Spec)
      (o : Outcome) : nodes[id]? = some node → node.stage = .delayed →
      o.stage.isThrough = true →
      Move nodes (id :: rest)
        (nodes.setIfInBounds id { node with
          spec := s, stage := o.stage, value := some o.value }) rest
  | redirect {nodes : Array Node} {id : Nat} {rest : List Nat} (node : Node) (s : Spec)
      (redirects : Nat) : nodes[id]? = some node → node.stage = .delayed →
      Move nodes (id :: rest) (nodes.setIfInBounds id { node with spec := s, redirects })
        (id :: rest)
  | expand {nodes : Array Node} {id : Nat} {rest : List Nat} (node : Node) (s : Spec)
      (scope : ScopeId) (children : List Child) : nodes[id]? = some node →
      node.stage = .delayed → s.IsComposite →
      Move nodes (id :: rest) (withFamily nodes id { node with spec := s } scope children)
        (queuedIds nodes.size children ++ id :: rest)
  | assemble {nodes : Array Node} {id : Nat} {rest : List Nat} (node : Node)
      (scopes : Array Scope) (v : Json) : nodes[id]? = some node → node.stage = .toBuild →
      Move nodes (id :: rest) (Arena.finish ⟨nodes, scopes⟩ id v).nodes rest

variable {nodes : Array Node} {stack rest : List Nat} {id : Nat} {node : Node}

/-! ## Lookups after a move -/

theorem getElem?_set_of_some (n : Node) (h : nodes[id]? = some node) (j : Nat) :
    (nodes.setIfInBounds id n)[j]? = if j = id then some n else nodes[j]? :=
  getElem?_set_of_lt (Array.getElem?_eq_some_iff.1 h).1 n j

theorem isChild_set {n : Node} (h : nodes[id]? = some node) (hn : n.children = node.children)
    (i c : Nat) : IsChild (nodes.setIfInBounds id n) i c ↔ IsChild nodes i c := by
  simp only [IsChild, getElem?_set_of_some n h]
  by_cases hi : i = id
  · subst hi
    simp [h, hn]
  · simp [hi]

theorem getElem?_withFamily_new (n : Node) (scope : ScopeId) (children : List Child) (k : Nat) :
    (withFamily nodes id n scope children)[nodes.size + k]? =
      children[k]?.map (Node.ofChild (n.depth + 1) (some scope)) := by
  rw [withFamily, Array.getElem?_append_right (by simp)]
  simp

/-- Every place of the arena around a new family. -/
theorem getElem?_withFamily_cases {n m : Node} {scope : ScopeId} {children : List Child}
    {j : Nat} (h : (withFamily nodes id n scope children)[j]? = some m) :
    (j = id ∧ j < nodes.size ∧
        m = { n with stage := .toBuild, children := List.range' nodes.size children.length }) ∨
      (j ≠ id ∧ nodes[j]? = some m) ∨
      ∃ k c, j = nodes.size + k ∧ children[k]? = some c ∧
        m = Node.ofChild (n.depth + 1) (some scope) c := by
  by_cases hj : j < nodes.size
  · rw [getElem?_withFamily n scope children hj] at h
    by_cases hid : j = id
    · rw [if_pos hid] at h
      cases h
      exact .inl ⟨hid, hj, rfl⟩
    · rw [if_neg hid] at h
      exact .inr (.inl ⟨hid, h⟩)
  · obtain ⟨k, rfl⟩ : ∃ k, j = nodes.size + k := ⟨j - nodes.size, by omega⟩
    rw [getElem?_withFamily_new] at h
    obtain ⟨c, hc, rfl⟩ := Option.map_eq_some_iff.1 h
    exact .inr (.inr ⟨k, c, rfl, hc, rfl⟩)

@[simp] theorem children_ofChild (depth : Nat) (scope : Option ScopeId) (c : Child) :
    (Node.ofChild depth scope c).children = [] := by
  cases c <;> rfl

@[simp] theorem depth_ofChild (depth : Nat) (scope : Option ScopeId) (c : Child) :
    (Node.ofChild depth scope c).depth = depth := by
  cases c <;> rfl

theorem value_ofChild (depth : Nat) (scope : Option ScopeId) (c : Child) :
    (Node.ofChild depth scope c).value.isSome =
      (Node.ofChild depth scope c).stage.isThrough := by
  cases c <;> rfl

theorem stage_ofChild_ne (depth : Nat) (scope : Option ScopeId) (c : Child) :
    (Node.ofChild depth scope c).stage ≠ .toBuild := by
  cases c <;> simp [Node.ofChild]

theorem isChild_withFamily (n : Node) (scope : ScopeId) (children : List Child)
    (h : nodes[id]? = some node) (hnode : node.children = []) (i c : Nat) :
    IsChild (withFamily nodes id n scope children) i c ↔
      IsChild nodes i c ∨ (i = id ∧ nodes.size ≤ c ∧ c < nodes.size + children.length) := by
  have hid := (Array.getElem?_eq_some_iff.1 h).1
  constructor
  · rintro ⟨m, hm, hc⟩
    obtain ⟨rfl, -, rfl⟩ | ⟨-, hm⟩ | ⟨k, d, -, -, rfl⟩ := getElem?_withFamily_cases hm
    · exact .inr ⟨rfl, List.mem_range'_1.1 hc⟩
    · exact .inl ⟨m, hm, hc⟩
    · simp at hc
  · rintro (⟨m, hm, hc⟩ | ⟨rfl, hc⟩)
    · have hi := (Array.getElem?_eq_some_iff.1 hm).1
      refine ⟨m, ?_, hc⟩
      rw [getElem?_withFamily n scope children hi, if_neg ?_, hm]
      rintro rfl
      rw [h] at hm
      cases hm
      simp [hnode] at hc
    · refine ⟨_, (getElem?_withFamily n scope children hid).trans (if_pos rfl), ?_⟩
      exact List.mem_range'_1.2 hc

theorem isChild_finish (scopes : Array Scope) (v : Json) (h : nodes[id]? = some node)
    (i c : Nat) :
    IsChild (Arena.finish ⟨nodes, scopes⟩ id v).nodes i c ↔ i ≠ id ∧ IsChild nodes i c := by
  simp only [IsChild, Arena.getElem?_finish (a := ⟨nodes, scopes⟩) v h]
  by_cases hi : i = id
  · simp [hi]
  · simp only [ne_eq, hi, not_false_eq_true, true_and]
    constructor
    · rintro ⟨m, hm, hc⟩
      obtain ⟨n, hn, rfl⟩ := Option.map_eq_some_iff.1 hm
      refine ⟨n, hn, ?_⟩
      split at hc <;> exact hc
    · rintro ⟨n, hn, hc⟩
      refine ⟨_, Option.map_eq_some_iff.2 ⟨n, hn, rfl⟩, ?_⟩
      split <;> exact hc

/-! ## What a move does to one node -/

/-- The stages that a node goes through; it may also stay where it is. -/
inductive Stage.Next : Stage → Stage → Prop
  | stay (s : Stage) : Next s s
  | waits : Next .delayed .toBuild
  | finishes : Next .delayed .done
  | cutOff : Next .delayed .truncated
  | assembled : Next .toBuild .done

theorem Stage.Next.trans {a b c : Stage} (h : Next a b) (h' : Next b c) : Next a c := by
  cases h <;> cases h' <;> constructor

theorem Stage.Next.of_delayed (s : Stage) : Next .delayed s := by
  cases s <;> constructor

/-- What has become of a node a while later. -/
structure Node.Later (m m' : Node) : Prop where
  depth : m'.depth = m.depth
  stage : Stage.Next m.stage m'.stage
  /-- A value that has gone does not come back. -/
  gone : m.stage.isThrough = true → m.value = none → m'.value = none

theorem Stage.Next.isThrough {a b : Stage} (h : Next a b) (ha : a.isThrough = true) :
    b.isThrough = true := by
  cases h <;> first | exact ha | cases ha

theorem Node.Later.refl (m : Node) : m.Later m := ⟨rfl, .stay _, fun _ h => h⟩

theorem Node.Later.trans {a b c : Node} (h : a.Later b) (h' : b.Later c) : a.Later c :=
  ⟨h'.depth.trans h.depth, h.stage.trans h'.stage, fun ha hv =>
    h'.gone (h.stage.isThrough ha) (h.gone ha hv)⟩

/-- The node is a composite that waits for children which were not there before. -/
structure Node.WaitsForNew (nodes nodes' : Array Node) (m : Node) : Prop where
  stage : m.stage = .toBuild
  composite : m.spec.IsComposite
  children : ∃ k, m.children = List.range' nodes.size k
  depth : ∀ c : Nat, c ∈ m.children → ∃ n, nodes'[c]? = some n ∧ n.depth = m.depth + 1

theorem waitsForNew_withFamily {n : Node} (hn : n.spec.IsComposite) {scope : ScopeId}
    {children : List Child} :
    ({ n with stage := .toBuild, children := List.range' nodes.size children.length } :
      Node).WaitsForNew nodes (withFamily nodes id n scope children) := by
  refine ⟨rfl, hn, ⟨_, rfl⟩, fun c hc => ?_⟩
  obtain ⟨hle, hlt⟩ := List.mem_range'_1.1 hc
  obtain ⟨k, rfl⟩ : ∃ k, c = nodes.size + k := ⟨c - nodes.size, by omega⟩
  have hk : k < children.length := by omega
  rw [getElem?_withFamily_new, List.getElem?_eq_getElem hk]
  exact ⟨_, rfl, depth_ofChild _ _ _⟩

namespace Move

variable {nodes' : Array Node} {stack' : List Nat} {j : Nat} {m m' : Node}

theorem later (h : Move nodes stack nodes' stack') (hm : nodes[j]? = some m) :
    ∃ m', nodes'[j]? = some m' ∧ m.Later m' := by
  cases h with
  | settle node s o hnode hstage hthrough =>
      rw [getElem?_set_of_some _ hnode]
      split
      · rename_i hj
        rw [hj, hnode] at hm
        cases hm
        refine ⟨_, rfl, rfl, hstage ▸ .of_delayed _, fun h => ?_⟩
        simp [hstage, Stage.isThrough] at h
      · exact ⟨m, hm, .refl m⟩
  | redirect node s redirects hnode hstage =>
      rw [getElem?_set_of_some _ hnode]
      split
      · rename_i hj
        rw [hj, hnode] at hm
        cases hm
        exact ⟨_, rfl, rfl, .stay _, fun _ h => h⟩
      · exact ⟨m, hm, .refl m⟩
  | expand node s scope children hnode hstage hcomposite =>
      rw [getElem?_withFamily _ _ _ (Array.getElem?_eq_some_iff.1 hm).1]
      split
      · rename_i hj
        rw [hj, hnode] at hm
        cases hm
        exact ⟨_, rfl, rfl, hstage ▸ .of_delayed _, fun _ h => h⟩
      · exact ⟨m, hm, .refl m⟩
  | assemble node scopes v hnode hstage =>
      rw [Arena.getElem?_finish (a := ⟨nodes, scopes⟩) v hnode]
      split
      · rename_i hj
        rw [hj, hnode] at hm
        cases hm
        refine ⟨_, rfl, rfl, hstage ▸ .assembled, fun h => ?_⟩
        simp [hstage, Stage.isThrough] at h
      · refine ⟨_, Option.map_eq_some_iff.2 ⟨m, hm, rfl⟩, ?_⟩
        split
        · exact ⟨rfl, .stay _, fun _ _ => rfl⟩
        · exact .refl m

theorem isChild_of_lt (h : Move nodes stack nodes' stack') {i c : Nat}
    (hc : IsChild nodes' i c) (hlt : c < nodes.size) : IsChild nodes i c := by
  cases h with
  | settle node s o hnode hstage hthrough => exact (isChild_set hnode (by rfl) i c).1 hc
  | redirect node s redirects hnode hstage => exact (isChild_set hnode (by rfl) i c).1 hc
  | expand node s scope children hnode hstage hcomposite =>
      obtain ⟨n, hn, hc⟩ := hc
      obtain ⟨-, -, rfl⟩ | ⟨-, hn⟩ | ⟨k, d, -, -, rfl⟩ := getElem?_withFamily_cases hn
      · have := (List.mem_range'_1.1 hc).1
        omega
      · exact ⟨n, hn, hc⟩
      · simp at hc
  | assemble node scopes v hnode hstage => exact ((isChild_finish scopes v hnode i c).1 hc).2

/-- A node that a move makes is a child, and it has its value if it is through. -/
theorem of_new (h : Move nodes stack nodes' stack') (hle : nodes.size ≤ j)
    (hm : nodes'[j]? = some m) :
    (∃ i, IsChild nodes' i j) ∧ m.value.isSome = m.stage.isThrough := by
  have hlt := (Array.getElem?_eq_some_iff.1 hm).1
  cases h with
  | settle node s o hnode hstage hthrough =>
      rw [Array.size_setIfInBounds] at hlt
      omega
  | redirect node s redirects hnode hstage =>
      rw [Array.size_setIfInBounds] at hlt
      omega
  | @expand id rest node s scope children hnode hstage hcomposite =>
      obtain ⟨-, hlt', -⟩ | ⟨-, hm⟩ | ⟨k, c, rfl, hc, rfl⟩ := getElem?_withFamily_cases hm
      · omega
      · have := (Array.getElem?_eq_some_iff.1 hm).1
        omega
      · refine ⟨⟨id, _, (getElem?_withFamily _ _ _ (Array.getElem?_eq_some_iff.1 hnode).1).trans
          (if_pos rfl), ?_⟩, value_ofChild _ _ _⟩
        have := (List.getElem?_eq_some_iff.1 hc).1
        exact List.mem_range'_1.2 ⟨by omega, by omega⟩
  | assemble node scopes v hnode hstage =>
      rw [Arena.size_finish] at hlt
      exact absurd hlt (Nat.not_lt.2 hle)

/-- A node after a move is the same but for its value, or it has no children and waits for none,
or it was just visited and waits for children that are new. -/
theorem cases_of_getElem? (h : Move nodes stack nodes' stack')
    (hnil : ∀ {i : Nat} {n : Node}, nodes[i]? = some n → n.stage = .delayed → n.children = [])
    (hm' : nodes'[j]? = some m') :
    (∃ m v, nodes[j]? = some m ∧ m' = { m with value := v }) ∨
      (m'.stage ≠ .toBuild ∧ m'.children = []) ∨
      ∃ rest m, stack = j :: rest ∧ nodes[j]? = some m ∧ m.stage = .delayed ∧
        m'.WaitsForNew nodes nodes' := by
  cases h with
  | settle node s o hnode hstage hthrough =>
      have hchildren := hnil hnode hstage
      rw [getElem?_set_of_some _ hnode] at hm'
      split at hm'
      · cases hm'
        refine .inr (.inl ⟨fun hbuild => ?_, hchildren⟩)
        rw [show o.stage = .toBuild from hbuild] at hthrough
        cases hthrough
      · exact .inl ⟨m', m'.value, hm', rfl⟩
  | redirect node s redirects hnode hstage =>
      have hchildren := hnil hnode hstage
      rw [getElem?_set_of_some _ hnode] at hm'
      split at hm'
      · cases hm'
        refine .inr (.inl ⟨?_, hchildren⟩)
        rw [show node.stage = .delayed from hstage]
        decide
      · exact .inl ⟨m', m'.value, hm', rfl⟩
  | expand node s scope children hnode hstage hcomposite =>
      rcases getElem?_withFamily_cases hm' with ⟨rfl, -, rfl⟩ | ⟨-, hm⟩ | ⟨k, c, -, -, rfl⟩
      · exact .inr (.inr ⟨_, node, rfl, hnode, hstage, waitsForNew_withFamily hcomposite⟩)
      · exact .inl ⟨m', m'.value, hm, rfl⟩
      · exact .inr (.inl ⟨stage_ofChild_ne _ _ _, children_ofChild _ _ _⟩)
  | assemble node scopes v hnode hstage =>
      rw [Arena.getElem?_finish (a := ⟨nodes, scopes⟩) v hnode] at hm'
      split at hm'
      · cases hm'
        exact .inr (.inl ⟨by simp, rfl⟩)
      · obtain ⟨m, hm, rfl⟩ := Option.map_eq_some_iff.1 hm'
        split
        · exact .inl ⟨m, none, hm, rfl⟩
        · exact .inl ⟨m, m.value, hm, rfl⟩

end Move

end Specimen
