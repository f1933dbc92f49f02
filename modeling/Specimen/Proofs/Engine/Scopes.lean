import Specimen.Proofs.Counter.Scope
import Specimen.Proofs.Engine.Turns
/-!
# The scopes of a generation

In which scopes the enumerations of a generation count. A scope belongs to the children of one
composite: `Scoped` says that those of them that have not been visited share a scope, that no
other composite's children are in it, and that it has come as far as the numbers that the
composite's children have got. Each thing that a turn can do to the scopes keeps this:
`Scoped.move`, `Scoped.expand`, `Scoped.countOutside` and `Scoped.countInside`. At every moment
each node, whatever it is, is in a scope that exists (`Engine.inScopes_of_turns`).
-/

namespace Specimen

open Specimen.Random Regex

/-! ## Scopes after a response -/

/-- The scopes after a pattern has been counted in one of them. -/
def countIn (scopes : Array Scope) (scope : Option ScopeId) (pattern : String) : Array Scope :=
  match scope with
  | none => scopes
  | some k => scopes.modify k fun s => (s.next pattern).2

theorem size_countIn (scopes : Array Scope) (scope : Option ScopeId) (pattern : String) :
    (countIn scopes scope pattern).size = scopes.size := by
  cases scope with
  | none => rfl
  | some k => rw [countIn, Array.size_modify]

/-- The value of a number in a pattern, where formatting it returns. -/
def Counter.shown (pattern : String) (n : Nat) : Json :=
  match Counter.format pattern n with
  | some (.ok text) => .str text
  | _ => .null

section Supply

variable {p : Progress} {scope : Option ScopeId} {supply : Supply}

theorem Progress.scopes_after (h : supply.scope = scope.bind fun i => p.scopes[i]?) :
    (p.after scope supply).scopes = p.scopes := by
  have hsame := congrArg Progress.scopes (p.after_same_scope scope p.source 0)
  rw [← h] at hsame
  exact hsame

theorem Progress.scopes_after_count {pattern : String} (h : supply.scope =
    (scope.bind fun i => p.scopes[i]?).map fun s => (s.next pattern).2) :
    (p.after scope supply).scopes = countIn p.scopes scope pattern := by
  cases scope with
  | none => rfl
  | some k =>
      rw [Option.bind_some] at h
      cases hk : p.scopes[k]? with
      | none =>
          rw [hk, Option.map_none] at h
          rw [Progress.after, h]
          apply Array.ext_getElem?
          intro j
          rw [countIn, Array.getElem?_modify]
          split
          · rename_i hj
            rw [← hj, hk]
            exact hk
          · rfl
      | some s =>
          rw [hk, Option.map_some] at h
          rw [Progress.after, h, countIn, modify_eq_setIfInBounds _ hk]
          exact modify_eq_setIfInBounds (fun _ => (s.next pattern).2) hk

end Supply

namespace Evaluation

variable {scope : Option ScopeId} {a : Action Json} {p p' : Progress} {response : Response}

theorem scopes_of_leaf (ha : a.KeepsScope) (h : leaf scope a p = some (response, p')) :
    (∀ inner children, response ≠ .family inner children) ∧ p'.scopes = p.scopes := by
  obtain ⟨x, supply, hrun, ⟨v, -, rfl, rfl⟩ | ⟨err, -, rfl, rfl⟩⟩ := leaf_eq_some h <;>
  · have hscope := ha _ _ _ hrun
    exact ⟨nofun, Progress.scopes_after hscope⟩

theorem enumeration_of_leaf {v : Visit}
    (h : leaf scope (Leaf.enumeration v) p = some (response, p')) :
    response = .done (Counter.shown (v.spec.pattern.getD "%d")
        (Scope.numberIn (scope.bind fun i => p.scopes[i]?) (v.spec.pattern.getD "%d"))) ∧
      p'.scopes = countIn p.scopes scope (v.spec.pattern.getD "%d") := by
  obtain ⟨x, supply, hrun, hcases⟩ := leaf_eq_some h
  rw [Leaf.enumeration_apply] at hrun
  obtain ⟨answer, hformat, hrun⟩ := Option.map_eq_some_iff.1 hrun
  cases hrun
  rw [Counter.shown, hformat]
  cases answer with
  | ok text =>
      obtain ⟨w, hw, rfl, rfl⟩ | ⟨err, herr, -⟩ := hcases
      · cases hw
        exact ⟨rfl, Progress.scopes_after_count rfl⟩
      · cases herr
  | error e =>
      obtain ⟨w, hw, -⟩ | ⟨err, -, rfl, rfl⟩ := hcases
      · cases hw
      · exact ⟨rfl, Progress.scopes_after_count rfl⟩

end Evaluation

namespace Engine

variable {e : Engine}

/-- A description at some depth is an enumeration that is not cut off. -/
def Enumerates (e : Engine) (spec : Spec) (depth : Nat) : Prop :=
  ¬ e.IsTooDeep (e.registry.resolve spec) depth ∧
    Builtin.ofSpec? (e.registry.resolve spec) = some .enumeration

instance (e : Engine) (spec : Spec) (depth : Nat) : Decidable (e.Enumerates spec depth) :=
  inferInstanceAs (Decidable (_ ∧ _))

/-- The pattern that an enumeration counts. -/
def patternOf (e : Engine) (spec : Spec) : String := (e.registry.resolve spec).pattern.getD "%d"

section Respond

variable {spec : Spec} {depth redirects : Nat} {scope : Option ScopeId} {p p' : Progress}
  {response : Response}

/-- An answer that is not an enumeration's leaves all scopes as they are; a family gets a new
one. -/
theorem scopes_of_answer {b : Builtin} (hb : b ≠ .enumeration)
    (h : e.answer b spec depth scope redirects p = some (response, p')) :
    (∃ children, response = .family p.scopes.size children ∧ p'.scopes = p.scopes.push {}) ∨
      ((∀ inner children, response ≠ .family inner children) ∧ p'.scopes = p.scopes) := by
  cases b with
  | record =>
      obtain ⟨plan, source, -, ⟨-, rfl, rfl⟩ | ⟨-, rfl, rfl⟩⟩ := Evaluation.record_eq_some h
      · exact .inr ⟨nofun, rfl⟩
      · exact .inl ⟨_, rfl, rfl⟩
  | array =>
      obtain ⟨-, rfl, rfl⟩ | ⟨length, source, kept, -, -, -, ⟨-, rfl, rfl⟩ | ⟨-, rfl, rfl⟩⟩ :=
        Evaluation.array_eq_some h
      · exact .inr ⟨nofun, rfl⟩
      · exact .inr ⟨nofun, rfl⟩
      · exact .inl ⟨_, rfl, rfl⟩
  | choice =>
      obtain ⟨-, rfl, rfl⟩ | ⟨roll, source, -, ⟨-, rfl, rfl⟩ |
        ⟨s, -, ⟨-, rfl, rfl⟩ | ⟨-, rfl, rfl⟩⟩⟩ := Evaluation.choice_eq_some h <;>
      exact .inr ⟨nofun, rfl⟩
  | enumeration => exact absurd rfl hb
  | fixed => exact .inr (Evaluation.scopes_of_leaf (Leaf.plain_fixed _).keepsScope h)
  | boolean => exact .inr (Evaluation.scopes_of_leaf (Leaf.plain_boolean _).keepsScope h)
  | integer => exact .inr (Evaluation.scopes_of_leaf (Leaf.plain_integer _).keepsScope h)
  | pick => exact .inr (Evaluation.scopes_of_leaf (Leaf.plain_pick _).keepsScope h)
  | distribution =>
      exact .inr (Evaluation.scopes_of_leaf (Leaf.plain_distribution _).keepsScope h)
  | text => exact .inr (Evaluation.scopes_of_leaf (Leaf.plain_text _).keepsScope h)
  | regex => exact .inr (Evaluation.scopes_of_leaf (Leaf.plain_regex _).keepsScope h)
  | fake => exact .inr (Evaluation.scopes_of_leaf (Leaf.plain_fake _).keepsScope h)

variable (h : e.respond spec depth scope redirects p = some (response, p'))
include h

theorem enumeration_of_respond (henum : e.Enumerates spec depth) :
    response = .done (Counter.shown (e.patternOf spec)
        (Scope.numberIn (scope.bind fun i => p.scopes[i]?) (e.patternOf spec))) ∧
      p'.scopes = countIn p.scopes scope (e.patternOf spec) := by
  rw [respond_of_builtin _ _ _ henum.1 henum.2, answer] at h
  obtain ⟨hresponse, hscopes⟩ := Evaluation.enumeration_of_leaf h
  exact ⟨hresponse, hscopes⟩

theorem scopes_of_respond (henum : ¬ e.Enumerates spec depth) :
    (∃ children, response = .family p.scopes.size children ∧ p'.scopes = p.scopes.push {}) ∨
      ((∀ inner children, response ≠ .family inner children) ∧ p'.scopes = p.scopes) := by
  obtain ⟨-, rfl, rfl⟩ | ⟨-, -, rfl, rfl⟩ | ⟨b, hdeep, hb, h⟩ := respond_eq_some h
  · exact .inr ⟨nofun, rfl⟩
  · exact .inr ⟨nofun, rfl⟩
  · have hne : b ≠ .enumeration := by
      rintro rfl
      exact henum ⟨hdeep, hb⟩
    have hscopes := scopes_of_answer hne h
    exact hscopes

/-- No scope goes away. -/
theorem size_scopes_le_of_respond : p.scopes.size ≤ p'.scopes.size := by
  by_cases henum : e.Enumerates spec depth
  · exact Nat.le_of_eq (by rw [(enumeration_of_respond h henum).2, size_countIn])
  · obtain ⟨children, -, hscopes⟩ | ⟨-, hscopes⟩ := scopes_of_respond h henum
    · rw [hscopes, Array.size_push]
      exact Nat.le_succ _
    · exact Nat.le_of_eq (by rw [hscopes])

omit h in
theorem scope_lt_of_family {inner : ScopeId} {children : List Child}
    (h : e.respond spec depth scope redirects p = some (.family inner children, p')) :
    inner < p'.scopes.size := by
  have henum : ¬ e.Enumerates spec depth := by
    intro henum
    cases (enumeration_of_respond h henum).1
  obtain ⟨_, hfamily, hscopes⟩ | ⟨hnone, -⟩ := scopes_of_respond h henum
  · cases hfamily
    rw [hscopes, Array.size_push]
    exact Nat.lt_succ_self _
  · exact absurd rfl (hnone inner children)

end Respond

end Engine

@[simp] theorem Run.scopes_advance (nodes : Array Node) (id : NodeId) (node : Node)
    (rest : List NodeId) (response : Response) (p : Progress) :
    (Run.advance nodes id node rest (response, p)).arena.scopes = p.scopes := by
  cases response <;> rfl

/-! ## Counts -/

/-- What a node has counted. -/
structure Count where
  id : NodeId
  /-- The composite that waits for the node. -/
  parent : Option NodeId
  pattern : String
  number : Nat

namespace Count

/-- The numbers of a pattern among the children of a composite, in their order. -/
def numbers (counts : List Count) (i : NodeId) (pattern : String) : List Nat :=
  (counts.filter fun c => c.parent = some i ∧ c.pattern = pattern).map (·.number)

variable (counts : List Count) (c : Count) (i : NodeId) (pattern : String)

theorem numbers_append_of_own (hparent : c.parent = some i) (hpattern : c.pattern = pattern) :
    numbers (counts ++ [c]) i pattern = numbers counts i pattern ++ [c.number] := by
  simp [numbers, hparent, hpattern]

theorem numbers_append_of_other (h : ¬ (c.parent = some i ∧ c.pattern = pattern)) :
    numbers (counts ++ [c]) i pattern = numbers counts i pattern := by
  simp [numbers, h]

end Count

/-! ## The invariant -/

/-- A composite has a child that has not been visited and counts in this scope. -/
def Awaits (nodes : Array Node) (i : NodeId) (scope : Option ScopeId) : Prop :=
  ∃ c node, IsChild nodes i c ∧ nodes[c]? = some node ∧ node.stage = .delayed ∧
    node.scope = scope

section Awaits

variable {nodes : Array Node} {id i : NodeId} {node : Node} {scope : Option ScopeId}
  (hnode : nodes[id]? = some node)
include hnode

theorem awaits_of_set {n : Node} (hchildren : n.children = node.children)
    (hscope : n.scope = node.scope) (hstage : node.stage = .delayed)
    (h : Awaits (nodes.setIfInBounds id n) i scope) : Awaits nodes i scope := by
  obtain ⟨c, m, hc, hm, hdelayed, hmscope⟩ := h
  rw [isChild_set hnode hchildren] at hc
  rw [getElem?_set_of_some n hnode] at hm
  by_cases hid : c = id
  · rw [if_pos hid] at hm
    cases hm
    exact ⟨c, node, hc, hid ▸ hnode, hstage, hscope ▸ hmscope⟩
  · rw [if_neg hid] at hm
    exact ⟨c, m, hc, hm, hdelayed, hmscope⟩

theorem awaits_of_finish {scopes : Array Scope} {v : Json}
    (h : Awaits (Arena.finish ⟨nodes, scopes⟩ id v).nodes i scope) : Awaits nodes i scope := by
  obtain ⟨c, m, hc, hm, hdelayed, hmscope⟩ := h
  rw [Arena.getElem?_finish (a := ⟨nodes, scopes⟩) v hnode] at hm
  by_cases hid : c = id
  · rw [if_pos hid] at hm
    cases hm
    cases hdelayed
  · rw [if_neg hid] at hm
    obtain ⟨m, hold, rfl⟩ := Option.map_eq_some_iff.1 hm
    refine ⟨c, m, ((isChild_finish scopes v hnode i c).1 hc).2, hold, ?_⟩
    split at hdelayed <;> split at hmscope <;> exact ⟨hdelayed, hmscope⟩

theorem awaits_of_withFamily {n : Node} {inner : ScopeId} {children : List Child}
    (h : HasFamilies nodes) (hnil : node.children = [])
    (hawaits : Awaits (withFamily nodes id n inner children) i scope) :
    Awaits nodes i scope ∨ (i = id ∧ scope = some inner) := by
  obtain ⟨c, m, hc, hm, hdelayed, hmscope⟩ := hawaits
  rcases getElem?_withFamily_cases hm with ⟨-, -, rfl⟩ | ⟨-, hold⟩ | ⟨k, d, rfl, hd, rfl⟩
  · cases hdelayed
  · rcases (isChild_withFamily n inner children hnode hnil i c).1 hc with hc | ⟨-, hle, -⟩
    · exact .inl ⟨c, m, hc, hold, hdelayed, hmscope⟩
    · have := (Array.getElem?_eq_some_iff.1 hold).1
      omega
  · rcases (isChild_withFamily n inner children hnode hnil i _).1 hc with hc | ⟨rfl, -, -⟩
    · have := h.lt_of_isChild hc
      omega
    · cases d with
      | ready v => cases hdelayed
      | queued s => exact .inr ⟨rfl, hmscope.symm⟩

end Awaits

/-- The children of a composite that have not been visited share a scope, which is theirs alone
and has come as far as the numbers of the composite. -/
structure Scoped (counts : List Count) (nodes : Array Node) (scopes : Array Scope) : Prop where
  root : ∀ {node : Node}, nodes[0]? = some node → node.scope = none
  current : ∀ {i : NodeId} {s : Option ScopeId}, Awaits nodes i s → ∃ k scope, s = some k ∧
    scopes[k]? = some scope ∧ ∀ p, Count.numbers counts i p = List.range (scope.current p)
  together : ∀ {i : NodeId} {s t : Option ScopeId}, Awaits nodes i s → Awaits nodes i t → s = t
  apart : ∀ {i j : NodeId} {s : Option ScopeId}, Awaits nodes i s → Awaits nodes j s → i = j
  parent : ∀ c ∈ counts, ∀ i, c.parent = some i →
    ∃ node, nodes[i]? = some node ∧ node.stage ≠ .delayed
  consecutive : ∀ i p, ∃ k, Count.numbers counts i p = List.range k
  outside : ∀ c ∈ counts, c.parent = none → c.number = 1

theorem Count.numbers_eq_nil {counts : List Count} {i : NodeId} (pattern : String)
    (h : ∀ c ∈ counts, c.parent ≠ some i) : numbers counts i pattern = [] := by
  rw [numbers, List.map_eq_nil_iff, List.filter_eq_nil_iff]
  intro c hc
  simp [h c hc]

theorem Stage.Next.eq_delayed {a b : Stage} (h : Next a b) (hb : b = .delayed) :
    a = .delayed := by
  cases h <;> first | exact hb | cases hb

theorem Stage.Next.eq_done {b : Stage} (h : Next .done b) : b = .done := by
  cases h
  rfl

/-- A node stays in its scope. -/
theorem Move.scope {nodes nodes' : Array Node} {stack stack' : List Nat}
    (h : Move nodes stack nodes' stack') {j : Nat} {m m' : Node} (hm : nodes[j]? = some m)
    (hm' : nodes'[j]? = some m') : m'.scope = m.scope := by
  cases h with
  | settle node s o hnode hstage hthrough =>
      rw [getElem?_set_of_some _ hnode] at hm'
      grind
  | redirect node s redirects hnode hstage =>
      rw [getElem?_set_of_some _ hnode] at hm'
      grind
  | expand node s scope children hnode hstage hcomposite =>
      rw [getElem?_withFamily _ _ _ (Array.getElem?_eq_some_iff.1 hm).1] at hm'
      grind
  | assemble node scopes v hnode hstage =>
      rw [Arena.getElem?_finish (a := ⟨nodes, scopes⟩) v hnode] at hm'
      grind

namespace Scoped

variable {counts : List Count} {nodes nodes' : Array Node} {stack stack' : List NodeId}
  {scopes : Array Scope}

theorem start (root : Spec) : Scoped [] #[{ spec := root, depth := 0, scope := none }] #[] := by
  have hnone : ∀ i s, ¬ Awaits #[{ spec := root, depth := 0, scope := none }] i s := by
    rintro i s ⟨c, m, ⟨a, ha, hc⟩, -⟩
    cases i with
    | zero =>
        cases ha
        cases hc
    | succ i => simp at ha
  refine ⟨?root, fun ha => absurd ha (hnone _ _), fun ha => absurd ha (hnone _ _),
    fun ha => absurd ha (hnone _ _), nofun, fun i p => ⟨0, rfl⟩, nofun⟩
  case root =>
      intro node hnode
      cases hnode
      rfl

theorem parent_of_move (h : Scoped counts nodes scopes)
    (hmove : Move nodes stack nodes' stack') :
    ∀ c ∈ counts, ∀ i, c.parent = some i →
      ∃ node, nodes'[i]? = some node ∧ node.stage ≠ .delayed := by
  intro c hc i hi
  obtain ⟨node, hnode, hstage⟩ := h.parent c hc i hi
  obtain ⟨node', hnode', hlater⟩ := hmove.later hnode
  exact ⟨node', hnode', fun hdelayed => hstage (hlater.stage.eq_delayed hdelayed)⟩

theorem root_of_move (h : Scoped counts nodes scopes) (hmove : Move nodes stack nodes' stack')
    (hpos : 0 < nodes.size) {node : Node} (hnode : nodes'[0]? = some node) :
    node.scope = none := by
  have hold := Array.getElem?_eq_getElem hpos
  rw [hmove.scope hold hnode, h.root hold]

/-- A move that gives no node new children. -/
theorem move (h : Scoped counts nodes scopes) (hmove : Move nodes stack nodes' stack')
    (hpos : 0 < nodes.size) (hawaits : ∀ i s, Awaits nodes' i s → Awaits nodes i s) :
    Scoped counts nodes' scopes where
  root := h.root_of_move hmove hpos
  current ha := h.current (hawaits _ _ ha)
  together ha hb := h.together (hawaits _ _ ha) (hawaits _ _ hb)
  apart ha hb := h.apart (hawaits _ _ ha) (hawaits _ _ hb)
  parent := h.parent_of_move hmove
  consecutive := h.consecutive
  outside := h.outside

/-- A node gets children, which count in a new scope. -/
theorem expand (h : Scoped counts nodes scopes) (hfamilies : HasFamilies nodes) {id : NodeId}
    {node n : Node} {children : List Child} (hnode : nodes[id]? = some node)
    (hstage : node.stage = .delayed)
    (hmove : Move nodes stack (withFamily nodes id n scopes.size children) stack') :
    Scoped counts (withFamily nodes id n scopes.size children) (scopes.push {}) := by
  have hnil := hfamilies.children_eq_nil hnode (by simp [hstage])
  have hawaits : ∀ {i : NodeId} {s : Option ScopeId},
      Awaits (withFamily nodes id n scopes.size children) i s →
        Awaits nodes i s ∨ (i = id ∧ s = some scopes.size) := by
    intro i s hi
    exact awaits_of_withFamily hnode hfamilies hnil hi
  have hnone : ∀ s, ¬ Awaits nodes id s := by
    rintro s ⟨c, m, ⟨a, ha, hc⟩, -⟩
    rw [hnode] at ha
    cases ha
    simp [hnil] at hc
  have hlt : ∀ {i : NodeId}, ¬ Awaits nodes i (some scopes.size) := by
    intro i hi
    obtain ⟨k, scope, hk, hscope, -⟩ := h.current hi
    cases hk
    simp at hscope
  refine ⟨h.root_of_move hmove hfamilies.root, ?current, ?together, ?apart,
    h.parent_of_move hmove,
    h.consecutive, h.outside⟩
  case current =>
      intro i s hi
      rcases hawaits hi with hold | ⟨rfl, rfl⟩
      · obtain ⟨k, scope, rfl, hscope, hnumbers⟩ := h.current hold
        refine ⟨k, scope, rfl, ?_, hnumbers⟩
        have hk := (Array.getElem?_eq_some_iff.1 hscope).1
        rw [Array.getElem?_push_lt hk, ← hscope, Array.getElem?_eq_getElem hk]
      · refine ⟨_, {}, rfl, Array.getElem?_push_size, fun p => Count.numbers_eq_nil p ?_⟩
        intro c hc hparent
        obtain ⟨m, hm, hdelayed⟩ := h.parent c hc _ hparent
        rw [hnode] at hm
        cases hm
        exact hdelayed hstage
  case together =>
      intro i s t hs ht
      rcases hawaits hs with hs | ⟨rfl, rfl⟩ <;> rcases hawaits ht with ht | ⟨hi, rfl⟩
      · exact h.together hs ht
      · exact absurd (hi ▸ hs) (hnone _)
      · exact absurd ht (hnone _)
      · rfl
  case apart =>
      intro i j s hi hj
      rcases hawaits hi with hiold | ⟨rfl, rfl⟩ <;> rcases hawaits hj with hjold | ⟨rfl, hs⟩
      · exact h.apart hiold hjold
      · subst hs
        exact absurd hiold hlt
      · exact absurd hjold hlt
      · rfl

theorem countOutside (h : Scoped counts nodes scopes) {c : Count} (hparent : c.parent = none)
    (hnumber : c.number = 1) : Scoped (counts ++ [c]) nodes scopes := by
  have hnumbers : ∀ i p, Count.numbers (counts ++ [c]) i p = Count.numbers counts i p := by
    intro i p
    apply Count.numbers_append_of_other
    simp [hparent]
  refine ⟨h.root, ?current, h.together, h.apart, ?parent, ?consecutive, ?outside⟩
  case current =>
      intro i s hi
      simp only [hnumbers]
      exact h.current hi
  case parent =>
      intro d hd i hi
      rcases List.mem_append.1 hd with hd | hd
      · exact h.parent d hd i hi
      · rw [List.mem_singleton.1 hd, hparent] at hi
        cases hi
  case consecutive =>
      intro i p
      rw [hnumbers]
      exact h.consecutive i p
  case outside =>
      intro d hd hnone
      rcases List.mem_append.1 hd with hd | hd
      · exact h.outside d hd hnone
      · rw [List.mem_singleton.1 hd, hnumber]

/-- A child that has not been visited takes the number that its scope has come to. -/
theorem countInside (h : Scoped counts nodes scopes) {c : Count} {i : NodeId}
    {s : Option ScopeId} {parent : Node} (hawaits : Awaits nodes i s)
    (hi : nodes[i]? = some parent) (hstage : parent.stage ≠ .delayed)
    (hparent : c.parent = some i)
    (hnumber : c.number = Scope.numberIn (s.bind fun k => scopes[k]?) c.pattern) :
    Scoped (counts ++ [c]) nodes (countIn scopes s c.pattern) := by
  obtain ⟨k, scope, rfl, hk, hnumbers⟩ := h.current hawaits
  have hcurrent : c.number = scope.current c.pattern := by
    rw [hnumber, Option.bind_some, hk, Scope.numberIn]
  have hown : Count.numbers (counts ++ [c]) i c.pattern =
      List.range (scope.current c.pattern + 1) := by
    rw [Count.numbers_append_of_own _ _ _ _ hparent rfl, hnumbers, hcurrent, List.range_succ]
  have hother : ∀ {j : NodeId} {p : String}, ¬ (j = i ∧ p = c.pattern) →
      Count.numbers (counts ++ [c]) j p = Count.numbers counts j p := by
    intro j p hne
    apply Count.numbers_append_of_other
    rintro ⟨hj, hp⟩
    rw [hparent] at hj
    exact hne ⟨(Option.some.inj hj).symm, hp.symm⟩
  refine ⟨h.root, ?current, h.together, h.apart, ?parent, ?consecutive, ?outside⟩
  case current =>
      intro j t hj
      obtain ⟨k', scope', rfl, hk', hnumbers'⟩ := h.current hj
      by_cases hji : j = i
      · subst hji
        cases h.together hawaits hj
        refine ⟨k, (scope.next c.pattern).2, rfl, ?_, fun p => ?_⟩
        · rw [countIn, Array.getElem?_modify, if_pos rfl, hk, Option.map_some]
        · rw [Scope.current_next]
          by_cases hp : c.pattern = p
          · rw [if_pos hp, ← hp, hown]
          · rw [if_neg hp, hother (fun hboth => hp hboth.2.symm), hnumbers]
      · -- The other composite has a scope of its own, in which nothing has happened.
        refine ⟨k', scope', rfl, ?_, fun p => ?_⟩
        · rw [countIn, Array.getElem?_modify, if_neg, hk']
          rintro rfl
          exact hji (h.apart hj hawaits)
        · rw [hother (fun hboth => hji hboth.1), hnumbers']
  case parent =>
      intro d hd j hj
      rcases List.mem_append.1 hd with hd | hd
      · exact h.parent d hd j hj
      · rw [List.mem_singleton.1 hd, hparent] at hj
        cases hj
        exact ⟨parent, hi, hstage⟩
  case consecutive =>
      intro j p
      by_cases hboth : j = i ∧ p = c.pattern
      · obtain ⟨rfl, rfl⟩ := hboth
        exact ⟨_, hown⟩
      · rw [hother hboth]
        exact h.consecutive j p
  case outside =>
      intro d hd hnone
      rcases List.mem_append.1 hd with hd | hd
      · exact h.outside d hd hnone
      · rw [List.mem_singleton.1 hd, hparent] at hnone
        cases hnone

end Scoped

/-! ## The scope of a node -/

/-- The nodes are in scopes that exist. -/
def InScopes (nodes : Array Node) (scopes : Array Scope) : Prop :=
  ∀ (j : Nat) (m : Node), nodes[j]? = some m → ∀ k ∈ m.scope, k < scopes.size

/-- A node stays in its scope, so only new nodes have to be looked at. -/
theorem InScopes.move {nodes nodes' : Array Node} {stack stack' : List Nat}
    {scopes scopes' : Array Scope} (h : InScopes nodes scopes)
    (hmove : Move nodes stack nodes' stack') (hle : scopes.size ≤ scopes'.size)
    (hnew : ∀ (j : Nat) (m : Node), nodes.size ≤ j → nodes'[j]? = some m →
      ∀ k ∈ m.scope, k < scopes'.size) : InScopes nodes' scopes' := by
  intro j m hm k hk
  rcases Nat.lt_or_ge j nodes.size with hj | hj
  · have hbefore := Array.getElem?_eq_getElem hj
    rw [hmove.scope hbefore hm] at hk
    exact Nat.lt_of_lt_of_le (h j _ hbefore k hk) hle
  · exact hnew j m hj hm k hk

namespace Engine

variable {e : Engine} {r s : Run} (he : e.handlers.registered = [])
include he

theorem inScopes_of_turn (h : Orderly r.arena.nodes r.stack) (hstack : r.stack ≠ [])
    (hscopes : InScopes r.arena.nodes r.arena.scopes) (hturn : e.turn r = some s) :
    InScopes s.arena.nodes s.arena.scopes := by
  have hmove := move_of_turn he h hstack hturn
  obtain ⟨id, rest, node, hr, hnode, ⟨hstage, response, p, hrespond, rfl⟩ | ⟨hstage, rfl⟩⟩ :=
    turn_cases he h hstack hturn
  · refine hscopes.move hmove ?_ fun j m hj hm => ?_
    · rw [Run.scopes_advance]
      exact size_scopes_le_of_respond hrespond
    rw [Run.scopes_advance]
    have hlt := (Array.getElem?_eq_some_iff.1 hm).1
    cases response with
    | family inner children =>
        rcases getElem?_withFamily_cases hm with ⟨-, hold, -⟩ | ⟨-, hold⟩ | ⟨i, c, -, -, rfl⟩
        · omega
        · have := (Array.getElem?_eq_some_iff.1 hold).1
          omega
        · intro k hk
          cases c with
          | ready v => cases hk
          | queued t =>
              cases hk
              exact scope_lt_of_family hrespond
    | _ =>
        simp only [Run.advance, Run.ofProgress, Array.size_setIfInBounds] at hlt
        omega
  · refine hscopes.move hmove ?_ fun j m hj hm => ?_
    · simp only [Run.finish, Arena.scopes_finish]
      exact Nat.le_refl _
    · have hlt := (Array.getElem?_eq_some_iff.1 hm).1
      simp only [Run.finish, Arena.size_finish] at hlt
      exact absurd hlt (Nat.not_lt.2 hj)

/-- At every moment of a generation the nodes are in scopes that exist. -/
theorem inScopes_of_turns {root : Spec} {source : Source} {synthesizer : Synthesizer} {n : Nat}
    (hr : e.turns n (Run.start root source synthesizer) = some r) :
    InScopes r.arena.nodes r.arena.scopes := by
  induction n generalizing r with
  | zero =>
      cases hr
      intro j m hm k hk
      cases j with
      | zero =>
          cases hm
          cases hk
      | succ j => simp [Run.start] at hm
  | succ n ih =>
      obtain ⟨q, hq, hstack, hturn⟩ := turns_succ_eq_some.1 hr
      exact inScopes_of_turn he (orderly_of_turns he hq) hstack (ih hq) hturn

end Engine

end Specimen
