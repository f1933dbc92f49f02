import Mathlib
import Specimen.Proofs.Engine.Scopes
/-!
# The numbers of enumerations

Which numbers the enumerations of a generation get. `Engine.tally` lists them in the order of the
turns, each with its pattern and with the composite that waits for the node. For every composite
and every pattern they are `0, 1, 2, …`, whatever is made in between, and outside of all
composites every number is one: `Engine.counted`.
-/

namespace Specimen

open Specimen.Random Regex

/-- The composite that waits for a node. -/
def Run.parent? (r : Run) (id : NodeId) : Option NodeId :=
  r.arena.nodes.findIdx? fun node => id ∈ node.children

theorem Run.parent?_eq_some_iff {r : Run} (h : HasFamilies r.arena.nodes) {i c : NodeId} :
    r.parent? c = some i ↔ IsChild r.arena.nodes i c := by
  rw [parent?, Array.findIdx?_eq_some_iff_getElem]
  constructor
  · rintro ⟨hi, hc, -⟩
    exact ⟨_, Array.getElem?_eq_getElem hi, of_decide_eq_true hc⟩
  · rintro ⟨node, hnode, hc⟩
    obtain ⟨hi, rfl⟩ := Array.getElem?_eq_some_iff.1 hnode
    refine ⟨hi, decide_eq_true hc, fun j hj hdec => ?_⟩
    have hother : IsChild r.arena.nodes j c :=
      ⟨_, Array.getElem?_eq_getElem (Nat.lt_trans hj hi), of_decide_eq_true hdec⟩
    exact Nat.ne_of_lt hj (h.parent_unique hother ⟨_, hnode, hc⟩)

theorem Run.parent?_eq_none_iff {r : Run} {stack : List NodeId} (h : Orderly r.arena.nodes stack)
    {c : NodeId} {node : Node} (hnode : r.arena.nodes[c]? = some node)
    (hopen : node.stage.isThrough = false) : r.parent? c = none ↔ c = 0 := by
  constructor
  · intro hnone
    rcases h.held hnode hopen with rfl | ⟨i, hi⟩
    · rfl
    · rw [(parent?_eq_some_iff h.toHasFamilies).2 hi] at hnone
      cases hnone
  · rintro rfl
    cases hparent : r.parent? 0 with
    | none => rfl
    | some i =>
        obtain ⟨m, hm, hc⟩ := (parent?_eq_some_iff h.toHasFamilies).1 hparent
        exact absurd (h.child hm hc).1 (Nat.lt_irrefl 0)

namespace Engine

variable {e : Engine}

/-- The enumeration that the next turn visits, if it visits one. -/
def enumeration? (e : Engine) (r : Run) : Option (NodeId × Node) := do
  let id ← r.stack.head?
  let node ← r.arena.nodes[id]?
  if node.stage = .delayed ∧ e.Enumerates node.spec node.depth then some (id, node) else none

/-- What the next turn counts. -/
def count? (e : Engine) (r : Run) : Option Count :=
  (e.enumeration? r).map fun (id, node) =>
    { id
      parent := r.parent? id
      pattern := e.patternOf node.spec
      number := Scope.numberIn (r.arena.scope? node.scope) (e.patternOf node.spec) }

/-- What the first turns of a generation count, in their order. -/
def tally (e : Engine) (start : Run) (n : Nat) : List Count :=
  (List.range n).filterMap fun m => (e.turns m start).bind e.count?

theorem tally_succ {start r : Run} {n : Nat} (hr : e.turns n start = some r) :
    e.tally start (n + 1) = e.tally start n ++ (e.count? r).toList :=
  filterMap_turns_succ hr _

theorem enumeration?_eq_some_iff {r : Run} {id : NodeId} {node : Node} :
    e.enumeration? r = some (id, node) ↔ (∃ rest, r.stack = id :: rest) ∧
      r.arena.nodes[id]? = some node ∧ node.stage = .delayed ∧
      e.Enumerates node.spec node.depth := by
  cases hstack : r.stack with
  | nil => simp [enumeration?, hstack]
  | cons top rest =>
      simp only [enumeration?, hstack, List.head?_cons, Option.bind_eq_bind, Option.bind_some,
        Option.bind_eq_some_iff, Option.ite_none_right_eq_some, Option.some.injEq, Prod.mk.injEq]
      constructor
      · rintro ⟨m, hm, ⟨hstage, henum⟩, rfl, rfl⟩
        exact ⟨⟨rest, rfl⟩, hm, hstage, henum⟩
      · rintro ⟨⟨rest', hrest⟩, hnode, hstage, henum⟩
        cases hrest
        exact ⟨node, hnode, ⟨hstage, henum⟩, rfl, rfl⟩

end Engine

namespace Engine

section Turn

variable {e : Engine} {r s : Run} {counts : List Count} (he : e.handlers.registered = [])
  (h : Orderly r.arena.nodes r.stack)

include he h

theorem enumerate_of_turn {id : NodeId} {node : Node} {c : Count}
    (hid : e.enumeration? r = some (id, node)) (hc : e.count? r = some c)
    (hturn : e.turn r = some s) :
    s.arena.nodes = r.arena.nodes.setIfInBounds id { node with
        spec := e.registry.resolve node.spec, stage := .done,
        value := some (Counter.shown c.pattern c.number) } ∧
      s.arena.scopes = countIn r.arena.scopes node.scope c.pattern := by
  obtain ⟨⟨rest, hstack⟩, hnode, hstage, henum⟩ := enumeration?_eq_some_iff.1 hid
  rw [count?, hid] at hc
  cases hc
  obtain ⟨response, p, hrespond, rfl⟩ := advance_of_turn he h hstack hnode hstage hturn
  obtain ⟨rfl, hscopes⟩ := enumeration_of_respond hrespond henum
  exact ⟨rfl, hscopes⟩

/-- A turn that counts goes on with the numbers of the node's scope. -/
theorem scoped_of_count (hs : Scoped counts r.arena.nodes r.arena.scopes) {c : Count}
    (hc : e.count? r = some c) (hturn : e.turn r = some s) :
    Scoped (counts ++ [c]) s.arena.nodes s.arena.scopes := by
  obtain ⟨⟨id, node⟩, hid, hvalue⟩ := Option.map_eq_some_iff.1 hc
  obtain ⟨hnodes, hscopes⟩ := enumerate_of_turn he h hid hc hturn
  obtain ⟨⟨rest, hstack⟩, hnode, hstage, henum⟩ := enumeration?_eq_some_iff.1 hid
  have hmove := move_of_turn he h (by simp [hstack]) hturn
  have hawaits : ∀ i t, Awaits s.arena.nodes i t → Awaits r.arena.nodes i t := by
    intro i t hi
    rw [hnodes] at hi
    exact awaits_of_set hnode (by rfl) (by rfl) hstage hi
  rw [hscopes]
  refine Scoped.move ?_ hmove h.root hawaits
  cases hparent : r.parent? id with
  | none =>
      obtain rfl := (Run.parent?_eq_none_iff h hnode (by rw [hstage]; rfl)).1 hparent
      have hroot := hs.root hnode
      rw [hroot]
      apply hs.countOutside
      · rw [← hvalue]
        exact hparent
      · rw [← hvalue]
        simp only [hroot]
        rfl
  | some i =>
      have hi := (Run.parent?_eq_some_iff h.toHasFamilies).1 hparent
      obtain ⟨parent, hparent', hmem⟩ := hi
      have hwaits := h.waits hparent' hmem
      refine hs.countInside ⟨id, node, ⟨parent, hparent', hmem⟩, hnode, hstage, rfl⟩ hparent'
        (by simp [hwaits]) ?_ ?_
      · rw [← hvalue]
        exact hparent
      · rw [← hvalue]
        rfl

/-- A turn that counts nothing opens a scope for a family, or leaves the scopes alone. -/
theorem scoped_of_no_count (hs : Scoped counts r.arena.nodes r.arena.scopes)
    (hstack : r.stack ≠ []) (hc : e.count? r = none) (hturn : e.turn r = some s) :
    Scoped counts s.arena.nodes s.arena.scopes := by
  have hmove := move_of_turn he h hstack hturn
  obtain ⟨id, rest, node, hr, hnode, ⟨hstage, response, p, hrespond, rfl⟩ | ⟨hstage, rfl⟩⟩ :=
    turn_cases he h hstack hturn
  · have henum : ¬ e.Enumerates node.spec node.depth := by
      intro henum
      have hid := enumeration?_eq_some_iff.2 ⟨⟨rest, hr⟩, hnode, hstage, henum⟩
      rw [count?, hid] at hc
      cases hc
    obtain ⟨children, rfl, hscopes⟩ | ⟨hfamily, hscopes⟩ := scopes_of_respond hrespond henum
    · rw [Run.scopes_advance, hscopes]
      exact hs.expand h.toHasFamilies hnode hstage hmove
    · cases response with
      | settled o =>
          rw [Run.scopes_advance, hscopes]
          refine hs.move hmove h.root fun i t hi => ?_
          exact awaits_of_set hnode (by rfl) (by rfl) hstage hi
      | again t =>
          rw [Run.scopes_advance, hscopes]
          refine hs.move hmove h.root fun i t hi => ?_
          exact awaits_of_set hnode (by rfl) (by rfl) hstage hi
      | family inner children => exact absurd rfl (hfamily _ _)
  · rw [Run.finish_eq_ofProgress] at hmove ⊢
    exact hs.move hmove h.root fun i t hi => awaits_of_finish hnode hi

/-- A turn keeps the invariant, together with what it counts. -/
theorem scoped_of_turn (hs : Scoped counts r.arena.nodes r.arena.scopes) (hstack : r.stack ≠ [])
    (hturn : e.turn r = some s) :
    Scoped (counts ++ (e.count? r).toList) s.arena.nodes s.arena.scopes := by
  cases hc : e.count? r with
  | some c => exact scoped_of_count he h hs hc hturn
  | none =>
      rw [Option.toList_none, List.append_nil]
      exact scoped_of_no_count he h hs hstack hc hturn

end Turn

section Generation

variable {e : Engine} {root : Spec} {source : Source} {synthesizer : Synthesizer} {n : Nat}
  {r : Run} (he : e.handlers.registered = [])
  (hr : e.turns n (Run.start root source synthesizer) = some r)

theorem mem_tally {start : Run} {c : Count} : c ∈ e.tally start n ↔
    ∃ m < n, ∃ s, e.turns m start = some s ∧ e.count? s = some c := by
  simp only [tally, List.mem_filterMap, List.mem_range, Option.bind_eq_some_iff]

include he hr

theorem scoped_of_turns : Scoped (e.tally (Run.start root source synthesizer) n) r.arena.nodes
    r.arena.scopes := by
  induction n generalizing r with
  | zero =>
      cases hr
      exact .start root
  | succ n ih =>
      obtain ⟨q, hq, hstack, hturn⟩ := turns_succ_eq_some.1 hr
      rw [tally_succ hq]
      exact scoped_of_turn he (orderly_of_turns he hq) (ih hq) hstack hturn

/-- What an enumeration shows after the turn that counts it. -/
theorem shown_of_turns {c : Count} (hc : e.count? r = some c) {s : Run}
    (hs : e.turns (n + 1) (Run.start root source synthesizer) = some s) :
    ∃ node, s.arena.nodes[c.id]? = some node ∧ node.stage = .done ∧
      node.value = some (Counter.shown c.pattern c.number) := by
  obtain ⟨q, hq, hstack, hturn⟩ := turns_succ_eq_some.1 hs
  rw [hr] at hq
  cases hq
  obtain ⟨⟨id, node⟩, hid, hvalue⟩ := Option.map_eq_some_iff.1 hc
  obtain ⟨-, hnode, -⟩ := enumeration?_eq_some_iff.1 hid
  obtain ⟨hnodes, -⟩ := enumerate_of_turn he (orderly_of_turns he hr) hid hc hturn
  have hsame : c.id = id := by rw [← hvalue]
  rw [hnodes, hsame, getElem?_set_of_some _ hnode, if_pos rfl]
  exact ⟨_, rfl, rfl, rfl⟩

theorem done_of_mem_tally {c : Count} (hc : c ∈ e.tally (Run.start root source synthesizer) n) :
    ∃ node, r.arena.nodes[c.id]? = some node ∧ node.stage = .done := by
  obtain ⟨m, hm, s, hs, hcount⟩ := mem_tally.1 hc
  obtain ⟨s', hs'⟩ := exists_turns_of_le hr (Nat.succ_le_of_lt hm)
  obtain ⟨node, hnode, hdone, -⟩ := shown_of_turns he hs hcount hs'
  obtain ⟨node', hnode', hlater⟩ := later_of_turns he hs' hr (Nat.succ_le_of_lt hm) hnode
  have hnext := hlater.stage
  rw [hdone] at hnext
  exact ⟨node', hnode', hnext.eq_done⟩

theorem nodup_tally : ((e.tally (Run.start root source synthesizer) n).map (·.id)).Nodup := by
  induction n generalizing r with
  | zero => exact List.nodup_nil
  | succ n ih =>
      obtain ⟨q, hq, -⟩ := turns_succ_eq_some.1 hr
      rw [tally_succ hq]
      cases hc : e.count? q with
      | none => simpa using ih hq
      | some c =>
          obtain ⟨⟨id, node⟩, hid, hvalue⟩ := Option.map_eq_some_iff.1 hc
          obtain ⟨-, hnode, hstage, -⟩ := enumeration?_eq_some_iff.1 hid
          rw [Option.toList_some, List.map_append, List.map_singleton, List.nodup_append]
          refine ⟨ih hq, List.nodup_cons.2 ⟨List.not_mem_nil, List.nodup_nil⟩,
            fun a ha b hb hab => ?_⟩
          obtain ⟨d, hd, rfl⟩ := List.mem_map.1 ha
          rw [List.mem_singleton] at hb
          obtain ⟨node', hnode', hdone⟩ := done_of_mem_tally he hq hd
          rw [hab, hb, ← hvalue, hnode] at hnode'
          cases hnode'
          rw [hstage] at hdone
          cases hdone

end Generation

/-- What holds of the enumerations in the first turns of a generation. -/
structure Counted (e : Engine) (start : Run) (n : Nat) : Prop where
  /-- The numbers of a pattern among the children of a composite are consecutive from zero. -/
  consecutive : ∀ i pattern, ∃ k, Count.numbers (e.tally start n) i pattern = List.range k
  /-- Outside of all composites every number is one. -/
  outside : ∀ c ∈ e.tally start n, c.parent = none → c.number = 1
  /-- A node counts once. -/
  nodup : ((e.tally start n).map (·.id)).Nodup
  /-- A node without a parent is the root; any other has the composite for a
  parent that waits for it. -/
  parent : ∀ m r c, m < n → e.turns m start = some r → e.count? r = some c →
    (c.parent = none ↔ c.id = 0) ∧ ∀ i, c.parent = some i ↔
      ∃ node, r.arena.nodes[i]? = some node ∧
        node.stage = .toBuild ∧ node.spec.IsComposite ∧ c.id ∈ node.children
  /-- Every enumeration that is visited counts, and its number is what it shows afterwards. -/
  shown : ∀ m r id node, m < n → e.turns m start = some r → e.enumeration? r = some (id, node) →
    ∃ c r' node', c ∈ e.tally start n ∧ c.id = id ∧ c.pattern = e.patternOf node.spec ∧
      e.turns (m + 1) start = some r' ∧ r'.arena.nodes[id]? = some node' ∧
      node'.stage = .done ∧ node'.value = some (Counter.shown c.pattern c.number)

/-- With the built-in handlers alone, the enumerations of every composite are numbered
without gaps and repeats. -/
theorem counted {e : Engine} (he : e.handlers.registered = []) (root : Spec) (source : Source)
    (synthesizer : Synthesizer) {n : Nat} {r : Run}
    (hr : e.turns n (Run.start root source synthesizer) = some r) :
    e.Counted (Run.start root source synthesizer) n where
  consecutive := (scoped_of_turns he hr).consecutive
  outside := (scoped_of_turns he hr).outside
  nodup := nodup_tally he hr
  parent m q c _ hq hc := by
    obtain ⟨⟨id, node⟩, hid, rfl⟩ := Option.map_eq_some_iff.1 hc
    obtain ⟨-, hnode, hstage, -⟩ := enumeration?_eq_some_iff.1 hid
    have h := orderly_of_turns he hq
    refine ⟨Run.parent?_eq_none_iff h hnode (by rw [hstage]; rfl), fun i => ?_⟩
    rw [Run.parent?_eq_some_iff h.toHasFamilies]
    constructor
    · rintro ⟨parent, hparent, hmem⟩
      have hwaits := h.waits hparent hmem
      exact ⟨parent, hparent, hwaits, h.composite hparent hwaits, hmem⟩
    · rintro ⟨parent, hparent, -, -, hmem⟩
      exact ⟨parent, hparent, hmem⟩
  shown m q id node hm hq hid := by
    obtain ⟨q', hq'⟩ := exists_turns_of_le hr (Nat.succ_le_of_lt hm)
    obtain ⟨c, hc⟩ : ∃ c, e.count? q = some c := ⟨_, by rw [count?, hid]; rfl⟩
    obtain ⟨node', hnode', hdone, hvalue⟩ := shown_of_turns he hq hc hq'
    have hfields : c.id = id ∧ c.pattern = e.patternOf node.spec := by
      rw [count?, hid] at hc
      cases hc
      exact ⟨rfl, rfl⟩
    refine ⟨c, q', node', mem_tally.2 ⟨m, hm, q, hq, hc⟩, hfields.1, hfields.2, hq', ?_, hdone,
      hvalue⟩
    rw [← hfields.1]
    exact hnode'

/-- Two entries with counted names, each with a list of one counted text. -/
def labelled : Spec where
  kind := some "record"
  keys :=
    [⟨.generated { kind := some "string", method := some "enum", pattern := some "k%d" }, {
        kind := some "array"
        typeElements :=
          some { kind := some "string", method := some "enum", pattern := some "k%d" }
        minLength := some 1
        maxLength := some 1 }, 2, .always⟩]

def labelledEngine : Engine where
  registry := Registry.build labelled
  handlers := {}
  providers := .absent
  maxDepth := 4
  maxSize := none

-- The names count on, while the list of each entry starts anew.
example :
    (labelledEngine.tally (Run.start labelled (.tape [0, 0, 0, 0]) {}) 10).map
      (fun c => (c.parent, c.number)) =
        [(some 0, 0), (some 2, 0), (some 0, 1), (some 4, 0)] := by
  cbv

theorem value_labelledEngine :
    (labelledEngine.turns 10 (Run.start labelled (.tape [0, 0, 0, 0]) {})).map (·.value) =
      some (.obj [("k0", .arr [.str "k0"]), ("k1", .arr [.str "k0"])]) := by
  cbv

theorem counted_labelledEngine :
    labelledEngine.handlers.registered = [] ∧
      (∃ r, labelledEngine.turns 10 (Run.start labelled (.tape [0, 0, 0, 0]) {}) = some r) ∧
      labelledEngine.Counted (Run.start labelled (.tape [0, 0, 0, 0]) {}) 10 := by
  obtain ⟨r, hr, -⟩ := Option.map_eq_some_iff.1 value_labelledEngine
  exact ⟨rfl, ⟨r, hr⟩, counted rfl labelled _ {} hr⟩

end Engine

end Specimen
