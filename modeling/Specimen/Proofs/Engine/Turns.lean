import Specimen.Proofs.Engine.Orderly
import Specimen.Proofs.Engine.Response
/-!
# The moments of a generation

`Engine.turns` goes through a generation turn by turn, so that one can speak of the runs on the
way and of which comes before which. With the built-in handlers alone each turn is a move, every
moment is in order, and the children of a node are its own for the whole generation.
-/

namespace Specimen

open Specimen.Random Regex

namespace Engine

/-- The run after exactly so many turns. There is none if the stack is empty before, or if the
source ends. -/
def turns (e : Engine) : Nat → Run → Option Run
  | 0, r => some r
  | n + 1, r => (turns e n r).bind fun s =>
    match s.stack with
    | [] => none
    | _ :: _ => e.turn s

variable {e : Engine} {r s : Run} {m n : Nat}

theorem turns_succ_eq_some : e.turns (n + 1) r = some s ↔
    ∃ q, e.turns n r = some q ∧ q.stack ≠ [] ∧ e.turn q = some s := by
  rw [turns, Option.bind_eq_some_iff]
  refine exists_congr fun q => and_congr_right fun _ => ?_
  cases q.stack <;> simp

/-- What is read off the moments of a generation grows by what is read off the last one. -/
theorem filterMap_turns_succ {α : Type} {start : Run} (hr : e.turns n start = some r)
    (f : Run → Option α) :
    (List.range (n + 1)).filterMap (fun m => (e.turns m start).bind f) =
      (List.range n).filterMap (fun m => (e.turns m start).bind f) ++ (f r).toList := by
  rw [List.range_succ, List.filterMap_append]
  congr 1
  simp only [List.filterMap_cons, List.filterMap_nil, hr, Option.bind_some]
  cases f r <;> rfl

theorem turns_succ_of_cons {q : Run} {id : NodeId} {rest : List NodeId}
    (hq : e.turns n r = some q) (hstack : q.stack = id :: rest) :
    e.turns (n + 1) r = e.turn q := by
  simp [turns, hq, hstack]

theorem exists_turns_of_le (h : e.turns n r = some s) (hle : m ≤ n) :
    ∃ q, e.turns m r = some q := by
  induction n generalizing s with
  | zero =>
      obtain rfl := Nat.le_zero.1 hle
      exact ⟨s, h⟩
  | succ n ih =>
      rcases Nat.le_succ_iff.1 hle with hle | rfl
      · obtain ⟨q, hq, -⟩ := turns_succ_eq_some.1 h
        exact ih hq hle
      · exact ⟨s, h⟩

theorem turns_succ_of_turn {q : Run} (hstack : r.stack ≠ []) (hq : e.turn r = some q) :
    e.turns (n + 1) r = e.turns n q := by
  induction n with
  | zero =>
      cases hr : r.stack with
      | nil => exact absurd hr hstack
      | cons id rest => rw [turns_succ_of_cons rfl hr, hq, turns]
  | succ n ih => rw [turns, ih, turns]

/-- A run returns at the first moment at which the stack is empty. -/
theorem run_eq_some_iff {fuel : Nat} :
    e.run fuel r = some s ↔ ∃ n ≤ fuel, e.turns n r = some s ∧ s.stack = [] := by
  induction fuel generalizing r with
  | zero =>
      simp only [run, Nat.le_zero, exists_eq_left, turns, Option.some.injEq]
      cases hr : r.stack with
      | nil => exact ⟨fun h => Option.some.inj h ▸ ⟨rfl, hr⟩, fun h => h.1 ▸ rfl⟩
      | cons id rest =>
          simp only [reduceCtorEq, false_iff]
          rintro ⟨rfl, h⟩
          simp [hr] at h
  | succ fuel ih =>
      rw [run]
      cases hr : r.stack with
      | nil =>
          constructor
          · rintro h
            cases h
            exact ⟨0, Nat.zero_le _, rfl, hr⟩
          · rintro ⟨n, -, hn, hs⟩
            obtain ⟨q, hq⟩ | rfl := n.eq_zero_or_pos.symm.imp_left fun hpos =>
              exists_turns_of_le hn (Nat.succ_le_of_lt hpos)
            · obtain ⟨p, hp, hne, -⟩ := turns_succ_eq_some.1 hq
              cases hp
              exact absurd hr hne
            · exact hn
      | cons id rest =>
          have hne : r.stack ≠ [] := by simp [hr]
          simp only [Option.bind_eq_some_iff, ih]
          constructor
          · rintro ⟨q, hq, n, hn, hturns, hs⟩
            exact ⟨n + 1, by omega, (turns_succ_of_turn hne hq).trans hturns, hs⟩
          · rintro ⟨n, hn, hturns, hs⟩
            cases n with
            | zero =>
                cases hturns
                exact absurd hs hne
            | succ n =>
                obtain ⟨q, hq⟩ := exists_turns_of_le hturns (show 1 ≤ n + 1 by omega)
                rw [turns_succ_of_cons rfl hr] at hq
                exact ⟨q, hq, n, by omega, (turns_succ_of_turn hne hq).symm.trans hturns, hs⟩

/-! ## Turns are moves -/

section Builtin

variable (he : e.handlers.registered = [])
include he

section Turn

variable (h : Orderly r.arena.nodes r.stack) {id : NodeId} {rest : List NodeId} {node : Node}
  (hstack : r.stack = id :: rest) (hnode : r.arena.nodes[id]? = some node)
include h hstack hnode

theorem advance_of_turn (hstage : node.stage = .delayed) (hturn : e.turn r = some s) :
    ∃ response p,
      e.respond node.spec node.depth node.scope node.redirects r.progress = some (response, p) ∧
      s = Run.advance r.arena.nodes id { node with spec := e.registry.resolve node.spec } rest
        (response, p) := by
  have hnil := h.children_eq_nil hnode (by simp [hstage])
  rw [Run.eq_ofProgress hstack, turn_eq_respond hnode hstage he hnil] at hturn
  obtain ⟨⟨response, p⟩, hrespond, rfl⟩ := Option.map_eq_some_iff.1 hturn
  exact ⟨response, p, hrespond, rfl⟩

/-- The second visit of a composite, which always succeeds. -/
theorem assemble_of_turn (hstage : node.stage = .toBuild) :
    e.turn r = some ((Run.ofProgress { r.progress with report := r.report.countStep }
      r.arena.nodes rest).finish id (assemble node.spec (r.arena.outcomes node.children))) := by
  rw [Run.eq_ofProgress hstack, turn_eq_assemble he hnode hstage (h.composite hnode hstage)]
  rfl

end Turn

/-- The node on top is visited for the first time, or it is put together. -/
theorem turn_cases (h : Orderly r.arena.nodes r.stack) (hstack : r.stack ≠ [])
    (hturn : e.turn r = some s) :
    ∃ id rest node, r.stack = id :: rest ∧ r.arena.nodes[id]? = some node ∧
      ((node.stage = .delayed ∧ ∃ response p,
          e.respond node.spec node.depth node.scope node.redirects r.progress =
            some (response, p) ∧
          s = Run.advance r.arena.nodes id { node with spec := e.registry.resolve node.spec }
            rest
            (response, p)) ∨
        (node.stage = .toBuild ∧
          s = (Run.ofProgress { r.progress with report := r.report.countStep }
            r.arena.nodes rest).finish id
              (assemble node.spec (r.arena.outcomes node.children)))) := by
  obtain ⟨id, rest, hr⟩ := List.exists_cons_of_ne_nil hstack
  obtain ⟨node, hnode, hthrough⟩ := h.mem_stack.1 (hr ▸ List.mem_cons_self)
  have hopen : node.stage = .delayed ∨ node.stage = .toBuild := by
    cases hstage : node.stage <;> simp [hstage, Stage.isThrough] at hthrough ⊢
  refine ⟨id, rest, node, hr, hnode, ?_⟩
  rcases hopen with hstage | hstage
  · exact .inl ⟨hstage, advance_of_turn he h hr hnode hstage hturn⟩
  · rw [assemble_of_turn he h hr hnode hstage] at hturn
    exact .inr ⟨hstage, (Option.some.inj hturn).symm⟩

theorem move_of_turn (h : Orderly r.arena.nodes r.stack) (hstack : r.stack ≠ [])
    (hturn : e.turn r = some s) : Move r.arena.nodes r.stack s.arena.nodes s.stack := by
  obtain ⟨id, rest, node, hr, hnode, ⟨hstage, response, p, hrespond, rfl⟩ | ⟨hstage, rfl⟩⟩ :=
    turn_cases he h hstack hturn
  · rw [hr]
    cases response with
    | settled o =>
        refine .settle node _ o hnode hstage ?_
        rcases stage_of_settled hrespond with ho | ho <;> rw [ho, Stage.isThrough]
    | again t => exact .redirect node _ _ hnode hstage
    | family scope children =>
        exact .expand node _ scope children hnode hstage (isComposite_of_family hrespond)
  · rw [hr]
    exact .assemble node _ _ hnode hstage

variable {root : Spec} {source : Source} {synthesizer : Synthesizer}

/-- Every moment of a generation is in order. -/
theorem orderly_of_turns (h : e.turns n (Run.start root source synthesizer) = some r) :
    Orderly r.arena.nodes r.stack := by
  induction n generalizing r with
  | zero =>
      cases h
      exact .start root
  | succ n ih =>
      obtain ⟨q, hq, hstack, hturn⟩ := turns_succ_eq_some.1 h
      exact (ih hq).move (move_of_turn he (ih hq) hstack hturn)

theorem move_of_turns (h : e.turns n (Run.start root source synthesizer) = some r)
    (h' : e.turns (n + 1) (Run.start root source synthesizer) = some s) :
    Move r.arena.nodes r.stack s.arena.nodes s.stack := by
  obtain ⟨q, hq, hstack, hturn⟩ := turns_succ_eq_some.1 h'
  rw [h] at hq
  cases hq
  exact move_of_turn he (orderly_of_turns he h) hstack hturn

/-! ## Earlier and later moments -/

theorem later_of_turns (hs : e.turns m (Run.start root source synthesizer) = some s)
    (hr : e.turns n (Run.start root source synthesizer) = some r) (hle : m ≤ n) {j : Nat}
    {a : Node} (ha : s.arena.nodes[j]? = some a) :
    ∃ b, r.arena.nodes[j]? = some b ∧ a.Later b := by
  induction hle generalizing r with
  | refl =>
      rw [hs] at hr
      cases hr
      exact ⟨a, ha, .refl a⟩
  | @step n _ ih =>
      obtain ⟨q, hq, -⟩ := turns_succ_eq_some.1 hr
      obtain ⟨b, hb, hab⟩ := ih hq
      obtain ⟨c, hc, hbc⟩ := (move_of_turns he hq hr).later hb
      exact ⟨c, hc, hab.trans hbc⟩

theorem size_le_of_turns (hs : e.turns m (Run.start root source synthesizer) = some s)
    (hr : e.turns n (Run.start root source synthesizer) = some r) (hle : m ≤ n) :
    s.arena.nodes.size ≤ r.arena.nodes.size := by
  rcases Nat.eq_zero_or_pos s.arena.nodes.size with h | h
  · omega
  · have hlt : s.arena.nodes.size - 1 < s.arena.nodes.size := by omega
    have hlast := Array.getElem?_eq_getElem hlt
    obtain ⟨b, hb, -⟩ := later_of_turns he hs hr hle hlast
    have := (Array.getElem?_eq_some_iff.1 hb).1
    omega

/-- A node that was there before is only a child of whom it was a child of before. -/
theorem isChild_of_turns (hs : e.turns m (Run.start root source synthesizer) = some s)
    (hr : e.turns n (Run.start root source synthesizer) = some r) (hle : m ≤ n) {i c : Nat}
    (hc : IsChild r.arena.nodes i c) (hlt : c < s.arena.nodes.size) :
    IsChild s.arena.nodes i c := by
  induction hle generalizing r with
  | refl =>
      rw [hs] at hr
      cases hr
      exact hc
  | @step n hle ih =>
      obtain ⟨q, hq, -⟩ := turns_succ_eq_some.1 hr
      have hsize := size_le_of_turns he hs hq hle
      exact ih hq ((move_of_turns he hq hr).isChild_of_lt hc (by omega))

/-- At whatever moments a node is a child, it is a child of the same node. -/
theorem parent_unique_of_turns (hs : e.turns m (Run.start root source synthesizer) = some s)
    (hr : e.turns n (Run.start root source synthesizer) = some r) {i j c : Nat}
    (hi : IsChild s.arena.nodes i c) (hj : IsChild r.arena.nodes j c) : i = j := by
  rcases Nat.le_total m n with hle | hle
  · have hold := isChild_of_turns he hs hr hle hj ((orderly_of_turns he hs).lt_of_isChild hi)
    exact (orderly_of_turns he hs).parent_unique hi hold
  · have hold := isChild_of_turns he hr hs hle hi ((orderly_of_turns he hr).lt_of_isChild hj)
    exact (orderly_of_turns he hr).parent_unique hold hj

/-- Every node but the root has been made as a child. -/
theorem exists_parent_of_turns (hr : e.turns n (Run.start root source synthesizer) = some r)
    {c : Nat} (hpos : 0 < c) (hlt : c < r.arena.nodes.size) :
    ∃ m s i, m ≤ n ∧ e.turns m (Run.start root source synthesizer) = some s ∧
      IsChild s.arena.nodes i c := by
  induction n generalizing r with
  | zero =>
      cases hr
      simp only [Run.start, List.size_toArray, List.length_singleton] at hlt
      omega
  | succ n ih =>
      obtain ⟨q, hq, -⟩ := turns_succ_eq_some.1 hr
      rcases Nat.lt_or_ge c q.arena.nodes.size with hold | hnew
      · obtain ⟨m, s, i, hm, hs, hi⟩ := ih hq hold
        exact ⟨m, s, i, by omega, hs, hi⟩
      · obtain ⟨⟨i, hi⟩, -⟩ :=
          (move_of_turns he hq hr).of_new hnew (Array.getElem?_eq_getElem hlt)
        exact ⟨n + 1, r, i, Nat.le_refl _, hr, hi⟩

end Builtin

end Engine

end Specimen
