import Specimen.Proofs.Engine.Effect
import Specimen.Proofs.Record.Conditions
import Specimen.Spec.Reader
/-!
# Keys that depend on others

A record decides at its first visit which entries it keeps, and is put together at its second,
after everything has happened that its children need. Between the two it is `Gathering`: its
children are still on the stack or have come to their values, and no visit of another node takes
these from them. So the names that the plan kept are those of the object in the end, but for
values that were cut off, and a key whose presence depends on another one shows it
(`Engine.conditional_key`). All this holds whatever the handlers of the other nodes are.
-/

namespace Specimen

open Specimen.Random Regex
open Specimen.Record (Answers)

def Node.outcome (n : Node) : Outcome := ⟨n.stage, Json.ofOption n.value⟩

theorem Arena.outcome_of_getElem? {a : Arena} {id : NodeId} {n : Node}
    (h : a.nodes[id]? = some n) :
    a.outcome id = n.outcome := by
  rw [outcome, h]
  rfl

/-- A child that had to be made has been answered as soon as it is through. -/
theorem Record.answers_of_isThrough {n : Node} (h : n.stage.isThrough = true) (spec : Spec) :
    Answers (.queued spec) n.outcome := by
  cases hstage : n.stage with
  | delayed => rw [hstage] at h; cases h
  | toBuild => rw [hstage] at h; cases h
  | done => rw [Node.outcome, hstage]; exact .made spec _
  | truncated => rw [Node.outcome, hstage]; exact .truncated spec _

variable {nodes nodes' : Array Node} {id base top : Nat} {node : Node}
  {rest tail stack' : List Nat} {kids : List Child} {spec : Spec} {v : Json}

theorem Effect.mem_stack (h : Effect nodes id node rest nodes' stack') {j : Nat} (hj : j ≠ id)
    (hlt : j < nodes.size) : j ∈ stack' ↔ j ∈ rest := by
  obtain ⟨y, -, -, -, ⟨-, rfl⟩ | ⟨fresh, rfl, -, hfresh⟩⟩ := h.own
  · exact Iff.rfl
  · have hnew : j ∉ fresh := fun hmem => absurd hlt (Nat.not_lt.2 (hfresh j hmem).1)
    simp [hj, hnew]

/-! ## Between the two visits -/

/-- The node `id` waits above `rest` for the children from `base` on that it has asked for. -/
structure Gathering (id base : Nat) (rest : List Nat) (kids : List Child) (spec : Spec)
    (nodes : Array Node) (stack : List Nat) : Prop where
  id_lt : id < base
  rest_lt : ∀ j ∈ rest, j < base
  size_le : base + kids.length ≤ nodes.size
  waits : ∃ n, nodes[id]? = some n ∧ n.stage = .toBuild ∧ n.spec = spec ∧
    n.children = List.range' base kids.length
  above : ∃ above, stack = above ++ id :: rest ∧ ∀ j ∈ above, base ≤ j
  /-- The children are nobody else's. -/
  own : ∀ i c, i ≠ id → IsChild nodes i c → c < base ∨ base + kids.length ≤ c
  child : ∀ i c, kids[i]? = some c → ∃ n, nodes[base + i]? = some n ∧
    (base + i ∈ stack ∧ (∃ s, c = .queued s) ∨ base + i ∉ stack ∧ Answers c n.outcome)

namespace Gathering

/-- A node that has just asked for children gathers them. -/
theorem family (hg : Grounded nodes (id :: rest)) (hnode : nodes[id]? = some node)
    (hchildren : node.children = []) (spec : Spec) (scope : ScopeId) (kids : List Child) :
    Gathering id nodes.size rest kids spec
      (withFamily nodes id { node with spec } scope kids)
      (queuedIds nodes.size kids ++ id :: rest) := by
  have hid : id < nodes.size := hg.stack_lt id List.mem_cons_self
  have hrest : ∀ j ∈ rest, j < nodes.size := fun j hj =>
    hg.stack_lt j (List.mem_cons_of_mem _ hj)
  refine ⟨hid, hrest, by simp [withFamily], ?waits, ?above, ?own, ?child⟩
  case waits =>
    exact ⟨_, (getElem?_withFamily _ scope kids hid).trans (if_pos rfl), rfl, rfl, rfl⟩
  case above => exact ⟨_, rfl, fun j hj => le_of_mem_queuedIds hj⟩
  case own =>
    intro i c hi hc
    rcases (isChild_withFamily _ scope kids hnode hchildren i c).1 hc with hold | ⟨rfl, -⟩
    · exact .inl (hg.child_lt i c hold)
    · exact absurd rfl hi
  case child =>
    intro i c hc
    have hnew : (withFamily nodes id { node with spec } scope kids)[nodes.size + i]? = _ :=
      getElem?_withFamily_new _ scope kids i
    rw [hc, Option.map_some] at hnew
    refine ⟨_, hnew, ?_⟩
    cases c with
    | queued s => exact .inl ⟨List.mem_append_left _ (mem_queuedIds.2 ⟨i, s, hc, rfl⟩), s, rfl⟩
    | ready v =>
        refine .inr ⟨fun hmem => ?_, .ready v⟩
        rcases List.mem_append.1 hmem with hmem | hmem
        · obtain ⟨j, s, hj, heq⟩ := mem_queuedIds.1 hmem
          obtain rfl : i = j := Nat.add_left_cancel heq
          rw [hc] at hj
          cases hj
        · rcases List.mem_cons.1 hmem with rfl | hmem
          · omega
          · have := hrest _ hmem
            omega

/-- The visit of another node does not disturb it. -/
theorem effect (h : Gathering id base rest kids spec nodes (top :: tail)) (hne : top ≠ id)
    (hg : Grounded nodes (top :: tail)) (he : Effect nodes top node tail nodes' stack') :
    Gathering id base rest kids spec nodes' stack' := by
  obtain ⟨above, habove, hbase⟩ := h.above
  obtain ⟨above, rfl⟩ : ∃ others, above = top :: others := by
    cases above with
    | nil => exact absurd (List.cons.inj habove).1 hne
    | cons j others => exact ⟨others, by rw [(List.cons.inj habove).1]⟩
  obtain rfl : tail = above ++ id :: rest := (List.cons.inj habove).2
  obtain ⟨hbelow, -⟩ := List.nodup_cons.1 hg.nodup
  obtain ⟨y, hy, -, -, hstack⟩ := he.own
  refine ⟨h.id_lt, h.rest_lt, Nat.le_trans h.size_le he.size_le, ?waits, ?above, ?own, ?child⟩
  case waits =>
    obtain ⟨n, hn, hwaits⟩ := h.waits
    rcases he.others id n (Ne.symm hne) hn with hn' | ⟨-, hn'⟩
    · exact ⟨n, hn', hwaits⟩
    · exact ⟨_, hn', hwaits⟩
  case above =>
    rcases hstack with ⟨-, rfl⟩ | ⟨fresh, rfl, -, hfresh⟩
    · exact ⟨above, rfl, fun j hj => hbase j (List.mem_cons_of_mem _ hj)⟩
    · refine ⟨fresh ++ top :: above, by simp, fun j hj => ?_⟩
      rcases List.mem_append.1 hj with hj | hj
      · exact Nat.le_trans (Nat.le_trans (Nat.le_add_right _ _) h.size_le) (hfresh j hj).1
      · exact hbase j hj
  case own =>
    intro i c hi hc
    rcases he.isChild hc with hold | ⟨-, hnew, -⟩
    · exact h.own i c hi hold
    · exact .inr (Nat.le_trans h.size_le hnew)
  case child =>
    intro i c hc
    have hi : i < kids.length := (List.getElem?_eq_some_iff.1 hc).1
    obtain ⟨n, hn, hcase⟩ := h.child i c hc
    by_cases htop : base + i = top
    · -- The child itself is visited, so it had to be made.
      obtain ⟨-, s, rfl⟩ := hcase.resolve_right fun h => h.1 (htop ▸ List.mem_cons_self)
      rw [htop]
      refine ⟨y, hy, ?_⟩
      rcases hstack with ⟨hthrough, rfl⟩ | ⟨fresh, rfl, -⟩
      · exact .inr ⟨hbelow, Record.answers_of_isThrough hthrough s⟩
      · exact .inl ⟨by simp, s, rfl⟩
    · have hlt : base + i < nodes.size := (Array.getElem?_eq_some_iff.1 hn).1
      have hmem : base + i ∈ stack' ↔ base + i ∈ top :: above ++ id :: rest := by
        rw [he.mem_stack htop hlt, List.cons_append, List.mem_cons]
        exact ⟨.inr, fun h => h.resolve_left htop⟩
      rw [List.cons_append] at hmem
      refine ⟨n, ?_, by rwa [hmem]⟩
      refine (he.others _ n htop hn).resolve_right fun ⟨hchild, _⟩ => ?_
      have := h.own top (base + i) hne ⟨node, he.visited, hchild⟩
      omega

/-- What has come of the children when the node is visited again. -/
theorem answers (h : Gathering id base rest kids spec nodes (id :: tail))
    (scopes : Array Scope) :
    tail = rest ∧ List.Forall₂ Answers kids
      (Arena.outcomes ⟨nodes, scopes⟩ (List.range' base kids.length)) := by
  obtain ⟨above, habove, hbase⟩ := h.above
  obtain rfl : above = [] := by
    cases above with
    | nil => rfl
    | cons j others =>
        obtain rfl := (List.cons.inj habove).1
        exact absurd (hbase id List.mem_cons_self) (Nat.not_le.2 h.id_lt)
  obtain rfl : tail = rest := (List.cons.inj habove).2
  refine ⟨rfl, List.forall₂_iff_get.2 ⟨by simp [Arena.outcomes], fun i hi hi' => ?_⟩⟩
  obtain ⟨n, hn, hcase⟩ := h.child i _ (List.getElem?_eq_getElem hi)
  have hnot : base + i ∉ id :: tail := fun hmem => by
    rcases List.mem_cons.1 hmem with heq | hmem
    · exact absurd h.id_lt (by omega)
    · exact absurd (h.rest_lt _ hmem) (by omega)
  have hanswers := (hcase.resolve_left fun h => hnot h.1).2
  have houtcome := Arena.outcome_of_getElem? (a := ⟨nodes, scopes⟩) hn
  simpa [Arena.outcomes, houtcome] using hanswers

end Gathering

/-! ## After the second visit -/

/-- The node has got a value, which somebody may have taken, and is not visited any more. -/
structure Settled (id : Nat) (v : Json) (nodes : Array Node) (stack : List Nat) : Prop where
  not_mem : id ∉ stack
  value : ∃ n, nodes[id]? = some n ∧ n.stage = .done ∧ (n.value = some v ∨ n.value = none)

theorem Settled.effect (h : Settled id v nodes (top :: tail))
    (he : Effect nodes top node tail nodes' stack') : Settled id v nodes' stack' := by
  obtain ⟨hne, htail⟩ := not_or.1 (mt List.mem_cons.2 h.not_mem)
  obtain ⟨n, hn, hdone, hvalue⟩ := h.value
  refine ⟨mt (he.mem_stack hne (Array.getElem?_eq_some_iff.1 hn).1).1 htail, ?_⟩
  rcases he.others id n hne hn with hn' | ⟨-, hn'⟩
  · exact ⟨n, hn', hdone, hvalue⟩
  · exact ⟨_, hn', hdone, .inr rfl⟩

theorem settled_of_finish {a : Arena} (hnode : a.nodes[id]? = some node) (hrest : id ∉ rest)
    (v : Json) : Settled id v (a.finish id v).nodes rest :=
  ⟨hrest, _, (Arena.getElem?_finish v hnode id).trans (if_pos rfl), rfl, .inl rfl⟩

namespace Engine

variable {e : Engine} {q r s : Run} {p : Progress}

/-- The second visit of a record puts its fields together. -/
theorem turn_of_gathering (hnode : nodes[id]? = some node) (hstage : node.stage = .toBuild)
    (hrecord : e.handlers.get? (HandlerKey.ofSpec node.spec) = some Record.handler) :
    e.turn (.ofProgress p nodes (id :: rest)) =
      some ((Run.ofProgress { p with report := p.report.countStep } nodes rest).finish id
        (Json.ofFields (Record.assemble (Arena.outcomes { nodes } node.children)))) := by
  have hturn : e.turn (.ofProgress p nodes (id :: rest)) =
      e.consult Record.handler (.ofProgress { p with report := p.report.countStep } nodes rest)
        id node := by
    simp only [turn, visit, dispatch, Run.ofProgress, hnode, if_pos hstage, hrecord]
  have hhandler : ∀ (v : Visit) (supply : Supply), v.stage = .toBuild →
      Record.handler v supply =
        some (.ok (.finish (Json.ofFields (Record.assemble v.children))), supply) := by
    intro v supply hv
    simp only [Record.handler, hv, Action.pure_apply]
  rw [hturn, consult_ofProgress, hhandler _ _ hstage]
  simp only [Option.map_some, Progress.after_same_scope, Report.countDropped_zero, settle]
  rfl

/-- The turn from `q` to `r` is the first visit of a node that resolves to this record. -/
structure VisitsRecord (e : Engine) (q r : Run) (id : Nat) (spec : Spec) : Prop where
  turn : e.turn q = some r
  top : ∃ rest, q.stack = id :: rest
  node : ∃ node, q.arena.nodes[id]? = some node ∧ node.stage = .delayed ∧
    e.registry.resolve node.spec = spec ∧ ¬ e.IsTooDeep spec node.depth
  handler : e.handlers.get? (HandlerKey.ofSpec spec) = some Record.handler

/-- At its first visit a record is planned. If that keeps nothing it is the empty object, else
the record gathers the children of its entries. -/
theorem VisitsRecord.planned (h : e.VisitsRecord q r id spec)
    (hg : Grounded q.arena.nodes q.stack) :
    ∃ room plan left, Record.plan spec.keys { room } q.source = some (plan, left) ∧
      r.report.droppedBySize = q.report.droppedBySize + UInt64.ofNat (plan.cut.getD 0) ∧
      (plan.entries = [] ∧ Settled id (.obj []) r.arena.nodes r.stack ∨
        ∃ base rest, Gathering id base rest plan.children spec r.arena.nodes r.stack) := by
  obtain ⟨rest, hstack⟩ := h.top
  obtain ⟨node, hnode, hstage, rfl, hdeep⟩ := h.node
  have hchildren := hg.delayed id node hnode hstage
  have hturn := h.turn
  rw [Run.eq_ofProgress hstack, turn_of_delayed hnode hstage, if_neg (mt isTooDeep_iff.1 hdeep),
    dispatch] at hturn
  have hresolved : (q.arena.nodes.setIfInBounds id
      { node with spec := e.registry.resolve node.spec })[id]? =
        some { node with spec := e.registry.resolve node.spec } := by
    rw [getElem?_set_of_some _ hnode, if_pos rfl]
  let used : Progress := { q.progress with
    report := q.report.countStep.countUsage
      (HandlerKey.ofSpec (e.registry.resolve node.spec)).label }
  have hconsult := (consult_record hresolved hchildren hstage :
    e.consult Record.handler (.ofProgress used _ rest) id _ = _).symm
  have hfirst : ¬ node.stage = .toBuild := by simp [hstage]
  simp only [h.handler, if_neg hfirst] at hturn
  obtain ⟨⟨response, p⟩, hresponse, rfl⟩ := Option.map_eq_some_iff.1 (hconsult.trans hturn)
  obtain ⟨plan, source, hplan, hcase⟩ := Evaluation.record_eq_some hresponse
  refine ⟨_, plan, source, hplan, ?_⟩
  have hid := (Array.getElem?_eq_some_iff.1 hnode).1
  have hnodup := hg.nodup
  rw [hstack] at hnodup
  obtain ⟨hrest, -⟩ := List.nodup_cons.1 hnodup
  rw [advance_setIfInBounds]
  rcases hcase with ⟨hentries, rfl, rfl⟩ | ⟨hentries, rfl, rfl⟩
  · refine ⟨rfl, .inl ⟨hentries, hrest, ?_⟩⟩
    exact ⟨_, (getElem?_set_of_some _ hnode id).trans (if_pos rfl), rfl, .inl rfl⟩
  · exact ⟨rfl, .inr ⟨q.arena.nodes.size, rest, .family (hstack ▸ hg) hnode hchildren _ _ _⟩⟩

/-! ## Every later moment -/

/-- A child of the node is cut off for its depth. -/
def TruncatesChild (e : Engine) (start : Run) (id : Nat) : Prop :=
  ∃ n r c child, e.turns n start = some r ∧ IsChild r.arena.nodes id c ∧
    r.arena.nodes[c]? = some child ∧ child.stage = .truncated

/-- The object is put together from answers to these children. -/
def Assembles (e : Engine) (start : Run) (id : Nat) (kids : List Child) (v : Json) : Prop :=
  ∃ outcomes, v = Json.ofFields (Record.assemble outcomes) ∧ List.Forall₂ Answers kids outcomes ∧
    ((∃ o ∈ outcomes, o.stage = .truncated) → e.TruncatesChild start id)

section

variable {root : Spec} {source : Source} {synthesizer : Synthesizer} {m n : Nat}

/-- The turn that ends the gathering settles the object. -/
theorem settled_of_gathering (hq : e.turns n (Run.start root source synthesizer) = some q)
    (h : Gathering id base rest kids spec q.arena.nodes (id :: tail))
    (hstack : q.stack = id :: tail)
    (hrecord : e.handlers.get? (HandlerKey.ofSpec spec) = some Record.handler)
    (hr : e.turn q = some r) : ∃ v, Settled id v r.arena.nodes r.stack ∧
      e.Assembles (Run.start root source synthesizer) id kids v := by
  obtain ⟨node, hnode, hstage, rfl, hchildren⟩ := h.waits
  obtain ⟨rfl, hanswers⟩ := h.answers q.arena.scopes
  obtain ⟨hnot, -⟩ := List.nodup_cons.1 (hstack ▸ (grounded_of_turns hq).nodup)
  rw [Run.eq_ofProgress hstack, turn_of_gathering hnode hstage hrecord] at hr
  cases hr
  refine ⟨_, settled_of_finish (a := ⟨q.arena.nodes, q.arena.scopes⟩) hnode hnot _, _,
    rfl, ?_, ?_⟩
  · rw [hchildren]
    exact hanswers
  · rintro ⟨o, ho, htruncated⟩
    obtain ⟨c, hc, rfl⟩ := List.mem_map.1 ho
    cases hchild : q.arena.nodes[c]? with
    | none => simp [Arena.outcome, hchild] at htruncated
    | some child =>
        rw [Arena.outcome_of_getElem? (a := ⟨q.arena.nodes, #[]⟩) hchild] at htruncated
        exact ⟨n, q, c, child, hq, ⟨node, hnode, hc⟩, hchild, htruncated⟩

/-- A record gathers its children until it is the object that is put together from them. -/
theorem gathering_of_turns (hq : e.turns m (Run.start root source synthesizer) = some q)
    (h : Gathering id base rest kids spec q.arena.nodes q.stack)
    (hrecord : e.handlers.get? (HandlerKey.ofSpec spec) = some Record.handler) (hle : m ≤ n)
    (hr : e.turns n (Run.start root source synthesizer) = some r) :
    Gathering id base rest kids spec r.arena.nodes r.stack ∨
      ∃ v, Settled id v r.arena.nodes r.stack ∧
        e.Assembles (Run.start root source synthesizer) id kids v := by
  induction hle generalizing r with
  | refl =>
      obtain rfl := Option.some.inj (hq.symm.trans hr)
      exact .inl h
  | @step n hle ih =>
      obtain ⟨t, ht, hstack, hturn⟩ := turns_succ_eq_some.1 hr
      have hg := grounded_of_turns ht
      obtain ⟨top, node, tail, htop, heffect⟩ := exists_effect_of_turn hg hstack hturn
      rw [htop] at hg
      rcases ih ht with hgather | ⟨v, hsettled, hv⟩
      · by_cases hne : top = id
        · subst hne
          exact .inr (settled_of_gathering ht (htop ▸ hgather) htop hrecord hturn)
        · exact .inl ((htop ▸ hgather).effect hne hg heffect)
      · exact .inr ⟨v, (htop ▸ hsettled).effect heffect, hv⟩

theorem settled_of_turns (hq : e.turns m (Run.start root source synthesizer) = some q)
    (h : Settled id v q.arena.nodes q.stack) (hle : m ≤ n)
    (hr : e.turns n (Run.start root source synthesizer) = some r) :
    Settled id v r.arena.nodes r.stack := by
  induction hle generalizing r with
  | refl =>
      obtain rfl := Option.some.inj (hq.symm.trans hr)
      exact h
  | @step n hle ih =>
      obtain ⟨t, ht, hstack, hturn⟩ := turns_succ_eq_some.1 hr
      obtain ⟨top, node, tail, htop, heffect⟩ :=
        exists_effect_of_turn (grounded_of_turns ht) hstack hturn
      exact (htop ▸ ih ht).effect heffect

/-- Whenever a record that was visited is done, its value is the object that is put together from
the children of its plan. -/
theorem assembles_of_done (hq : e.turns m (Run.start root source synthesizer) = some q)
    (hvisit : e.VisitsRecord q s id spec) (hlt : m < n)
    (hr : e.turns n (Run.start root source synthesizer) = some r)
    (hnode : r.arena.nodes[id]? = some node) (hdone : node.stage = .done)
    (hvalue : node.value = some v) :
    ∃ room plan left, Record.plan spec.keys { room } q.source = some (plan, left) ∧
      s.report.droppedBySize = q.report.droppedBySize + UInt64.ofNat (plan.cut.getD 0) ∧
      e.Assembles (Run.start root source synthesizer) id plan.children v := by
  obtain ⟨rest, hstack⟩ := hvisit.top
  have hs : e.turns (m + 1) (Run.start root source synthesizer) = some s :=
    (turns_succ_of_cons hq hstack).trans hvisit.turn
  have hvalue' : ∀ {w}, Settled id w r.arena.nodes r.stack → v = w := fun h => by
    obtain ⟨n, hn, -, hw⟩ := h.value
    obtain rfl := Option.some.inj (hn.symm.trans hnode)
    rw [hvalue] at hw
    exact Option.some.inj (hw.resolve_right nofun)
  obtain ⟨room, plan, left, hplan, hdropped, hcase⟩ := hvisit.planned (grounded_of_turns hq)
  refine ⟨room, plan, left, hplan, hdropped, ?_⟩
  rcases hcase with ⟨hentries, hsettled⟩ | ⟨base, below, hgather⟩
  · rw [hvalue' (settled_of_turns hs hsettled hlt hr)]
    refine ⟨[], rfl, ?_, fun ⟨o, ho, _⟩ => nomatch ho⟩
    rw [Record.Plan.children, hentries]
    exact .nil
  · rcases gathering_of_turns hs hgather hvisit.handler hlt hr with h | ⟨w, hsettled, hw⟩
    · obtain ⟨n, hn, hwaits, -⟩ := h.waits
      obtain rfl := Option.some.inj (hn.symm.trans hnode)
      rw [hwaits] at hdone
      cases hdone
    · exact hvalue' hsettled ▸ hw

/-- A key that depends on another one shows it in the object: never both of them where it is
present without the other, and just the one or the other where nothing was cut off. -/
theorem conditional_key {a b : String} {seen : Bool}
    (hdepends : Record.Depends spec.keys b a seen)
    (hq : e.turns m (Run.start root source synthesizer) = some q)
    (hvisit : e.VisitsRecord q s id spec) (hlt : m < n)
    (hr : e.turns n (Run.start root source synthesizer) = some r)
    (hnode : r.arena.nodes[id]? = some node) (hdone : node.stage = .done)
    (hvalue : node.value = some v) :
    (Spec.chanceOf (.str ("!" ++ a)) = .onSeen a false ∧
      (a.toList.head? ≠ some '!' → Spec.chanceOf (.str a) = .onSeen a true)) ∧
      (∃ fields, v = .obj fields) ∧
      (seen = false → ¬ ((v.get? a).isSome = true ∧ (v.get? b).isSome = true)) ∧
      (¬ e.TruncatesChild (Run.start root source synthesizer) id →
        s.report.droppedBySize = q.report.droppedBySize →
          ((v.get? b).isSome = true ↔ (v.get? a).isSome = seen)) := by
  obtain ⟨room, plan, left, hplan, hdropped, outcomes, rfl, hanswers, htruncated⟩ :=
    assembles_of_done hq hvisit hlt hr hnode hdone hvalue
  obtain ⟨hfits, hkept⟩ := hdepends.kept hplan
  have hget : ∀ name, ((Json.ofFields (Record.assemble outcomes)).get? name).isSome = true ↔
      name ∈ (Record.assemble outcomes).map (·.1) := Table.isSome_get?_ofList _
  have hnames := hdepends.names hplan hanswers
  refine ⟨Spec.chanceOf_onSeen a, ⟨_, rfl⟩, ?_, fun hcomplete hsame => ?_⟩
  · rintro rfl ⟨ha, hb⟩
    have hna := (hnames a).1 ((hget a).1 ha)
    have hnb := (hnames b).1 ((hget b).1 hb)
    exact nomatch hna.symm.trans (hfits hnb)
  · have hall : ∀ o ∈ outcomes, o.stage ≠ .truncated := fun o ho h =>
      hcomplete (htruncated ⟨o, ho, h⟩)
    have hname : ∀ name, ((Json.ofFields (Record.assemble outcomes)).get? name).isSome =
        plan.hasName name := fun name => by
      rw [Bool.eq_iff_iff, hget]
      exact ⟨(hnames name).1, (hnames name).2 hall⟩
    have hcut : plan.cut = none := by
      refine Record.cut_eq_none_of_plan hplan ?_
      rw [hsame] at hdropped
      exact UInt64.add_eq_left.1 hdropped.symm
    rw [hname, hname]
    exact ⟨hfits, hkept hcut⟩

end

/-- A record of a key, one that is there without it, and one that is there with it. -/
def dependent : Spec where
  kind := some "record"
  keys := [⟨.fixed "a", Spec.empty, 2, .always⟩,
    ⟨.fixed "b", Spec.empty, 1, Spec.chanceOf (.str "!a")⟩,
    ⟨.fixed "c", Spec.empty, 1, Spec.chanceOf (.str "a")⟩]

def dependentEngine : Engine where
  registry := Registry.build dependent
  handlers := {}
  providers := .absent
  maxDepth := 2
  maxSize := none

def dependentStart : Run := Run.start dependent (.tape []) {}

theorem depends_dependent :
    Record.Depends dependent.keys "b" "a" false ∧
    Record.Depends dependent.keys "c" "a" true := by
  have hfixed : ∀ k ∈ dependent.keys, ∃ text, k.name = .fixed text := by
    simp [dependent]
  refine ⟨⟨hfixed, by decide, [_], _, [_], rfl, rfl, by decide, rfl, ?_, ?_⟩,
    ⟨hfixed, by decide, [_, _], _, [], rfl, rfl, by decide, rfl, ?_, ?_⟩⟩ <;>
    simp [Record.Declares]

theorem visitsRecord_dependent {s : Run} (h : dependentEngine.turn dependentStart = some s) :
    dependentEngine.VisitsRecord dependentStart s 0 dependent where
  turn := h
  top := ⟨[], rfl⟩
  node := ⟨_, rfl, rfl, rfl, by decide⟩
  handler := rfl

/-- No child of the record is cut off on the way. -/
theorem not_truncatesChild_dependent : ¬ dependentEngine.TruncatesChild dependentStart 0 := by
  rintro ⟨n, r, c, child, hr, -, hchild, htruncated⟩
  have hend : (dependentEngine.turns 6 dependentStart).isNone := by decide +kernel
  have hall : ∀ n < 6, (dependentEngine.turns n dependentStart).all
      (·.arena.nodes.all (·.stage ≠ .truncated)) := by decide +kernel
  have hlt : n < 6 := by
    refine Nat.lt_of_not_le fun hle => ?_
    obtain ⟨q, hq⟩ := exists_turns_of_le hr hle
    rw [hq] at hend
    cases hend
  have hnodes := hall n hlt
  rw [hr] at hnodes
  rw [Option.all_some, Array.all_eq_true_iff_forall_mem] at hnodes
  exact of_decide_eq_true (hnodes child (Array.mem_of_getElem? hchild)) htruncated

/-- Of the two keys that depend on `a` the object has the one that is there with it. -/
theorem conditional_key_dependent : ∃ r node v, dependentEngine.turns 5 dependentStart = some r ∧
    r.arena.nodes[0]? = some node ∧ node.value = some v ∧
    (v.get? "a").isSome = true ∧ (v.get? "b").isSome = false ∧ (v.get? "c").isSome = true := by
  obtain ⟨s, hs⟩ : ∃ s, dependentEngine.turn dependentStart = some s :=
    Option.isSome_iff_exists.1 (by decide +kernel)
  have hdropped : (dependentEngine.turn dependentStart).all (·.report.droppedBySize = 0) := by
    decide +kernel
  rw [hs] at hdropped
  have hsame : s.report.droppedBySize = dependentStart.report.droppedBySize :=
    of_decide_eq_true hdropped
  obtain ⟨r, hr⟩ : ∃ r, dependentEngine.turns 5 dependentStart = some r :=
    Option.isSome_iff_exists.1 (by decide +kernel)
  have hfinal : ((dependentEngine.turns 5 dependentStart).bind (·.arena.nodes[0]?)).any fun n =>
      n.stage = .done && n.value.any fun v => (v.get? "a").isSome := by decide +kernel
  rw [hr, Option.bind_some] at hfinal
  cases hnode : r.arena.nodes[0]? with
  | none => rw [hnode] at hfinal; cases hfinal
  | some node =>
      rw [hnode, Option.any_some, Bool.and_eq_true] at hfinal
      obtain ⟨hdone, hvalue⟩ := hfinal
      cases hv : node.value with
      | none => rw [hv] at hvalue; cases hvalue
      | some v =>
          rw [hv] at hvalue
          have ha : (v.get? "a").isSome = true := hvalue
          have hkey := fun {b seen} (hd : Record.Depends dependent.keys b "a" seen) =>
            (conditional_key (m := 0) hd rfl (visitsRecord_dependent hs) (by decide) hr hnode
              (of_decide_eq_true hdone) hv).2.2.2 not_truncatesChild_dependent hsame
          refine ⟨r, node, v, hr, hnode, hv, ha, ?_, ?_⟩
          · rw [Bool.eq_false_iff, ne_eq, hkey depends_dependent.1, ha]
            exact Bool.noConfusion
          · exact (hkey depends_dependent.2).2 ha

end Engine

end Specimen
