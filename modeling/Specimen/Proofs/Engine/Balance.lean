import Specimen.Proofs.Engine.Exits
import Specimen.Proofs.Engine.Lifecycle
/-!
# The report balances

The exits of a generation account for its report: every count is a number of exits
(`Exit.Recorded`), and the nodes on the stack and those that have left for good are all the nodes
that were queued (`Exit.Followed`). Both hold from turn to turn. When the stack is empty they
give the balance of the report, `Engine.balanced`.
-/

namespace Specimen

open Specimen.Random Regex

namespace Exit

/-- How many of the exits are such. -/
def number (p : Exit → Bool) (exits : List (NodeId × Exit)) : Nat := exits.countP (p ·.2)

/-- The nodes with such exits. -/
def nodes (p : Exit → Bool) (exits : List (NodeId × Exit)) : List NodeId :=
  (exits.filter (p ·.2)).map Prod.fst

/-- All children that were queued. -/
def allQueued (exits : List (NodeId × Exit)) : Nat := (exits.map (·.2.queued)).sum

section Lists

variable (p : Exit → Bool) (exits : List (NodeId × Exit)) (id : NodeId) (x : Exit)

theorem number_cons :
    number p ((id, x) :: exits) = number p exits + if p x then 1 else 0 := List.countP_cons

@[simp] theorem number_concat :
    number p (exits ++ [(id, x)]) = number p exits + if p x then 1 else 0 := by
  rw [number, List.countP_append, List.countP_singleton]
  rfl

@[simp] theorem nodes_concat :
    nodes p (exits ++ [(id, x)]) = nodes p exits ++ if p x then [id] else [] := by
  rw [nodes, List.filter_append, List.map_append, nodes]
  cases hx : p x <;> simp [hx]

@[simp] theorem allQueued_concat :
    allQueued (exits ++ [(id, x)]) = allQueued exits + x.queued := by
  simp [allQueued]

@[simp] theorem length_nodes : (nodes p exits).length = number p exits := by
  rw [nodes, List.length_map, number, List.countP_eq_length_filter]

variable {p exits id}

theorem mem_nodes : id ∈ nodes p exits ↔ ∃ x, (id, x) ∈ exits ∧ p x = true := by
  simp [nodes]

theorem nodes_sublist {q : Exit → Bool} (h : ∀ x, p x = true → q x = true) :
    (nodes p exits).Sublist (nodes q exits) :=
  (List.monotone_filter_right exits fun entry => h entry.2).map Prod.fst

variable (exits)

/-- Every visit cuts its node off, finds no handler, asks one about a new node, or puts a node
together. -/
theorem length_eq_number : exits.length = number (· = truncated) exits +
    number (· = unknown) exits + number isAsked exits + number (· = assembled) exits := by
  induction exits with
  | nil => rfl
  | cons entry exits ih =>
      obtain ⟨id, x⟩ := entry
      rw [List.length_cons, ih]
      simp only [number_cons]
      cases x <;> simp [isAsked] <;> omega

/-- A node leaves for good, goes on with another description, or waits. -/
theorem length_eq_number_isLast : exits.length = number isLast exits +
    number (· = again) exits + number isExpanded exits := by
  induction exits with
  | nil => rfl
  | cons entry exits ih =>
      obtain ⟨id, x⟩ := entry
      rw [List.length_cons, ih]
      simp only [number_cons]
      cases x <;> simp [isLast, isExpanded] <;> omega

/-- There are four ways to leave for good. -/
theorem number_isLast : number isLast exits = number (· = truncated) exits +
    number (· = unknown) exits + number (· = failed) exits + number isMade exits := by
  induction exits with
  | nil => rfl
  | cons entry exits ih =>
      obtain ⟨id, x⟩ := entry
      simp only [number_cons, ih]
      cases x <;> simp [isLast, isMade] <;> omega

end Lists

/-! ## The counts of the report -/

/-- The counts of a report are numbers of exits. -/
structure Recorded (exits : List (NodeId × Exit)) (r : Report) : Prop where
  steps : r.steps = exits.length
  truncated : r.truncatedDepth = number (· = .truncated) exits
  unknown : r.unknownHandlers = number (· = .unknown) exits
  failures : r.handlerFailures = number (· = .failed) exits
  usage : r.handlerUsage.total = number isAsked exits
  queued : r.nodesQueued = 1 + allQueued exits
  ascending : r.handlerUsage.Ascending

theorem Recorded.start : Recorded [] { nodesQueued := 1 } :=
  ⟨rfl, rfl, rfl, rfl, rfl, rfl, List.Pairwise.nil⟩

/-- A visit counts its exit, and nothing else. -/
theorem Recorded.count {exits : List (NodeId × Exit)} {r : Report} (h : Recorded exits r)
    (id : NodeId) (x : Exit) (label : String) (dropped : UInt64) :
    Recorded (exits ++ [(id, x)]) ((x.count label r.countStep).countDropped dropped) := by
  obtain ⟨hsteps, htruncated, hunknown, hfailures, husage, hqueued, hascending⟩ := h
  have htotal := Table.total_increment hascending label
  have hinsert : (Table.increment r.handlerUsage label).Ascending := hascending.insert _ _
  cases x <;>
    constructor <;>
    simp [Exit.count, Report.countDropped, Report.countStep, Report.countTruncated,
      Report.countUnknown, Report.countUsage, Report.countFailure, Report.countQueued, isAsked,
      Exit.queued, hsteps, htruncated, hunknown, hfailures, husage, hqueued, hascending, htotal,
      hinsert, Nat.add_assoc]

/-! ## The nodes that were visited -/

/-- A node waits for its children. -/
def Waits (nodes : Array Node) (id : NodeId) : Prop :=
  ∃ node, nodes[id]? = some node ∧ node.stage = .toBuild

/-- The nodes on the stack and those that have left for good are all that were queued, and the
nodes that got children wait for them or have been put together. -/
structure Followed (exits : List (NodeId × Exit)) (r : Run) : Prop where
  stacked : r.stack.length + number isLast exits = 1 + allQueued exits
  nodup : (r.stack ++ nodes isLast exits).Nodup
  lt : ∀ id ∈ nodes isLast exits, id < r.arena.nodes.size
  waiting : ∀ id, id ∈ nodes isExpanded exits ↔
    Waits r.arena.nodes id ∨ id ∈ nodes (· = .assembled) exits
  expanded_nodup : (nodes isExpanded exits).Nodup

theorem Followed.start (root : Spec) (source : Source) (synthesizer : Synthesizer) :
    Followed [] (Run.start root source synthesizer) := by
  have hwaits : ∀ id, ¬ Waits (Run.start root source synthesizer).arena.nodes id := by
    rintro id ⟨node, hnode, hstage⟩
    cases id with
    | zero =>
        cases hnode
        cases hstage
    | succ id => simp [Run.start] at hnode
  refine ⟨rfl, by simp [nodes, Run.start], by simp [nodes], fun id => ?_, by simp [nodes]⟩
  simp [nodes, hwaits id]

namespace Followed

variable {e : Engine} {r s : Run} {exits : List (NodeId × Exit)} {id : NodeId} {x : Exit}
  (hr : Followed exits r) (h : Orderly r.arena.nodes r.stack) (hx : e.Leaving r s id x)

include hr hx in
theorem stacked_turn :
    s.stack.length + number isLast (exits ++ [(id, x)]) =
      1 + allQueued (exits ++ [(id, x)]) := by
  obtain ⟨rest, queued, hstack, hstack', hqueued, -⟩ := hx.stack
  have hbefore := hr.stacked
  rw [hstack, List.length_cons] at hbefore
  rw [hstack', List.length_append, hqueued, number_concat, allQueued_concat]
  cases x.isLast
  · simp only [Bool.false_eq_true, if_false, List.length_cons]
    omega
  · simp only [if_true]
    omega

include hr h hx in
theorem nodup_turn : (s.stack ++ nodes isLast (exits ++ [(id, x)])).Nodup := by
  obtain ⟨rest, queued, hstack, hstack', -, hnodup, hnew⟩ := hx.stack
  have hperm : (s.stack ++ nodes isLast (exits ++ [(id, x)])).Perm
      (queued ++ (r.stack ++ nodes isLast exits)) := by
    rw [hstack', hstack, nodes_concat, List.append_assoc]
    refine List.Perm.append_left queued ?_
    cases x.isLast
    · simp
    · simp only [if_true, ← List.append_assoc]
      exact List.perm_append_singleton id _
  refine hperm.nodup_iff.2 (List.nodup_append.2 ⟨hnodup, hr.nodup, fun a ha b hb hab => ?_⟩)
  have hlt : b < r.arena.nodes.size := by
    rcases List.mem_append.1 hb with hb | hb
    · exact h.lt_of_mem_stack hb
    · exact hr.lt b hb
  exact absurd hlt (Nat.not_lt.2 (hab ▸ hnew a ha))

include hr hx in
theorem lt_turn (hsize : r.arena.nodes.size ≤ s.arena.nodes.size) :
    ∀ j ∈ nodes isLast (exits ++ [(id, x)]), j < s.arena.nodes.size := by
  intro j hj
  obtain ⟨node, hnode, -⟩ := hx.before
  refine Nat.lt_of_lt_of_le ?_ hsize
  rw [nodes_concat, List.mem_append] at hj
  rcases hj with hj | hj
  · exact hr.lt j hj
  · cases hlast : x.isLast
    · simp [hlast] at hj
    · simp only [hlast, if_true, List.mem_singleton] at hj
      exact hj ▸ (Array.getElem?_eq_some_iff.1 hnode).1

include hr hx in
theorem waiting_turn
    (hother : ∀ j, j ≠ id → (Waits s.arena.nodes j ↔ Waits r.arena.nodes j)) (j : NodeId) :
    j ∈ nodes isExpanded (exits ++ [(id, x)]) ↔
      Waits s.arena.nodes j ∨ j ∈ nodes (· = .assembled) (exits ++ [(id, x)]) := by
  rw [nodes_concat, nodes_concat, List.mem_append, List.mem_append, hr.waiting]
  by_cases hj : j = id
  · subst hj
    obtain ⟨node, hnode, hbefore⟩ := hx.before
    obtain ⟨node', hnode', hafter⟩ := hx.after
    have hwaits : Waits r.arena.nodes j ↔ x = .assembled := by
      simp only [Waits, hnode, Option.some.injEq, exists_eq_left', hbefore]
      split <;> simp [*]
    have hwaits' : Waits s.arena.nodes j ↔ x.isExpanded = true := by
      simp only [Waits, hnode', Option.some.injEq, exists_eq_left', hafter]
      cases x <;> simp [Exit.stage, isExpanded]
    rw [hwaits, hwaits']
    cases x <;> simp [isExpanded]
  · rw [hother j hj]
    cases x <;> simp [isExpanded, hj]

include hr hx in
theorem expanded_nodup_turn : (nodes isExpanded (exits ++ [(id, x)])).Nodup := by
  rw [nodes_concat]
  cases hexpanded : x.isExpanded
  · simpa using hr.expanded_nodup
  · obtain ⟨node, hnode, hbefore⟩ := hx.before
    obtain ⟨rest, queued, hstack, -⟩ := hx.stack
    have hnot : id ∉ nodes isExpanded exits := by
      rw [hr.waiting, not_or]
      constructor
      · rintro ⟨node', hnode', hstage⟩
        rw [hnode] at hnode'
        cases hnode'
        rw [hstage] at hbefore
        cases x <;> simp [isExpanded] at hexpanded hbefore
      · -- What has been put together has left for good, and is not on the stack.
        intro hassembled
        have hlast := (nodes_sublist (q := isLast) (by simp [isLast])).subset hassembled
        have hmem : id ∈ r.stack := hstack ▸ List.mem_cons_self
        exact (List.nodup_append.1 hr.nodup).2.2 id hmem id hlast rfl
    rw [if_pos rfl, ← List.concat_eq_append]
    exact hr.expanded_nodup.concat hnot

end Followed

end Exit

theorem Exit.exists_of_ofAnswer_eq_again {redirects : Nat} {answer : Except Failure Verdict}
    (h : Exit.ofAnswer redirects answer = .again) : ∃ t, answer = .ok (.redirect t) := by
  match answer with
  | .error _ => cases h
  | .ok .pending => cases h
  | .ok (.finish _) => cases h
  | .ok (.expand _ _) => cases h
  | .ok (.redirect t) => exact ⟨t, rfl⟩

theorem Builtin.eq_choice_of_redirect {b : Builtin} {v : Visit} {s t : Supply} {spec : Spec}
    (h : b.handler v s = some (.ok (.redirect spec), t)) : b = .choice := by
  cases b with
  | choice => rfl
  | record =>
      obtain ⟨_, hv⟩ | ⟨_, hv⟩ := Record.verdict_of_handler h <;> cases hv
  | array =>
      obtain ⟨_, hv⟩ | ⟨_, hv⟩ := Sequence.verdict_of_handler h <;> cases hv
  | _ =>
      obtain ⟨_, hv⟩ := Handler.verdict_of_leaf h
      cases hv

namespace Engine

open Exit

variable {e : Engine} {r s : Run} {id : NodeId}

/-- A turn lets no node wait but the one that it visits, and ends the wait of no other. -/
theorem waits_of_turn (he : e.handlers.registered = []) (h : Orderly r.arena.nodes r.stack)
    {rest : List NodeId} (hstack : r.stack = id :: rest) (hturn : e.turn r = some s) {j : NodeId}
    (hj : j ≠ id) : Waits s.arena.nodes j ↔ Waits r.arena.nodes j := by
  obtain ⟨node, hnode, -⟩ := h.mem_stack.1 (hstack ▸ List.mem_cons_self)
  constructor
  · rintro ⟨m, hm, hstage⟩
    cases leaves_of_turn he h hstack hnode hturn hm with
    | other value _ hold => exact ⟨_, hold, hstage⟩
    | child => exact absurd hstage (stage_ofChild_ne _ _ _)
    | through hid => exact absurd hid hj
    | again hid => exact absurd hid hj
    | waits children hid => exact absurd hid hj
  · rintro ⟨m, hm, hstage⟩
    obtain ⟨m', hm', -⟩ := (move_of_turn he h (by simp [hstack]) hturn).later hm
    refine ⟨m', hm', ?_⟩
    cases leaves_of_turn he h hstack hnode hturn hm' with
    | other value _ hold =>
        rw [hm] at hold
        cases hold
        exact hstage
    | child scope hnone => simp [hm] at hnone
    | through hid => exact absurd hid hj
    | again hid => exact absurd hid hj
    | waits children hid => exact absurd hid hj

section Generation

variable {root : Spec} {source : Source} {synthesizer : Synthesizer} {n : Nat}
  (he : e.handlers.registered = [])
include he

theorem recorded_of_turns (hr : e.turns n (Run.start root source synthesizer) = some r) :
    Recorded (e.exits (Run.start root source synthesizer) n) r.report := by
  induction n generalizing r with
  | zero =>
      cases hr
      exact .start
  | succ n ih =>
      obtain ⟨q, hq, hstack, hturn⟩ := turns_succ_eq_some.1 hr
      obtain ⟨id, x, hexit, hx⟩ := exit_of_turn he (orderly_of_turns he hq) hstack hturn
      obtain ⟨label, hreport⟩ := hx.report
      rw [exits_succ hq, hexit, hreport]
      exact (ih hq).count id x label _

theorem followed_of_turns (hr : e.turns n (Run.start root source synthesizer) = some r) :
    Followed (e.exits (Run.start root source synthesizer) n) r := by
  induction n generalizing r with
  | zero =>
      cases hr
      exact .start root source synthesizer
  | succ n ih =>
      obtain ⟨q, hq, hstack, hturn⟩ := turns_succ_eq_some.1 hr
      have h := orderly_of_turns he hq
      have hbefore := ih hq
      obtain ⟨id, x, hexit, hx⟩ := exit_of_turn he h hstack hturn
      obtain ⟨rest, queued, htop, -⟩ := hx.stack
      rw [exits_succ hq, hexit]
      exact ⟨hbefore.stacked_turn hx, hbefore.nodup_turn h hx,
        hbefore.lt_turn hx (size_le_of_turns he hq hr (Nat.le_succ n)),
        hbefore.waiting_turn hx fun j => waits_of_turn he h htop hturn,
        hbefore.expanded_nodup_turn hx⟩

/-- A node that was ever on the stack is there still or has left for good. -/
theorem mem_of_turns (hr : e.turns n (Run.start root source synthesizer) = some r) {m : Nat}
    (hm : m ≤ n) {q : Run} (hq : e.turns m (Run.start root source synthesizer) = some q)
    (hid : id ∈ q.stack) :
    id ∈ r.stack ∨ id ∈ nodes isLast (e.exits (Run.start root source synthesizer) n) := by
  induction hm generalizing r with
  | refl =>
      rw [hq] at hr
      cases hr
      exact .inl hid
  | @step n hm ih =>
      obtain ⟨q', hq', hstack, hturn⟩ := turns_succ_eq_some.1 hr
      obtain ⟨id', x, hexit, hx⟩ := exit_of_turn he (orderly_of_turns he hq') hstack hturn
      obtain ⟨rest, queued, hbefore, hafter, -⟩ := hx.stack
      rw [exits_succ hq', hexit, Option.toList_some, nodes_concat, hafter]
      have := ih hq'
      rw [hbefore] at this
      cases x.isLast <;> simp at this ⊢ <;> tauto

/-- In the end every node that has got children has been put together. -/
theorem number_assembled_of_turns (hr : e.turns n (Run.start root source synthesizer) = some r)
    (hstack : r.stack = []) :
    number (· = .assembled) (e.exits (Run.start root source synthesizer) n) =
      number isExpanded (e.exits (Run.start root source synthesizer) n) := by
  have h := followed_of_turns he hr
  have hnone : ∀ id, ¬ Waits r.arena.nodes id := by
    rintro id ⟨node, hnode, hstage⟩
    have := (returned_of_turns he hr hstack).1 id node hnode
    simp [hstage] at this
  have hnodup := h.nodup
  rw [hstack, List.nil_append] at hnodup
  have hassembled := (nodes_sublist (p := (· = .assembled)) (by simp [isLast])).nodup hnodup
  rw [← length_nodes, ← length_nodes]
  refine ((List.perm_ext_iff_of_nodup hassembled h.expanded_nodup).2 fun id => ?_).length_eq
  rw [h.waiting, or_iff_right (hnone id)]

omit he in
/-- There is no turn after the one that empties the stack. -/
theorem le_of_turns {start q : Run} {m : Nat} (hr : e.turns n start = some r)
    (hstack : r.stack = []) (hq : e.turns m start = some q) : m ≤ n := by
  refine Nat.le_of_not_lt fun hlt => ?_
  obtain ⟨s, hs⟩ := exists_turns_of_le hq hlt
  obtain ⟨r', hr', hne, -⟩ := turns_succ_eq_some.1 hs
  rw [hr] at hr'
  cases hr'
  exact hne hstack

end Generation

/-! ## The end of a generation -/

/-- The next turn evaluates a new node with this handler. -/
def Evaluates (e : Engine) (r : Run) (b : Builtin) : Prop :=
  ∃ (id : NodeId) (rest : List NodeId) (node : Node), r.stack = id :: rest ∧
    r.arena.nodes[id]? = some node ∧ e.builtin? node = some b

/-- Only choices go on with another description. -/
theorem evaluates_choice_of_again (hexit : e.exit? r = some (id, .again)) :
    e.Evaluates r .choice := by
  obtain ⟨rest, node, hstack, hnode, hexit⟩ := exit?_eq_some_iff.1 hexit
  unfold exitOf? at hexit
  split_ifs at hexit
  · cases hexit
  · cases hexit
  · cases hexit
  · obtain ⟨⟨answer, supply⟩, hcalled, hagain⟩ := Option.map_eq_some_iff.1 hexit
    obtain ⟨b, hb, hcall⟩ := Option.bind_eq_some_iff.1 hcalled
    obtain ⟨t, rfl⟩ := exists_of_ofAnswer_eq_again hagain
    obtain rfl := Builtin.eq_choice_of_redirect hcall
    exact ⟨id, rest, node, hstack, hnode, hb⟩

/-- What the exits of a generation say about its report. -/
structure Balanced (e : Engine) (start : Run) (exits : List (NodeId × Exit)) (r : Report) :
    Prop where
  truncated : r.truncatedDepth = number (· = .truncated) exits
  unknown : r.unknownHandlers = number (· = .unknown) exits
  failures : r.handlerFailures = number (· = .failed) exits
  usage : r.handlerUsage.total = number isAsked exits
  /-- A step is a first visit or puts a node together that has got children. -/
  steps : r.steps = r.truncatedDepth + r.unknownHandlers + r.handlerUsage.total +
    number isExpanded exits
  /-- Every node is visited for the first time, and again each time that it goes on. -/
  visits : r.truncatedDepth + r.unknownHandlers + r.handlerUsage.total =
    r.nodesQueued + number (· = .again) exits
  queued : r.nodesQueued = 1 + allQueued exits
  /-- Every node that was on the stack leaves it for good once, in one of four ways. -/
  ends : (nodes isLast exits).Nodup ∧ (∀ id, id ∈ nodes isLast exits ↔
      ∃ m q, e.turns m start = some q ∧ id ∈ q.stack) ∧
    r.nodesQueued = number isLast exits ∧
    r.nodesQueued =
      r.truncatedDepth + r.unknownHandlers + r.handlerFailures + number isMade exits
  /-- No node gets children twice. -/
  expanded_nodup : (nodes isExpanded exits).Nodup
  /-- Without choices every node is visited for the first time once. -/
  choiceless : (∀ m q, e.turns m start = some q → ¬ e.Evaluates q .choice) →
    r.nodesQueued = r.truncatedDepth + r.unknownHandlers + r.handlerUsage.total

/-- With the built-in handlers alone the report of every generation that returns is balanced. -/
theorem balanced {e : Engine} (he : e.handlers.registered = []) (root : Spec) (source : Source)
    (synthesizer : Synthesizer) {fuel : Nat} {final : Run}
    (hrun : e.run fuel (Run.start root source synthesizer) = some final) :
    e.Balanced (Run.start root source synthesizer)
      (e.exits (Run.start root source synthesizer) final.report.steps) final.report := by
  obtain ⟨n, -, hfinal, hstack⟩ := run_eq_some_iff.1 hrun
  have hrecorded := recorded_of_turns he hfinal
  have hfollowed := followed_of_turns he hfinal
  rw [steps_of_turns he hfinal]
  generalize hexits : e.exits (Run.start root source synthesizer) n = exits
    at hrecorded hfollowed ⊢
  have hlast : number isLast exits = final.report.nodesQueued := by
    have := hfollowed.stacked
    rw [hstack, List.length_nil, Nat.zero_add, ← hrecorded.queued] at this
    exact this
  have hassembled := number_assembled_of_turns he hfinal hstack
  have hnodup := hfollowed.nodup
  rw [hstack, List.nil_append] at hnodup
  rw [hexits] at hassembled
  have hsteps := hrecorded.steps
  have hkinds := length_eq_number exits
  have hways := length_eq_number_isLast exits
  have hends := number_isLast exits
  rw [← hrecorded.truncated, ← hrecorded.unknown] at hkinds hends
  rw [← hrecorded.usage] at hkinds
  rw [← hrecorded.failures] at hends
  have hvisits : final.report.truncatedDepth + final.report.unknownHandlers +
      final.report.handlerUsage.total =
        final.report.nodesQueued + number (· = .again) exits := by
    omega
  refine ⟨hrecorded.truncated, hrecorded.unknown, hrecorded.failures, hrecorded.usage, ?steps,
    hvisits, hrecorded.queued, ⟨hnodup, ?ended, hlast.symm, ?ways⟩, hfollowed.expanded_nodup,
    ?choiceless⟩
  case steps => omega
  case ways => omega
  case ended =>
      intro id
      constructor
      · rw [mem_nodes, ← hexits]
        rintro ⟨x, hx, -⟩
        obtain ⟨m, -, q, hq, hexit⟩ := mem_exits.1 hx
        obtain ⟨rest, node, hq', -⟩ := exit?_eq_some_iff.1 hexit
        exact ⟨m, q, hq, hq' ▸ List.mem_cons_self⟩
      · rintro ⟨m, q, hq, hid⟩
        have hm := le_of_turns hfinal hstack hq
        have := mem_of_turns he hfinal hm hq hid
        rwa [hstack, hexits, or_iff_right List.not_mem_nil] at this
  case choiceless =>
      intro hnone
      have hagain : number (· = .again) exits = 0 := by
        refine List.countP_eq_zero.2 fun ⟨id, x⟩ hx hagain => ?_
        obtain rfl := of_decide_eq_true hagain
        obtain ⟨m, -, q, hq, hexit⟩ := mem_exits.1 (hexits ▸ hx)
        exact hnone m q hq (evaluates_choice_of_again hexit)
      omega

/-- A record with a choice and with values of which one has no handler, one lies too deep and one
fails. -/
def varied : Spec where
  kind := some "record"
  keys :=
    [⟨.fixed "choice", {
        kind := some "choice"
        options := [⟨none, { kind := some "fixed", value := some (.bool true) }⟩] }, 1, .always⟩,
      ⟨.fixed "unknown", { kind := some "unheard" }, 1, .always⟩,
      ⟨.fixed "deep", { kind := some "bool", maxDepth := some 0 }, 1, .always⟩,
      ⟨.fixed "failing", { kind := some "string", method := some "fake" }, 1, .always⟩]

def variedEngine : Engine where
  registry := Registry.build varied
  handlers := {}
  providers := .absent
  maxDepth := 4
  maxSize := none

theorem exits_variedEngine :
    variedEngine.exits (Run.start varied (.tape [0, 0]) {}) 7 =
      [(0, .expanded 4), (2, .again), (2, .finished), (4, .unknown), (6, .truncated),
        (8, .failed),
        (0, .assembled)] := by
  decide +kernel

theorem steps_variedEngine :
    (variedEngine.run 10 (Run.start varied (.tape [0, 0]) {})).map (·.report.steps) =
      some 7 := by
  decide +kernel

theorem balanced_variedEngine :
    variedEngine.handlers.registered = [] ∧ ∃ final,
      variedEngine.run 10 (Run.start varied (.tape [0, 0]) {}) = some final ∧
      variedEngine.Balanced (Run.start varied (.tape [0, 0]) {})
        [(0, .expanded 4), (2, .again), (2, .finished), (4, .unknown), (6, .truncated),
          (8, .failed), (0, .assembled)] final.report := by
  obtain ⟨final, hrun, hsteps⟩ := Option.map_eq_some_iff.1 steps_variedEngine
  have h := balanced (e := variedEngine) rfl varied (.tape [0, 0]) {} hrun
  rw [hsteps, exits_variedEngine] at h
  exact ⟨rfl, final, hrun, h⟩

end Engine

end Specimen
