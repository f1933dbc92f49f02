import Specimen.Proofs.Counter.Scope
import Specimen.Proofs.Engine.Conformance
import Specimen.Proofs.Engine.Exits
import Specimen.Proofs.Record.Stops
/-!
# The children left out for lack of room

`Engine.cut` is how many slots for children a turn cuts off, as a number without a limit: of an
array the drawn length beyond what there is room for, of a record the slots from its stop on. A
single composite counts them up to `Record.countLimit`, which is exact for an array. The report
adds these counts up in a word of 64 bits, without a limit of its own:
`Generator.dropped_of_generate`.
-/

namespace Specimen

open Specimen.Random Regex

/-! ## What handlers drop -/

section Handler

variable {v : Visit} {s t : Supply} {answer : Except Failure Verdict}

theorem Handler.dropped_of_leaf {f : Visit → Action Json}
    (hf : ∀ {x : Except Failure Json} {u : Supply}, f v s = some (x, u) → u.dropped = s.dropped)
    (h : Handler.leaf f v s = some (answer, t)) : t.dropped = s.dropped := by
  rw [Handler.leaf_apply] at h
  obtain ⟨⟨x, u⟩, hrun, h⟩ := Option.map_eq_some_iff.1 h
  cases h
  exact hf hrun

theorem Choice.dropped_of_handler (h : Choice.handler v s = some (answer, t)) :
    t.dropped = s.dropped := by
  cases hoptions : v.spec.options with
  | nil =>
      simp only [Choice.handler, hoptions] at h
      cases h
      rfl
  | cons o options =>
      simp only [Choice.handler, hoptions, Action.draw_bind] at h
      obtain ⟨⟨roll, source⟩, hroll, h⟩ := Option.bind_eq_some_iff.1 h
      have hcall := Choice.handler_of_roll hoptions hroll
      simp only [Choice.handler, hoptions, Action.draw_bind, hroll, Option.bind_some] at hcall
      rw [h] at hcall
      cases hcall
      rfl

/-- Only composites drop children. -/
theorem Builtin.dropped_of_handler {b : Builtin} (hrecord : b ≠ .record) (harray : b ≠ .array)
    (h : b.handler v s = some (answer, t)) : t.dropped = s.dropped := by
  have hplain : ∀ {f : Visit → Action Json}, (f v).Plain →
      Handler.leaf f v s = some (answer, t) → t.dropped = s.dropped :=
    fun hf => Handler.dropped_of_leaf fun hrun => (hf.keeps hrun).2
  cases b with
  | record => exact absurd rfl hrecord
  | array => exact absurd rfl harray
  | choice => exact Choice.dropped_of_handler h
  | enumeration =>
      refine Handler.dropped_of_leaf (fun hrun => ?_) h
      rw [Leaf.enumeration_apply] at hrun
      obtain ⟨counted, -, hrun⟩ := Option.map_eq_some_iff.1 hrun
      cases hrun
      rfl
  | fixed => exact hplain (Leaf.plain_fixed v) h
  | boolean => exact hplain (Leaf.plain_boolean v) h
  | integer => exact hplain (Leaf.plain_integer v) h
  | pick => exact hplain (Leaf.plain_pick v) h
  | distribution => exact hplain (Leaf.plain_distribution v) h
  | text => exact hplain (Leaf.plain_text v) h
  | regex => exact hplain (Leaf.plain_regex v) h
  | fake => exact hplain (Leaf.plain_fake v) h

end Handler

namespace Engine

/-- How many slots for children a new node cuts off, for lack of room. -/
def cutOf (e : Engine) (r : Run) (node : Node) : Nat :=
  let spec := e.registry.resolve node.spec
  match e.builtin? node with
  | some .record =>
    (Record.findStop (e.room r.report) spec.keys [] r.source).elim 0 fun (stop, _) =>
      stop.elim 0 Record.Stop.slots
  | some .array =>
    let (low, high) := Sequence.bounds spec
    if high < low then 0
    else (Draw.between low high r.source).elim 0 fun (length, _) =>
      length.toNat - Sequence.admitted (e.room r.report) length.toNat
  | _ => 0

/-- How many slots for children the next turn cuts off. -/
def cut (e : Engine) (r : Run) : Nat :=
  (r.stack.head?.bind (r.arena.nodes[·]?)).elim 0 (e.cutOf r)

/-- How many slots the first turns of a generation cut off, one after the other. -/
def cuts (e : Engine) (start : Run) (n : Nat) : List Nat :=
  (List.range n).filterMap fun m => (e.turns m start).bind fun r => some (e.cut r)

/-- How many of them are counted, each time up to the limit of a count. -/
def counts (e : Engine) (start : Run) (n : Nat) : List Nat :=
  (e.cuts start n).map (min Record.countLimit)

variable {e : Engine} {r s : Run} {node : Node}

theorem sum_counts_succ {start : Run} {n : Nat} (hr : e.turns n start = some r) :
    (e.counts start (n + 1)).sum =
      (e.counts start n).sum + min Record.countLimit (e.cut r) := by
  rw [counts, cuts, filterMap_turns_succ hr, List.map_append, List.sum_append,
    Option.toList_some,
    List.map_singleton, List.sum_singleton]
  rfl

theorem dropped_of_record {v : Visit} {supply supply' : Supply} {answer : Except Failure Verdict}
    (hstage : v.stage = .delayed) (hzero : supply.dropped = 0)
    (h : Record.handler v supply = some (answer, supply')) :
    ∃ stop source, Record.findStop v.room v.spec.keys [] supply.source = some (stop, source) ∧
      supply'.dropped =
        UInt64.ofNat (min Record.countLimit (stop.elim 0 Record.Stop.slots)) := by
  rw [Record.handler_of_delayed v.spec v.room hstage rfl rfl] at h
  obtain ⟨⟨plan, source⟩, hplan, h⟩ := Option.map_eq_some_iff.1 h
  obtain ⟨stop, hstop, hcut⟩ := Record.cut_of_plan hplan
  cases h
  refine ⟨stop, source, hstop, ?_⟩
  rw [hzero, UInt64.zero_add, hcut]

/-- What an array cuts off of a length is a count, as its bounds are in the signed range. -/
theorem dropped_of_array {v : Visit} {supply supply' : Supply} {answer : Except Failure Verdict}
    (hmeasured : v.spec.IsMeasured) (hstage : v.stage = .delayed) (hzero : supply.dropped = 0)
    (h : Sequence.handler v supply = some (answer, supply')) :
    supply'.dropped = UInt64.ofNat (min Record.countLimit
      (if (Sequence.bounds v.spec).2 < (Sequence.bounds v.spec).1 then 0
       else (Draw.between (Sequence.bounds v.spec).1 (Sequence.bounds v.spec).2
         supply.source).elim 0 fun (length, _) =>
           length.toNat - Sequence.admitted v.room length.toNat)) := by
  by_cases hbounds : (Sequence.bounds v.spec).2 < (Sequence.bounds v.spec).1
  · rw [Sequence.handler_of_inverted v.spec hstage rfl _ hbounds] at h
    cases h
    simp [hzero, hbounds]
  · rw [Sequence.handler_of_ordered v.spec v.room hstage rfl rfl _ hbounds] at h
    obtain ⟨⟨length, source⟩, hdraw, h⟩ := Option.map_eq_some_iff.1 h
    cases h
    obtain ⟨hlow, hhigh⟩ := bounds_of_isMeasured hmeasured
    have hlength :=
      (Draw.mem_of_between (by simp only [int64Limit]; omega) (Int.not_lt.1 hbounds)
      hhigh hdraw).2
    have hle : length.toNat - Sequence.admitted v.room length.toNat ≤ Record.countLimit := by
      simp only [int64Limit] at hhigh
      simp only [Record.countLimit, UInt64.size]
      omega
    rw [if_neg hbounds, hdraw, Option.elim_some, hzero, UInt64.zero_add, Nat.min_eq_right hle]

/-- A composite counts what it cuts off, up to the limit of a count. -/
theorem dropped_of_call (hmeasured : (e.registry.resolve node.spec).IsMeasured)
    {answer : Except Failure Verdict} {supply : Supply}
    (h : e.called? r node = some (answer, supply)) :
    supply.dropped = UInt64.ofNat (min Record.countLimit (e.cutOf r node)) := by
  obtain ⟨b, hb, h⟩ := Option.bind_eq_some_iff.1 h
  unfold call at h
  cases b with
  | record =>
      rw [Builtin.handler] at h
      obtain ⟨stop, source, hstop, hdropped⟩ := dropped_of_record (h := h) rfl rfl
      dsimp only [firstVisit] at hstop
      rw [hdropped]
      simp only [cutOf, hb, hstop, Option.elim_some]
  | array =>
      rw [Builtin.handler] at h
      rw [dropped_of_array (h := h) hmeasured rfl rfl]
      simp only [cutOf, hb]
      rfl
  | _ =>
      rw [Builtin.dropped_of_handler (by decide) (by decide) h]
      simp [cutOf, hb]

/-! ## What the report adds up -/

/-- A handler that is asked in a turn returns. -/
theorem builtin?_eq_none_of_exit {x : Exit} (hexit : e.exitOf? r node = some x)
    (hcalled : e.called? r node = none) : e.builtin? node = none := by
  unfold exitOf? at hexit
  split_ifs at hexit with hwaits hdeep hunknown
  · simp [builtin?, hwaits]
  · simp [builtin?, hdeep]
  · exact hunknown
  · simp [hcalled] at hexit

/-- What the next visit discards is what it cuts off, up to the limit of a count. -/
theorem discarded_eq {id : NodeId} {x : Exit} (hexit : e.exit? r = some (id, x))
    (hmeasured : ∀ (j : NodeId) (m : Node), r.arena.nodes[j]? = some m →
      (e.registry.resolve m.spec).IsMeasured) :
    e.discarded r = UInt64.ofNat (min Record.countLimit (e.cut r)) := by
  obtain ⟨rest, node, hstack, hnode, hexit⟩ := exit?_eq_some_iff.1 hexit
  simp only [discarded, cut, hstack, List.head?_cons, Option.bind_some, hnode, Option.elim_some]
  cases hcalled : e.called? r node with
  | none => simp [cutOf, builtin?_eq_none_of_exit hexit hcalled]
  | some answer =>
      obtain ⟨answer, supply⟩ := answer
      have hdropped := dropped_of_call (hmeasured id node hnode) hcalled
      exact hdropped

theorem droppedBySize_of_leaving {id : NodeId} {x : Exit} (h : e.Leaving r s id x) :
    s.report.droppedBySize = r.report.droppedBySize + e.discarded r := by
  obtain ⟨label, hreport⟩ := h.report
  rw [hreport]
  cases x <;> rfl

section Generation

variable {root : Spec} {source : Source} {synthesizer : Synthesizer} {n : Nat}
  (he : e.handlers.registered = []) (hregistry : e.registry.Everywhere Spec.IsMeasured)
  (hroot : root.Everywhere Spec.IsMeasured)
include he hregistry hroot

theorem discarded_of_turns (hr : e.turns n (Run.start root source synthesizer) = some r)
    (hs : e.turns (n + 1) (Run.start root source synthesizer) = some s) :
    e.discarded r = UInt64.ofNat (min Record.countLimit (e.cut r)) ∧
      s.report.droppedBySize = r.report.droppedBySize + e.discarded r := by
  obtain ⟨q, hq, hstack, hturn⟩ := turns_succ_eq_some.1 hs
  rw [hr] at hq
  cases hq
  obtain ⟨id, x, hexit, hx⟩ := exit_of_turn he (orderly_of_turns he hr) hstack hturn
  refine ⟨discarded_eq hexit fun j m hm => ?_, droppedBySize_of_leaving hx⟩
  have hspec := everywhere_of_turns he hr Spec.isMeasured_empty hregistry hroot hm
  exact (hregistry.resolve Spec.isMeasured_empty hspec).self

theorem toNat_discarded (hr : e.turns n (Run.start root source synthesizer) = some r)
    (hs : e.turns (n + 1) (Run.start root source synthesizer) = some s) :
    (e.discarded r).toNat = min Record.countLimit (e.cut r) := by
  rw [(discarded_of_turns he hregistry hroot hr hs).1, UInt64.toNat_ofNat', Nat.mod_eq_of_lt]
  exact Nat.lt_of_le_of_lt (Nat.min_le_left _ _) (by decide)

/-- The report adds the counts up in a word. -/
theorem droppedBySize_of_turns (hr : e.turns n (Run.start root source synthesizer) = some r) :
    r.report.droppedBySize.toNat =
      (e.counts (Run.start root source synthesizer) n).sum % UInt64.size := by
  induction n generalizing r with
  | zero =>
      cases hr
      rfl
  | succ n ih =>
      obtain ⟨q, hq, -⟩ := turns_succ_eq_some.1 hr
      rw [sum_counts_succ hq, (discarded_of_turns he hregistry hroot hq hr).2, UInt64.toNat_add,
        ih hq, toNat_discarded he hregistry hroot hq hr, Nat.mod_add_mod]

/-- The counts fit in a word together just if no addition to the report overflows. -/
theorem sum_counts_lt_iff (hr : e.turns n (Run.start root source synthesizer) = some r) :
    (e.counts (Run.start root source synthesizer) n).sum < UInt64.size ↔
      ∀ m < n, ∀ q, e.turns m (Run.start root source synthesizer) = some q →
        q.report.droppedBySize.toNat + (e.discarded q).toNat < UInt64.size := by
  induction n generalizing r with
  | zero => simp [counts, cuts, UInt64.size]
  | succ n ih =>
      obtain ⟨q, hq, -⟩ := turns_succ_eq_some.1 hr
      have hdropped := droppedBySize_of_turns he hregistry hroot hq
      rw [sum_counts_succ hq, Nat.forall_lt_succ_right, ← ih hq]
      simp only [hq, Option.some.injEq, forall_eq', hdropped,
        toNat_discarded he hregistry hroot hq hr]
      constructor
      · intro h
        rw [Nat.mod_eq_of_lt (by omega)]
        exact ⟨by omega, h⟩
      · rintro ⟨hbefore, h⟩
        rwa [Nat.mod_eq_of_lt hbefore] at h

end Generation

/-- Counts that fit in a word together are those of all that is cut off, up to the limit. -/
theorem sum_map_min_eq {cuts : List Nat}
    (h : (cuts.map (min Record.countLimit)).sum < UInt64.size) :
    (cuts.map (min Record.countLimit)).sum = min Record.countLimit cuts.sum := by
  induction cuts with
  | nil => rfl
  | cons a cuts ih =>
      rw [List.map_cons, List.sum_cons] at h ⊢
      rw [List.sum_cons, ih (by omega)]
      rw [ih (by omega)] at h
      simp only [Record.countLimit] at h ⊢
      omega

/-- What the report of a generation says about the slots that were cut off. -/
structure Dropping (e : Engine) (start : Run) (r : Report) : Prop where
  /-- The count is exact but for the size of a word. -/
  sum : r.droppedBySize.toNat = (e.counts start r.steps).sum % UInt64.size
  /-- Where no addition overflows, all that was cut off is counted, up to the limit. -/
  exact : (e.counts start r.steps).sum < UInt64.size →
    r.droppedBySize.toNat = min Record.countLimit (e.cuts start r.steps).sum
  overflow : (e.counts start r.steps).sum < UInt64.size ↔ ∀ m < r.steps, ∀ q,
    e.turns m start = some q → q.report.droppedBySize.toNat + (e.discarded q).toNat < UInt64.size

end Engine

namespace Generator

/-- Whatever the providers, the description in JSON, the options and the random words
are: the report adds up, in a word, what the composites count as cut off, each of them
up to the limit of a count. -/
theorem dropped_of_generate (providers : Providers) (json : Json) (options : Options)
    (seed : Nat) (source : Source) (synthesizer : Synthesizer) {fuel : Nat} {v : Json}
    {report : Report} {g' : Generator}
    (h : ({ Generator.ofJson providers json options seed with source, synthesizer } :
      Generator).generateWithin fuel = some ((v, report), g')) :
    (Generator.ofJson providers json options seed).engine.Dropping
      (Run.start (Spec.ofJson json) source synthesizer) report := by
  obtain ⟨final, hrun, hfinal⟩ := Option.map_eq_some_iff.1 h
  cases hfinal
  obtain ⟨n, -, hturns, -⟩ := Engine.run_eq_some_iff.1 hrun
  change (Generator.ofJson providers json options seed).engine.turns n
    (Run.start (Spec.ofJson json) source synthesizer) = some final at hturns
  have hmeasured := Spec.isMeasured_ofJson json
  have hregistry := Registry.everywhere_build hmeasured
  have hsteps := Engine.steps_of_turns rfl hturns
  have hsum := Engine.droppedBySize_of_turns rfl hregistry hmeasured hturns
  rw [← hsteps] at hsum
  refine ⟨hsum, fun hfits => ?_, ?_⟩
  · rw [hsum, Nat.mod_eq_of_lt hfits]
    exact Engine.sum_map_min_eq hfits
  · rw [hsteps]
    exact Engine.sum_counts_lt_iff rfl hregistry hmeasured hturns

theorem dropped_sampleJson_generates :
    (({ Generator.ofJson .absent sampleJson { maxSize := some 4 } 0 with
        source := .tape [0, 0x80000000, 0, 0x40000000]
        synthesizer := {} } : Generator).generateWithin 10).map
      (fun r => (r.1.2.steps, r.1.2.droppedBySize)) = some (6, 1) := by
  decide +kernel

/-- With room for one of two digits a slot is cut off, and the report shows it. -/
theorem dropped_sampleJson :
    ∃ v report g', ({ Generator.ofJson .absent sampleJson { maxSize := some 4 } 0 with
        source := .tape [0, 0x80000000, 0, 0x40000000]
        synthesizer := {} } : Generator).generateWithin 10 = some ((v, report), g') ∧
      report.droppedBySize = 1 ∧
      (Generator.ofJson .absent sampleJson { maxSize := some 4 } 0).engine.Dropping
        (Run.start (Spec.ofJson sampleJson) (.tape [0, 0x80000000, 0, 0x40000000]) {})
        report := by
  obtain ⟨⟨⟨v, report⟩, g'⟩, hrun, hcounts⟩ :=
    Option.map_eq_some_iff.1 dropped_sampleJson_generates
  exact ⟨v, report, g', hrun, (Prod.mk.inj hcounts).2,
    dropped_of_generate .absent sampleJson { maxSize := some 4 } 0 _ {} hrun⟩

/-- A list of two records of very many entries each. -/
def crowdedJson : Json :=
  .obj [("max_length", .int 2), ("min_length", .int 2), ("type", .str "array"),
    ("type_elements", .obj [
      ("keys", .arr [.obj [("name", .str "a"), ("repeat", .int 18446744073709551615),
        ("type", .obj [("type", .str "fixed"), ("value", .int 0)])]]),
      ("type", .str "record")])]

theorem crowdedJson_generates :
    (({ Generator.ofJson .absent crowdedJson { maxSize := some 3 } 0 with
        source := .tape [0, 0, 0, 0]
        synthesizer := {} } : Generator).generateWithin 10).map
      (fun r => (r.1.2.steps, r.1.2.droppedBySize.toNat)) = some (4, 18446744073709551614) := by
  decide +kernel

/-- Without room for either of the records, the counts of both are at the limit, and
their sum does not stay there. -/
theorem inexact_crowdedJson :
    ∃ v report g', ({ Generator.ofJson .absent crowdedJson { maxSize := some 3 } 0 with
        source := .tape [0, 0, 0, 0]
        synthesizer := {} } : Generator).generateWithin 10 = some ((v, report), g') ∧
      report.droppedBySize.toNat = 18446744073709551614 ∧
      (Generator.ofJson .absent crowdedJson { maxSize := some 3 } 0).engine.cuts
        (Run.start (Spec.ofJson crowdedJson) (.tape [0, 0, 0, 0]) {}) report.steps =
          [0, 18446744073709551615, 18446744073709551615, 0] ∧
      report.droppedBySize.toNat ≠ min Record.countLimit
        ((Generator.ofJson .absent crowdedJson { maxSize := some 3 } 0).engine.cuts
          (Run.start (Spec.ofJson crowdedJson) (.tape [0, 0, 0, 0]) {}) report.steps).sum := by
  have hcuts : (Generator.ofJson .absent crowdedJson { maxSize := some 3 } 0).engine.cuts
      (Run.start (Spec.ofJson crowdedJson) (.tape [0, 0, 0, 0]) {}) 4 =
        [0, 18446744073709551615, 18446744073709551615, 0] := by
    decide +kernel
  obtain ⟨⟨⟨v, report⟩, g'⟩, hrun, hcounts⟩ := Option.map_eq_some_iff.1 crowdedJson_generates
  obtain ⟨hsteps, hdropped⟩ := Prod.mk.inj hcounts
  dsimp only at hsteps hdropped
  refine ⟨v, report, g', hrun, hdropped, ?_, ?_⟩
  · rw [hsteps, hcuts]
  · rw [hsteps, hcuts, hdropped]
    decide

end Generator

end Specimen
