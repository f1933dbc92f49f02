import Mathlib
import Specimen.Proofs.Engine.Generation
import Specimen.Proofs.Engine.Turns
/-!
# Budgets that do not bind

A budget is seen only by the tests that it fails. If a generation without a size limit
queues no more nodes than a limit allows, or cuts nothing off at a depth, the same
generation under that limit, or under a greater depth, takes the same turns. Both are one
argument: two engines answer every first visit alike as long as a count of the report stays
small, and the count never shrinks.
-/

namespace Specimen

open Specimen.Random Regex

/-- The counts that only ever go up. -/
structure Report.Grows (r r' : Report) : Prop where
  nodesQueued : r.nodesQueued ≤ r'.nodesQueued
  truncatedDepth : r.truncatedDepth ≤ r'.truncatedDepth

namespace Engine

variable {e e' : Engine} {spec : Spec} {depth : Nat} {scope : Option ScopeId} {redirects : Nat}
  {p p' : Progress} {response : Response}

theorem grows_of_answer {b : Builtin}
    (h : e.answer b spec depth scope redirects p = some (response, p')) :
    p.report.Grows p'.report := by
  have hqueued := (queued_of_answer h).1
  exact ⟨by omega, Nat.le_of_eq (counts_of_answer h).2.symm⟩

theorem grows_of_respond
    (h : e.respond spec depth scope redirects p = some (response, p')) :
    p.report.Grows p'.report := by
  obtain ⟨-, -, rfl⟩ | ⟨-, -, -, rfl⟩ | ⟨b, -, -, h⟩ := respond_eq_some h
  · exact ⟨Nat.le_refl _, Nat.le_succ _⟩
  · exact ⟨Nat.le_refl _, Nat.le_refl _⟩
  · have := grows_of_answer h
    exact ⟨this.nodesQueued, this.truncatedDepth⟩

theorem grows_of_turn (he : e.handlers.registered = []) {r s : Run}
    (h : Orderly r.arena.nodes r.stack) (hstack : r.stack ≠ []) (hturn : e.turn r = some s) :
    r.report.Grows s.report := by
  obtain ⟨id, rest, node, -, -, ⟨-, response, p, hrespond, rfl⟩ | ⟨-, rfl⟩⟩ :=
    turn_cases he h hstack hturn
  · have hgrows := grows_of_respond hrespond
    cases response <;> exact hgrows
  · exact ⟨Nat.le_refl _, Nat.le_refl _⟩

/-! ## Engines in step -/

/-- The second engine answers a first visit as the first one does, if the report is still within
what `Slack` allows afterwards. -/
structure KeepsStep (e e' : Engine) (Slack : Report → Prop) : Prop where
  registry : e'.registry = e.registry
  registered : e.handlers.registered = []
  registered' : e'.handlers.registered = []
  slack : ∀ {r r' : Report}, r.Grows r' → Slack r' → Slack r
  respond : ∀ {spec depth scope redirects p response p'},
    e.respond spec depth scope redirects p = some (response, p') → Slack p'.report →
    e'.respond spec depth scope redirects p = some (response, p')

namespace KeepsStep

variable {Slack : Report → Prop} (h : e.KeepsStep e' Slack)
include h

theorem turn {r s : Run} (horder : Orderly r.arena.nodes r.stack) (hstack : r.stack ≠ [])
    (hturn : e.turn r = some s) (hslack : Slack s.report) : e'.turn r = some s := by
  obtain ⟨id, rest, node, hr, hnode, ⟨hstage, response, p, hrespond, rfl⟩ | ⟨hstage, rfl⟩⟩ :=
    turn_cases h.registered horder hstack hturn
  · have hreport : Slack p.report := by cases response <;> exact hslack
    have hnil := horder.children_eq_nil hnode (by simp [hstage])
    rw [Run.eq_ofProgress hr, turn_eq_respond hnode hstage h.registered' hnil,
      h.respond hrespond hreport, h.registry]
    rfl
  · exact assemble_of_turn h.registered' horder hr hnode hstage

theorem turns {root : Spec} {source : Source} {synthesizer : Synthesizer} {n : Nat} {r : Run}
    (hr : e.turns n (Run.start root source synthesizer) = some r) (hslack : Slack r.report) :
    e'.turns n (Run.start root source synthesizer) = some r := by
  induction n generalizing r with
  | zero => exact hr
  | succ n ih =>
      obtain ⟨q, hq, hstack, hturn⟩ := turns_succ_eq_some.1 hr
      have horder := orderly_of_turns h.registered hq
      have hbefore := h.slack (grows_of_turn h.registered horder hstack hturn) hslack
      exact turns_succ_eq_some.2 ⟨q, ih hq hbefore, hstack, h.turn horder hstack hturn hslack⟩

theorem run {root : Spec} {source : Source} {synthesizer : Synthesizer} {fuel : Nat}
    {final : Run} (hrun : e.run fuel (Run.start root source synthesizer) = some final)
    (hslack : Slack final.report) :
    e'.run fuel (Run.start root source synthesizer) = some final := by
  obtain ⟨n, hn, hturns, hstack⟩ := run_eq_some_iff.1 hrun
  exact run_eq_some_iff.2 ⟨n, hn, h.turns hturns hslack, hstack⟩

end KeepsStep

/-! ## A size limit that is not reached -/

theorem answer_of_limit {limit : Nat} {b : Builtin} (hnone : e.maxSize = none)
    (h : e.answer b spec depth scope redirects p = some (response, p'))
    (hlimit : p'.report.nodesQueued ≤ limit) :
    { e with maxSize := some limit }.answer b spec depth scope redirects p =
      some (response, p') := by
  have hqueued := (queued_of_answer h).1
  have hroom : e.room p.report = none := by rw [room, hnone, Option.map_none]
  cases b with
  | record =>
      change Evaluation.record (e.room p.report) spec.keys p = _ at h
      change Evaluation.record (some (limit - p.report.nodesQueued)) spec.keys p = _
      rw [hroom] at h
      obtain ⟨plan, source, hplan, hrest⟩ := Evaluation.record_eq_some h
      have hfits : Record.slots plan.entries ≤ limit - p.report.nodesQueued := by
        obtain ⟨hempty, -, -⟩ | ⟨-, rfl, -⟩ := hrest
        · rw [hempty]
          exact Nat.zero_le _
        · rw [← Record.queuedCount_children]
          simp only [Response.queued] at hqueued
          omega
      have hwithin := Record.plan_within rfl hplan hfits
      rw [Evaluation.record_apply]
      simp only [Record.Plan.within, Record.slots_nil, Nat.sub_zero] at hwithin
      rw [hwithin, Option.bind_some]
      obtain ⟨hempty, rfl, rfl⟩ | ⟨hne, rfl, rfl⟩ := hrest
      · simp [hempty]
      · simp [hne, Record.Plan.children]
  | array =>
      change Evaluation.array (e.room p.report) spec p = _ at h
      change Evaluation.array (some (limit - p.report.nodesQueued)) spec p = _
      rw [hroom] at h
      obtain ⟨hlt, rfl, rfl⟩ | ⟨length, source, kept, hle, hkept, hdraw, hrest⟩ :=
        Evaluation.array_eq_some h
      · exact Evaluation.array_of_inverted _ _ hlt
      · have hlength : kept = length.toNat := hkept
        have hfits : length.toNat ≤ limit - p.report.nodesQueued := by
          obtain ⟨hzero, -, -⟩ | ⟨-, rfl, -⟩ := hrest
          · omega
          · rw [Response.queued, queuedCount_replicate] at hqueued
            omega
        have hadmitted : Sequence.admitted (some (limit - p.report.nodesQueued)) length.toNat =
            kept := by
          rw [hlength]
          exact Nat.min_eq_right hfits
        rw [Evaluation.array_of_ordered _ _ (Int.not_lt.2 hle), hdraw, Option.bind_some]
        dsimp only
        rw [hadmitted]
        obtain ⟨hzero, rfl, rfl⟩ | ⟨hne, rfl, rfl⟩ := hrest
        · exact if_pos hzero
        · rw [if_neg hne, Evaluation.enlist_apply, queuedCount_replicate]
  | _ => exact h

theorem keepsStep_of_limit {limit : Nat} (he : e.handlers.registered = [])
    (hnone : e.maxSize = none) :
    e.KeepsStep { e with maxSize := some limit } fun r => r.nodesQueued ≤ limit where
  registry := rfl
  registered := he
  registered' := he
  slack h hr := Nat.le_trans h.nodesQueued hr
  respond := by
    intro spec depth scope redirects p response p' h hlimit
    obtain ⟨hdeep, rfl, rfl⟩ | ⟨hdeep, hkind, rfl, rfl⟩ | ⟨b, hdeep, hkind, h⟩ :=
      respond_eq_some h
    · exact respond_of_deep _ _ _ hdeep
    · exact respond_of_unknown _ _ _ hdeep hkind
    · have hbuiltin :=
        respond_of_builtin (e := { e with maxSize := some limit }) scope redirects p
        hdeep hkind
      exact hbuiltin.trans (answer_of_limit hnone h hlimit)

/-! ## A depth that is not reached -/

theorem keepsStep_of_depth {maxDepth : Nat} (he : e.handlers.registered = [])
    (hle : e.maxDepth ≤ maxDepth) :
    e.KeepsStep { e with maxDepth } fun r => r.truncatedDepth = 0 where
  registry := rfl
  registered := he
  registered' := he
  slack h hr := Nat.le_zero.1 (hr ▸ h.truncatedDepth)
  respond := by
    intro spec depth scope redirects p response p' h hnone
    -- What is not too deep for the smaller limit is not too deep for the greater one.
    have hdeeper : ¬ e.IsTooDeep (e.registry.resolve spec) depth →
        ¬ { e with maxDepth }.IsTooDeep (e.registry.resolve spec) depth := by
      simp only [IsTooDeep]
      cases (e.registry.resolve spec).maxDepth with
      | none =>
          simp only [Option.getD_none]
          omega
      | some own => exact id
    obtain ⟨hdeep, rfl, rfl⟩ | ⟨hdeep, hkind, rfl, rfl⟩ | ⟨b, hdeep, hkind, h⟩ :=
      respond_eq_some h
    · exact absurd hnone (Nat.succ_ne_zero _)
    · exact respond_of_unknown _ _ _ (hdeeper hdeep) hkind
    · exact (respond_of_builtin _ _ _ (hdeeper hdeep) hkind).trans h

end Engine

namespace Generator

/-- The generator with another size budget. -/
def withMaxSize (g : Generator) (n : Option Nat) : Generator :=
  { g with options := { g.options with maxSize := n } }

/-- The generator with another depth budget. -/
def withMaxDepth (g : Generator) (n : Nat) : Generator :=
  { g with options := { g.options with maxDepth := n } }

theorem generateWithin_eq_some {g g' : Generator} {fuel : Nat} {v : Json} {report : Report} :
    g.generateWithin fuel = some ((v, report), g') ↔
      ∃ final, g.engine.run fuel (Run.start g.spec g.source g.synthesizer) = some final ∧
        v = final.value ∧ report = final.report ∧
        g' = { g with source := final.source, synthesizer := final.synthesizer } := by
  rw [generateWithin, Option.map_eq_some_iff]
  refine exists_congr fun final => and_congr_right fun _ => ?_
  simp only [Prod.mk.injEq]
  constructor
  · rintro ⟨⟨rfl, rfl⟩, rfl⟩
    exact ⟨rfl, rfl, rfl⟩
  · rintro ⟨rfl, rfl, rfl⟩
    exact ⟨⟨rfl, rfl⟩, rfl⟩

/-- A budget that does not bind is invisible: with a size limit that the generation without one
keeps to, and with a greater depth where nothing was cut off, the value, the report and what the
generator goes on with are the same. -/
theorem generateWithin_of_slack {g : Generator} (hg : g.handlers.registered = []) (fuel : Nat)
    (v : Json) (report : Report) (g' : Generator) :
    ((g.withMaxSize none).generateWithin fuel = some ((v, report), g') →
      ∀ limit, report.nodesQueued ≤ limit →
        (g.withMaxSize (some limit)).generateWithin fuel =
          some ((v, report), g'.withMaxSize (some limit))) ∧
    (g.generateWithin fuel = some ((v, report), g') → report.truncatedDepth = 0 →
      ∀ maxDepth, g.options.maxDepth ≤ maxDepth →
        (g.withMaxDepth maxDepth).generateWithin fuel =
          some ((v, report), g'.withMaxDepth maxDepth)) := by
  constructor
  · intro h limit hlimit
    obtain ⟨final, hrun, rfl, rfl, rfl⟩ := generateWithin_eq_some.1 h
    have hkeeps : (g.withMaxSize none).engine.KeepsStep (g.withMaxSize (some limit)).engine _ :=
      Engine.keepsStep_of_limit hg rfl
    exact generateWithin_eq_some.2 ⟨final, hkeeps.run hrun hlimit, rfl, rfl, rfl⟩
  · intro h hnone maxDepth hle
    obtain ⟨final, hrun, rfl, rfl, rfl⟩ := generateWithin_eq_some.1 h
    have hkeeps : g.engine.KeepsStep (g.withMaxDepth maxDepth).engine _ :=
      Engine.keepsStep_of_depth hg hle
    exact generateWithin_eq_some.2 ⟨final, hkeeps.run hrun hnone, rfl, rfl, rfl⟩

/-- The record of `sample` with words for both digits, without a size limit. Its nodes lie at the
depths zero, one and two. -/
def roomyGenerator : Generator :=
  { sampleGenerator with
    options := { maxDepth := 3 }
    source := .tape [0, 0x80000000, 0, 0x40000000, 0, 0xC0000000] }

theorem roomyGenerator_generates :
    (roomyGenerator.generateWithin 10).map
        (fun r => (r.1.1, r.1.2.nodesQueued, r.1.2.truncatedDepth)) =
      some (.obj [("digits", .arr [.int 2, .int 7]), ("on", .bool true)], 5, 0) := by
  cbv

/-- Five slots and a depth of three are just enough for the record. -/
theorem generateWithin_roomyGenerator :
    roomyGenerator.handlers.registered = [] ∧ ∃ v report g',
      roomyGenerator.generateWithin 10 = some ((v, report), g') ∧
      v = .obj [("digits", .arr [.int 2, .int 7]), ("on", .bool true)] ∧
      report.nodesQueued = 5 ∧ report.truncatedDepth = 0 ∧
      (roomyGenerator.withMaxSize (some 5)).generateWithin 10 =
        some ((v, report), g'.withMaxSize (some 5)) ∧
      (roomyGenerator.withMaxDepth 4).generateWithin 10 =
        some ((v, report), g'.withMaxDepth 4) := by
  obtain ⟨⟨⟨v, report⟩, g'⟩, hrun, hcounts⟩ := Option.map_eq_some_iff.1 roomyGenerator_generates
  simp only [Prod.mk.injEq] at hcounts
  obtain ⟨hv, hqueued, hdepth⟩ := hcounts
  obtain ⟨hsize, hdeeper⟩ := generateWithin_of_slack (g := roomyGenerator) rfl 10 v report g'
  exact ⟨rfl, v, report, g', hrun, hv, hqueued, hdepth, hsize hrun 5 (Nat.le_of_eq hqueued),
    hdeeper hrun hdepth 4 (by decide)⟩

end Generator

end Specimen
