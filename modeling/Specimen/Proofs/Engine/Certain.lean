import Mathlib
import Specimen.Proofs.Engine.Transparency
import Specimen.Proofs.Record.Fields
import Specimen.Proofs.Record.Plan
/-!
# Evaluations that leave nothing to chance

A record whose entries are always present draws nothing, and without a size limit it drops
nothing. What it comes to depends on its children alone: `Engine.eval_record` puts it
together from what they come to, and a `Quiet` progress says how many nodes all of it
takes. Where a whole description is evaluated like that, `Generator.exists_report_of_quiet`
gives the value and the report.
-/

namespace Specimen

open Specimen.Random Regex

/-- So many nodes are queued, visited and cut off from one progress to another, and nothing
else is counted or used up. -/
structure Progress.Quiet (queued steps cut : Nat) (p q : Progress) : Prop where
  source : q.source = p.source
  synthesizer : q.synthesizer = p.synthesizer
  nodesQueued : q.report.nodesQueued = p.report.nodesQueued + queued
  steps : q.report.steps = p.report.steps + steps
  truncatedDepth : q.report.truncatedDepth = p.report.truncatedDepth + cut
  droppedBySize : q.report.droppedBySize = p.report.droppedBySize
  handlerFailures : q.report.handlerFailures = p.report.handlerFailures
  unknownHandlers : q.report.unknownHandlers = p.report.unknownHandlers

namespace Progress.Quiet

variable {p q r : Progress} {queued steps cut queued' steps' cut' : Nat}

theorem refl (p : Progress) : Quiet 0 0 0 p p := ⟨rfl, rfl, rfl, rfl, rfl, rfl, rfl, rfl⟩

theorem trans (h : Quiet queued steps cut p q) (h' : Quiet queued' steps' cut' q r) :
    Quiet (queued + queued') (steps + steps') (cut + cut') p r where
  source := h'.source.trans h.source
  synthesizer := h'.synthesizer.trans h.synthesizer
  nodesQueued := by
    rw [h'.nodesQueued, h.nodesQueued]
    omega
  steps := by
    rw [h'.steps, h.steps]
    omega
  truncatedDepth := by
    rw [h'.truncatedDepth, h.truncatedDepth]
    omega
  droppedBySize := h'.droppedBySize.trans h.droppedBySize
  handlerFailures := h'.handlerFailures.trans h.handlerFailures
  unknownHandlers := h'.unknownHandlers.trans h.unknownHandlers

/-- An action that draws and drops nothing. -/
theorem after {supply : Supply} (hsource : supply.source = p.source)
    (hsynthesizer : supply.synthesizer = p.synthesizer) (hdropped : supply.dropped = 0)
    (scope : Option ScopeId) : Quiet 0 0 0 p (p.after scope supply) where
  source := hsource
  synthesizer := hsynthesizer
  nodesQueued := rfl
  steps := rfl
  truncatedDepth := rfl
  droppedBySize := by
    show p.report.droppedBySize + supply.dropped = p.report.droppedBySize
    rw [hdropped, UInt64.add_zero]
  handlerFailures := rfl
  unknownHandlers := rfl

end Progress.Quiet

/-- No handler failed or was missing, and nothing was dropped. -/
structure Report.IsClean (r : Report) : Prop where
  droppedBySize : r.droppedBySize = 0
  handlerFailures : r.handlerFailures = 0
  unknownHandlers : r.unknownHandlers = 0

/-- The children of all entries that some declarations may have. -/
def Record.allChildren (keys : List (KeyDecl Spec)) : List Child :=
  (Record.occurrences keys).flatMap fun k => (Record.entryOf k).children

namespace Evaluation

theorem record_of_always {keys : List (KeyDecl Spec)} (hchance : ∀ k ∈ keys, k.chance = .always)
    (p : Progress) :
    record none keys p =
      if Record.occurrences keys = [] then some (.done (.obj []), p)
      else enlist (Record.allChildren keys) p := by
  have hplan := Record.plan_of_always (p := { room := none }) (s := p.source) rfl rfl hchance
  rw [List.append_nil] at hplan
  have hchildren : ∀ plan : Record.Plan,
      plan.entries = ((Record.occurrences keys).map Record.entryOf).reverse →
      plan.children = Record.allChildren keys := by
    intro plan h
    rw [Record.Plan.children, h, List.reverse_reverse, List.flatMap_map]
    rfl
  have hempty : (((Record.occurrences keys).map Record.entryOf).reverse.isEmpty = true) ↔
      Record.occurrences keys = [] := by
    rw [List.isEmpty_iff, List.reverse_eq_nil_iff, List.map_eq_nil_iff]
  rw [record_apply, hplan, Option.bind_some]
  have hnothing : UInt64.ofNat 0 = 0 := rfl
  simp only [Option.getD_none, hnothing, Report.countDropped_zero, hempty]
  rw [hchildren _ rfl]

section Each

variable {child : Spec → Evaluation Outcome} {rest : List Child} {os : List Outcome}
  {p q r : Progress}

theorem each_ready (v : Json) (hrest : each child rest p = some (os, q)) :
    each child (.ready v :: rest) p = some (⟨.done, v⟩ :: os, q) :=
  bind_eq_some.2 ⟨_, _, hrest, rfl⟩

theorem each_queued {s : Spec} {o : Outcome} (h : child s p = some (o, q))
    (hrest : each child rest q = some (os, r)) :
    each child (.queued s :: rest) p = some (o :: os, r) :=
  bind_eq_some.2 ⟨_, _, h, bind_eq_some.2 ⟨_, _, hrest, rfl⟩⟩

end Each

/-- The children of declarations with written-out names and one description for all values, which
comes to the same outcome each time. -/
theorem exists_each (child : Spec → Evaluation Outcome) {s : Spec} {o : Outcome}
    {queued steps cut : Nat}
    (h : ∀ p, ∃ q, child s p = some (o, q) ∧ p.Quiet queued steps cut q) (names : List String)
    (p : Progress) :
    ∃ q, each child (names.flatMap fun name => [.ready (.str name), .queued s]) p =
        some (names.flatMap fun name => [⟨.done, .str name⟩, o], q) ∧
      p.Quiet (names.length * queued) (names.length * steps) (names.length * cut) q := by
  induction names generalizing p with
  | nil =>
      simp only [List.length_nil, Nat.zero_mul]
      exact ⟨p, rfl, .refl p⟩
  | cons name names ih =>
      obtain ⟨q, hq, hquiet⟩ := h p
      obtain ⟨r, hr, hrest⟩ := ih q
      refine ⟨r, each_ready _ (each_queued hq hr), ?_⟩
      have hall := hquiet.trans hrest
      simp only [List.length_cons, Nat.succ_mul, Nat.add_comm _ queued, Nat.add_comm _ steps,
        Nat.add_comm _ cut]
      exact hall

end Evaluation

namespace Engine

variable {e : Engine} {spec : Spec} {depth : Nat} {scope : Option ScopeId} {redirects fuel : Nat}
  {p q r : Progress}

theorem eval_of_settled {o : Outcome} (fuel : Nat)
    (h : e.respond spec depth scope redirects p = some (.settled o, q)) :
    e.eval (fuel + 1) spec depth scope redirects p = some (o, q) :=
  Evaluation.bind_eq_some.2 ⟨_, _, h, rfl⟩

theorem eval_of_family {inner : ScopeId} {children : List Child} {outcomes : List Outcome}
    (h : e.respond spec depth scope redirects p = some (.family inner children, q))
    (heach : Evaluation.each (fun s => e.eval fuel s (depth + 1) (some inner) 0) children q =
      some (outcomes, r)) :
    e.eval (fuel + 1) spec depth scope redirects p =
      some (⟨.done, assemble (e.registry.resolve spec) outcomes⟩,
        { r with report := r.report.countStep }) :=
  Evaluation.bind_eq_some.2 ⟨_, _, h, Evaluation.bind_eq_some.2 ⟨_, _, heach, rfl⟩⟩

theorem eval_of_deep (fuel : Nat) (h : e.IsTooDeep (e.registry.resolve spec) depth)
    (scope : Option ScopeId) (redirects : Nat) (p : Progress) :
    ∃ q, e.eval (fuel + 1) spec depth scope redirects p = some (⟨.truncated, .null⟩, q) ∧
      p.Quiet 0 1 1 q :=
  ⟨_, eval_of_settled fuel (respond_of_deep scope redirects p h),
    ⟨rfl, rfl, rfl, rfl, rfl, rfl, rfl, rfl⟩⟩

section Record

variable {record : Spec} (hresolve : e.registry.resolve spec = record) (hsize : e.maxSize = none)
  (hdeep : ¬ e.IsTooDeep record depth) (hkind : Builtin.ofSpec? record = some .record)
  (hchance : ∀ k ∈ record.keys, k.chance = .always)
include hresolve hsize hdeep hkind hchance

theorem respond_record (scope : Option ScopeId) (redirects : Nat) (p : Progress) :
    e.respond spec depth scope redirects p =
      let p := { p with
        report := p.report.countStep.countUsage (HandlerKey.ofSpec record).label }
      if Record.occurrences record.keys = [] then some (.done (.obj []), p)
      else Evaluation.enlist (Record.allChildren record.keys) p := by
  subst hresolve
  have hroom : ∀ report, e.room report = none := fun report => by
    rw [room, hsize, Option.map_none]
  rw [respond_of_builtin scope redirects p hdeep hkind, answer]
  dsimp only [firstVisit]
  rw [hroom]
  exact Evaluation.record_of_always hchance _

theorem eval_record_of_nil (fuel : Nat) (hkeys : Record.occurrences record.keys = [])
    (scope : Option ScopeId) (redirects : Nat) (p : Progress) :
    ∃ q, e.eval (fuel + 1) spec depth scope redirects p = some (⟨.done, .obj []⟩, q) ∧
      p.Quiet 0 1 0 q := by
  have hrespond := respond_record hresolve hsize hdeep hkind hchance scope redirects p
  rw [if_pos hkeys] at hrespond
  exact ⟨_, eval_of_settled fuel hrespond, ⟨rfl, rfl, rfl, rfl, rfl, rfl, rfl, rfl⟩⟩

/-- A record with entries comes to what its children give it, which count in a fresh scope. -/
theorem eval_record {outcomes : List Outcome} {queued steps cut : Nat}
    (hkeys : Record.occurrences record.keys ≠ []) (scope : Option ScopeId) (redirects : Nat)
    {p : Progress}
    (heach : ∀ q, q.scopes = p.scopes.push {} → ∃ r,
      Evaluation.each (fun s => e.eval fuel s (depth + 1) (some p.scopes.size) 0)
        (Record.allChildren record.keys) q = some (outcomes, r) ∧ q.Quiet queued steps cut r) :
    ∃ r, e.eval (fuel + 1) spec depth scope redirects p =
        some (⟨.done, Json.ofFields (Record.assemble outcomes)⟩, r) ∧
      p.Quiet (queuedCount (Record.allChildren record.keys) + queued) (steps + 2) cut r := by
  have hfirst : ∃ q, e.respond spec depth scope redirects p =
        some (.family p.scopes.size (Record.allChildren record.keys), q) ∧
      q.scopes = p.scopes.push {} ∧
      p.Quiet (queuedCount (Record.allChildren record.keys)) 1 0 q := by
    have hrespond := respond_record hresolve hsize hdeep hkind hchance scope redirects p
    rw [if_neg hkeys, Evaluation.enlist_apply] at hrespond
    exact ⟨_, hrespond, rfl, ⟨rfl, rfl, rfl, rfl, rfl, rfl, rfl, rfl⟩⟩
  obtain ⟨q, hq, hscopes, hquiet⟩ := hfirst
  obtain ⟨r, hr, hchildren⟩ := heach q hscopes
  have heval := eval_of_family hq hr
  have hassemble : assemble (e.registry.resolve spec) outcomes =
      Json.ofFields (Record.assemble outcomes) := by
    rw [assemble, hresolve, hkind]
  rw [hassemble] at heval
  have hlast : r.Quiet 0 1 0 { r with report := r.report.countStep } :=
    ⟨rfl, rfl, rfl, rfl, rfl, rfl, rfl, rfl⟩
  have hall := (hquiet.trans hchildren).trans hlast
  have hsteps : 1 + steps + 1 = steps + 2 := by omega
  rw [hsteps, Nat.zero_add] at hall
  exact ⟨_, heval, hall⟩

end Record

end Engine

namespace Generator

variable {g : Generator}

/-- What a description is evaluated to without draws is what the generator returns, given time
for the visits that are counted, and it stays as it is. -/
theorem exists_report_of_quiet (hg : g.handlers.registered = []) {depth : Nat} {o : Outcome}
    {q : Progress} {queued steps cut : Nat} (heval : g.evaluate depth = some (o, q))
    (hquiet : g.progress.Quiet queued steps cut q) :
    ∃ report : Report, report.nodesQueued = 1 + queued ∧ report.steps = steps ∧
      report.truncatedDepth = cut ∧ report.IsClean ∧
      ∀ fuel, steps ≤ fuel → g.generateWithin fuel = some ((o.value, report), g) := by
  have hsteps : q.report.steps = steps := hquiet.steps.trans (Nat.zero_add steps)
  have hcut : q.report.truncatedDepth = cut := hquiet.truncatedDepth.trans (Nat.zero_add cut)
  have hclean : q.report.IsClean :=
    ⟨hquiet.droppedBySize, hquiet.handlerFailures, hquiet.unknownHandlers⟩
  refine ⟨q.report, hquiet.nodesQueued, hsteps, hcut, hclean, fun fuel hfuel => ?_⟩
  have hafter : g.after q = g := by
    rw [after, hquiet.source, hquiet.synthesizer]
    rfl
  have hgenerate := (generateWithin_iff hg).2
    ⟨depth, o, q, heval, hsteps.trans_le hfuel, rfl, rfl, rfl⟩
  rwa [hafter] at hgenerate

end Generator

end Specimen
