import Mathlib
import Specimen.Proofs.Engine.Agenda
import Specimen.Proofs.Engine.Bisimulation
import Specimen.Proofs.Engine.Generation
import Specimen.Proofs.Spec.Graft
/-!
# References are transparent

A description that does nothing but load a name may be replaced by a copy of what the name
leads to (`Generator.generateWithin_inlineAt`). The copy stores nothing, since it would take
the name away from the original otherwise. Every entry of the registry that has the
reference inside changes with it; so the two generations walk different graphs of
descriptions, which a bisimulation relates.
-/

namespace Specimen

open Specimen.Random Regex

namespace Spec

/-- A description that does nothing but load a name. -/
def reference (name : String) : Spec := { loadRef := some name }

/-- The description with a copy of what a name leads to in a place. -/
def inlineAt (s : Spec) (path : List Step) (name : String) : Spec :=
  s.replaceAt path ((Registry.build s).resolve (reference name)).withoutStores

end Spec

section Graft

variable {root : Spec} {path : List Spec.Step} {name : String}

theorem Registry.entries_inlineAt (h : root.at? path = some (.reference name)) :
    Table.Rel (Spec.Unfolds (.reference name)
        ((Registry.build root).resolve (.reference name)).withoutStores)
      (Registry.build root).entries (Registry.build (root.inlineAt path name)).entries := by
  rw [Spec.entries_build, Spec.entries_build]
  exact (Spec.bindings_replaceAt rfl (Spec.bindings_withoutStores _) h).ofList

/-- The replacement is a bisimulation: what the descriptions of the two sides resolve to differs
inside at most. -/
theorem Engine.bisimulation_inlineAt {e e' : Engine} (h : root.at? path = some (.reference name))
    (hregistry : e.registry = Registry.build root)
    (hregistry' : e'.registry = Registry.build (root.inlineAt path name))
    (hproviders : e'.providers = e.providers) (hdepth : e'.maxDepth = e.maxDepth)
    (hsize : e'.maxSize = e.maxSize) :
    Bisimulation (Spec.Grafted (.reference name)
      ((Registry.build root).resolve (.reference name)).withoutStores) e e' where
  providers := hproviders
  maxDepth := hdepth
  maxSize := hsize
  empty := .refl _
  resolve := by
    intro s s' hs
    rw [hregistry, hregistry']
    cases hs with
    | here =>
        -- The copy is not resolved any further, as it loads nothing.
        have hcopy : ((Registry.build root).resolve (.reference name)).withoutStores.loadRef =
            none := (Spec.loadRef_withoutStores _).trans (Registry.loadRef_resolve _ _)
        rw [Registry.resolve_of_none hcopy]
        exact Spec.Unfolds.alike (.copy _)
    | unfolds hs =>
        exact (Registry.resolve_rel (.same _) (fun h => h.loadRef) (Registry.entries_inlineAt h)
          hs).alike

end Graft

namespace Generator

/-- The generator of another description, from the same sources and with the same options. -/
def withSpec (g : Generator) (spec : Spec) : Generator :=
  { g with spec, registry := Registry.build spec }

/-- A generation within a number of visits returns what the recursive evaluation does, if this
counts no more visits. -/
theorem generateWithin_iff {g : Generator} (hg : g.handlers.registered = []) {fuel : Nat}
    {v : Json} {report : Report} {g' : Generator} :
    g.generateWithin fuel = some ((v, report), g') ↔
      ∃ depth o p, g.evaluate depth = some (o, p) ∧ p.report.steps ≤ fuel ∧
        v = o.value ∧ report = p.report ∧ g' = g.after p := by
  constructor
  · intro h
    obtain ⟨final, hrun, h⟩ := Option.map_eq_some_iff.1 h
    cases h
    obtain ⟨o, p, heval, hvalue, rfl⟩ := evaluate_of_run hg hrun
    obtain ⟨n, hn, hturns, -⟩ := Engine.run_eq_some_iff.1 hrun
    exact ⟨fuel, o, _, heval, (Engine.steps_of_turns hg hturns).trans_le hn, hvalue, rfl, rfl⟩
  · rintro ⟨depth, o, p, heval, hsteps, rfl, rfl, rfl⟩
    obtain ⟨n, final, hrun, hvalue, rfl⟩ := run_of_evaluate hg heval
    obtain ⟨m, -, hturns, hstack⟩ := Engine.run_eq_some_iff.1 hrun
    have hm : m ≤ fuel := (Engine.steps_of_turns hg hturns).symm.trans_le hsteps
    refine Option.map_eq_some_iff.2 ⟨final, Engine.run_eq_some_iff.2 ⟨m, hm, hturns, hstack⟩, ?_⟩
    rw [hvalue]
    rfl

/-- Two generators whose evaluations come to the same outcome return the same value and report,
and what they go on with is related as the evaluations leave it. -/
theorem generateWithin_rel {g h : Generator} (hg : g.handlers.registered = [])
    (hh : h.handlers.registered = []) {E : Progress → Progress → Prop}
    (hreport : ∀ {p q}, E p q → q.report = p.report)
    (heval : ∀ depth, Option.Rel (fun x y => y.1 = x.1 ∧ E x.2 y.2) (g.evaluate depth)
      (h.evaluate depth)) (fuel : Nat) :
    Option.Rel (fun x y => y.1 = x.1 ∧ ∃ p q, E p q ∧ x.2 = g.after p ∧ y.2 = h.after q)
      (g.generateWithin fuel) (h.generateWithin fuel) := by
  cases hx : g.generateWithin fuel with
  | some x =>
      obtain ⟨⟨v, report⟩, g'⟩ := x
      obtain ⟨depth, o, p, hp, hsteps, rfl, rfl, rfl⟩ := (generateWithin_iff hg).1 hx
      have hrel := heval depth
      rw [hp] at hrel
      generalize hq : h.evaluate depth = y at hrel
      cases hrel with
      | @some _ b hpq =>
          obtain ⟨o', q⟩ := b
          obtain ⟨hvalue, hpq⟩ := hpq
          cases hvalue
          have hy : h.generateWithin fuel = some ((o.value, q.report), h.after q) :=
            (generateWithin_iff hh).2
              ⟨depth, o, q, hq, (hreport hpq).symm ▸ hsteps, rfl, rfl, rfl⟩
          rw [hy]
          exact .some ⟨by rw [hreport hpq], p, q, hpq, rfl, rfl⟩
  | none =>
      cases hy : h.generateWithin fuel with
      | none => exact .none
      | some y =>
          obtain ⟨⟨v, report⟩, h'⟩ := y
          obtain ⟨depth, o, q, hq, hsteps, rfl, rfl, rfl⟩ := (generateWithin_iff hh).1 hy
          have hrel := heval depth
          rw [hq] at hrel
          generalize hp : g.evaluate depth = x at hrel
          cases hrel with
          | @some a _ hpq =>
              obtain ⟨o', p⟩ := a
              have hsome := (generateWithin_iff hg).2
                ⟨depth, o', p, hp, hreport hpq.2 ▸ hsteps, rfl, rfl, rfl⟩
              rw [hx] at hsome
              cases hsome

/-- What is read off two such generations is the same, if it is so for the values and reports
they share and what they go on with. -/
theorem map_generateWithin {g h : Generator} (hg : g.handlers.registered = [])
    (hh : h.handlers.registered = []) {E : Progress → Progress → Prop}
    (hreport : ∀ {p q}, E p q → q.report = p.report)
    (heval : ∀ depth, Option.Rel (fun x y => y.1 = x.1 ∧ E x.2 y.2) (g.evaluate depth)
      (h.evaluate depth)) {α : Type} {f k : (Json × Report) × Generator → α}
    (hsame : ∀ result p q, E p q → k (result, h.after q) = f (result, g.after p)) (fuel : Nat) :
    (h.generateWithin fuel).map k = (g.generateWithin fuel).map f := by
  have hrel := generateWithin_rel hg hh hreport heval fuel
  generalize g.generateWithin fuel = x, h.generateWithin fuel = y at hrel ⊢
  cases hrel with
  | none => rfl
  | @some a b hab =>
      obtain ⟨result, g'⟩ := a
      obtain ⟨result', h'⟩ := b
      obtain ⟨hresult, p, q, hpq, rfl, rfl⟩ := hab
      cases hresult
      exact congrArg some (hsame result p q hpq)

section

variable (g : Generator) {root : Spec} {path : List Spec.Step} {name : String}

theorem evaluate_inlineAt (h : root.at? path = some (.reference name)) (fuel : Nat) :
    (g.withSpec (root.inlineAt path name)).evaluate fuel = (g.withSpec root).evaluate fuel := by
  have hbisimulation : Engine.Bisimulation _ (g.withSpec root).engine
      (g.withSpec (root.inlineAt path name)).engine :=
    Engine.bisimulation_inlineAt h rfl rfl rfl rfl rfl
  have heval := hbisimulation.eval_eq fuel (Spec.grafted_replaceAt h) 0 none 0
  exact congrFun heval g.progress

/-- In the place of a reference, a copy of what it resolves to that stores nothing leaves the
value, the report and the sources after the generation as they are, and makes as many visits. -/
theorem generateWithin_inlineAt (hg : g.handlers.registered = [])
    (h : root.at? path = some (.reference name)) (fuel : Nat) :
    (g.withSpec (root.inlineAt path name)).generateWithin fuel =
      ((g.withSpec root).generateWithin fuel).map fun (result, g') =>
        (result, g'.withSpec (root.inlineAt path name)) := by
  have hroot : (g.withSpec root).handlers.registered = [] := hg
  have hinline : (g.withSpec (root.inlineAt path name)).handlers.registered = [] := hg
  ext ⟨⟨v, report⟩, g'⟩
  simp only [Option.map_eq_some_iff]
  constructor
  · intro hrun
    obtain ⟨depth, o, p, heval, hsteps, rfl, rfl, rfl⟩ := (generateWithin_iff hinline).1 hrun
    rw [g.evaluate_inlineAt h] at heval
    exact ⟨_, (generateWithin_iff hroot).2 ⟨depth, o, p, heval, hsteps, rfl, rfl, rfl⟩, rfl⟩
  · rintro ⟨⟨⟨v', report'⟩, g''⟩, hrun, hsame⟩
    obtain ⟨depth, o, p, heval, hsteps, rfl, rfl, rfl⟩ := (generateWithin_iff hroot).1 hrun
    cases hsame
    rw [← g.evaluate_inlineAt h] at heval
    exact (generateWithin_iff hinline).2 ⟨depth, o, p, heval, hsteps, rfl, rfl, rfl⟩

end

/-- A digit and more of the same: the description lies inside what its reference leads to. -/
def chain : Spec where
  kind := some "record"
  storeRef := some "chain"
  keys :=
    [⟨.fixed "digit", { kind := some "integer" }, 1, .always⟩,
      ⟨.fixed "rest", .reference "chain", 1, .always⟩]

def chainGenerator : Generator :=
  { sampleGenerator with
    options := { maxDepth := 3 }
    source := .tape [0, 0x80000000, 0, 0x40000000] }

theorem chainGenerator_generates :
    ((chainGenerator.withSpec chain).generateWithin 20).map (·.1.1) =
      some (.obj [("digit", .int 5),
        ("rest", .obj [("digit", .int 2), ("rest", .obj [])])]) := by
  cbv

theorem generateWithin_inlineAt_chain :
    chainGenerator.handlers.registered = [] ∧
      chain.at? [.value 1] = some (.reference "chain") ∧
      ((chainGenerator.withSpec (chain.inlineAt [.value 1] "chain")).generateWithin 20).map
          (·.1.1) =
        some (.obj
          [("digit", .int 5), ("rest", .obj [("digit", .int 2), ("rest", .obj [])])]) := by
  have hplace : chain.at? [.value 1] = some (.reference "chain") := rfl
  refine ⟨rfl, hplace, ?_⟩
  rw [generateWithin_inlineAt chainGenerator rfl hplace, Option.map_map]
  exact chainGenerator_generates

end Generator

end Specimen
