import Mathlib
import Specimen.Proofs.Engine.Refinement
/-!
# What a generator returns

`Generator.generates_iff` reads a generation as one recursive evaluation of the
description, from the sources of the generator and an empty report to the value, the
report and the sources after it.
-/

namespace Specimen

open Specimen.Random Regex

namespace Generator

/-- What a generation starts from; the root is queued already. -/
def progress (g : Generator) : Progress where
  source := g.source
  synthesizer := g.synthesizer
  scopes := #[]
  report := { nodesQueued := 1 }

def after (g : Generator) (p : Progress) : Generator :=
  { g with source := p.source, synthesizer := p.synthesizer }

/-- The outcome of the description at depth zero, outside every scope. -/
def evaluate (fuel : Nat) (g : Generator) : Option (Outcome × Progress) :=
  g.engine.eval fuel g.spec 0 none 0 g.progress

theorem start_eq_ofProgress (g : Generator) :
    Run.start g.spec g.source g.synthesizer =
      .ofProgress g.progress #[{ spec := g.spec, depth := 0, scope := none }] [0] := rfl

theorem evaluate_of_run {g : Generator} (hg : g.handlers.registered = []) {fuel : Nat}
    {final : Run}
    (h : g.engine.run fuel (Run.start g.spec g.source g.synthesizer) = some final) :
    ∃ o p, g.evaluate fuel = some (o, p) ∧ final.value = o.value ∧ final.progress = p := by
  rw [start_eq_ofProgress] at h
  obtain ⟨o, p, nodes, m, -, heval, hmade, hrun⟩ :=
    Engine.eval_of_run hg (Nat.le_refl fuel) rfl rfl rfl h
  refine ⟨o, p, heval, ?_⟩
  cases m <;>
  · cases hrun
    exact ⟨congrArg Outcome.value hmade.outcome, rfl⟩

theorem run_of_evaluate {g : Generator} (hg : g.handlers.registered = []) {fuel : Nat}
    {o : Outcome} {p : Progress} (h : g.evaluate fuel = some (o, p)) :
    ∃ n final, g.engine.run n (Run.start g.spec g.source g.synthesizer) = some final ∧
      final.value = o.value ∧ final.progress = p := by
  have hroot : (#[{ spec := g.spec, depth := 0, scope := none }] : Array Node)[0]? =
      some { spec := g.spec, depth := 0, scope := none } := rfl
  obtain ⟨n, nodes, hmade, hrun⟩ := Engine.run_of_eval (e := g.engine) hg hroot rfl rfl h
  exact ⟨n, _, (hrun [] 0).trans rfl, congrArg Outcome.value hmade.outcome, rfl⟩

/-- With the built-in handlers alone, a generation returns a value, a report and a generator just
if the recursive evaluation of the description does, and they are the same. -/
theorem generates_iff {g : Generator} (hg : g.handlers.registered = []) (v : Json)
    (report : Report) (g' : Generator) :
    (∃ fuel, g.generateWithin fuel = some ((v, report), g')) ↔
      ∃ fuel o p, g.evaluate fuel = some (o, p) ∧
        v = o.value ∧ report = p.report ∧ g' = g.after p := by
  constructor
  · rintro ⟨fuel, h⟩
    obtain ⟨final, hrun, h⟩ := Option.map_eq_some_iff.1 h
    cases h
    obtain ⟨o, p, heval, hvalue, rfl⟩ := evaluate_of_run hg hrun
    exact ⟨fuel, o, _, heval, hvalue, rfl, rfl⟩
  · rintro ⟨fuel, o, p, heval, rfl, rfl, rfl⟩
    obtain ⟨n, final, hrun, hvalue, rfl⟩ := run_of_evaluate hg heval
    refine ⟨n, Option.map_eq_some_iff.2 ⟨final, hrun, ?_⟩⟩
    rw [hvalue]
    rfl

/-- A record of a list of digits and a truth value. -/
def sample : Spec where
  kind := some "record"
  keys :=
    [⟨.fixed "digits", {
        kind := some "array"
        typeElements := some { kind := some "integer" }
        minLength := some 1
        maxLength := some 3 }, 1, .always⟩,
      ⟨.fixed "on", { kind := some "fixed", value := some (.bool true) }, 1, .always⟩]

/-- A generator of `sample` that may queue four nodes, so that one of the two digits drawn is cut
off. -/
def sampleGenerator : Generator where
  spec := sample
  options := { maxSize := some 4 }
  registry := Registry.build sample
  handlers := {}
  providers := .absent
  source := .tape [0, 0x80000000, 0, 0x40000000]
  synthesizer := {}

theorem sampleGenerator_generates :
    (sampleGenerator.generateWithin 10).map (·.1.1) =
      some (.obj [("digits", .arr [.int 2]), ("on", .bool true)]) := by
  cbv

theorem evaluate_sampleGenerator :
    sampleGenerator.handlers.registered = [] ∧
      ∃ fuel o p, sampleGenerator.evaluate fuel = some (o, p) ∧
        o.value = .obj [("digits", .arr [.int 2]), ("on", .bool true)] := by
  obtain ⟨⟨⟨v, report⟩, g'⟩, hrun, hvalue⟩ := Option.map_eq_some_iff.1 sampleGenerator_generates
  obtain ⟨fuel, o, p, heval, rfl, -, -⟩ := (generates_iff rfl v report g').1 ⟨10, hrun⟩
  exact ⟨rfl, fuel, o, p, heval, hvalue⟩

end Generator

end Specimen
