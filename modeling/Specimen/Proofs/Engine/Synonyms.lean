import Mathlib
import Specimen.Proofs.Engine.Transparency
/-!
# Kinds with two names

Three kinds have a second name. A description in which kinds are written with their other name,
in whatever places, makes the same values from the same words: a kind is read only where the key
of a handler is made from it, and the key has the kind's own name. One replacement is a
bisimulation, and replacements one after the other give equal evaluations.
-/

namespace Specimen

open Specimen.Random Regex

/-- Two names of one kind. -/
inductive Synonym : String → String → Prop
  | integer : Synonym "number" "integer"
  | fixed : Synonym "constant" "fixed"
  | boolean : Synonym "boolean" "bool"
  | symm {kind kind' : String} : Synonym kind kind' → Synonym kind' kind

theorem Synonym.canonicalKind_eq {kind kind' : String} (h : Synonym kind kind') :
    canonicalKind kind' = canonicalKind kind := by
  induction h with
  | integer | fixed | boolean => rfl
  | symm _ ih => exact ih.symm

namespace Spec

/-- The description with another name of its kind. -/
def withKind (s : Spec) (kind : String) : Spec := { s with kind := some kind }

theorem alike_withKind {R : Spec → Spec → Prop} (hR : ∀ t, R t t) {s : Spec}
    {kind kind' : String} (hkind : s.kind = some kind) (h : Synonym kind kind') :
    Alike R s (s.withKind kind') := by
  refine { Alike.refl hR s with handlerKey := ?_ }
  have hcanonical : some (canonicalKind kind') = s.kind.map canonicalKind := by
    rw [hkind, Option.map_some, h.canonicalKind_eq]
  exact congrArg (HandlerKey.mk · s.method) hcanonical

/-- Descriptions that differ in the names of kinds: in one place after the other, the kind of
what stands there is written with its other name. -/
inductive Renamed : Spec → Spec → Prop
  | refl (s : Spec) : Renamed s s
  | step {s t u : Spec} {path : List Step} {kind kind' : String} :
      Renamed s t → t.at? path = some u → u.kind = some kind → Synonym kind kind' →
      Renamed s (t.replaceAt path (u.withKind kind'))

/-- The same description, or the one with the kind of `hole` in another name in some place. -/
inductive Respelled (hole : Spec) (kind : String) : Spec → Spec → Prop
  | same (s : Spec) : Respelled hole kind s s
  | there {s : Spec} {path : List Step} :
      s.at? path = some hole → Respelled hole kind s (s.replaceAt path (hole.withKind kind))

namespace Respelled

variable {hole s s' : Spec} {kind kind' : String}

theorem loadRef (h : Respelled hole kind s s') : s'.loadRef = s.loadRef := by
  cases h with
  | same => rfl
  | @there path hat =>
      cases path with
      | nil =>
          cases hat
          rfl
      | cons step path => rw [replaceAt, loadRef_modifyChild]

theorem alike (hkind : hole.kind = some kind) (hsynonym : Synonym kind kind')
    (h : Respelled hole kind' s s') : Alike (Respelled hole kind') s s' := by
  cases h with
  | same => exact .refl .same s
  | @there path hat =>
      cases path with
      | nil =>
          cases hat
          exact alike_withKind .same hkind hsynonym
      | cons step path =>
          refine .modifyChild .same fun c hc => .there ?_
          rwa [at?, hc] at hat

/-- What stands in the place keeps its name and everything inside it. -/
theorem bindings_withKind (hole : Spec) (kind : String) :
    Table.Rel (Respelled hole kind) hole.bindings (hole.withKind kind).bindings := by
  have hroot : hole.at? [] = some hole := rfl
  have hown : Respelled hole kind hole (hole.withKind kind) := .there hroot
  rw [bindings_eq hole, bindings_eq (hole.withKind kind)]
  refine List.rel_append ?_ (Table.Rel.refl .same _)
  change Table.Rel _ (hole.storeRef.map (·, hole)).toList
    (hole.storeRef.map (·, hole.withKind kind)).toList
  cases hole.storeRef with
  | none => exact .nil
  | some name => exact .cons ⟨rfl, hown⟩ .nil

end Respelled

end Spec

section Replacement

variable {root hole : Spec} {path : List Spec.Step} {kind kind' : String}

theorem Registry.entries_withKind (h : root.at? path = some hole) (kind : String) :
    Table.Rel (Spec.Respelled hole kind) (Registry.build root).entries
      (Registry.build (root.replaceAt path (hole.withKind kind))).entries := by
  rw [Spec.entries_build, Spec.entries_build]
  exact (Spec.bindings_replaceAt_rel .same .there (Spec.Respelled.bindings_withKind hole kind)
    h).ofList

theorem Engine.bisimulation_withKind {e e' : Engine} (h : root.at? path = some hole)
    (hkind : hole.kind = some kind) (hsynonym : Synonym kind kind')
    (hregistry : e.registry = Registry.build root)
    (hregistry' : e'.registry = Registry.build (root.replaceAt path (hole.withKind kind')))
    (hproviders : e'.providers = e.providers) (hdepth : e'.maxDepth = e.maxDepth)
    (hsize : e'.maxSize = e.maxSize) : Bisimulation (Spec.Respelled hole kind') e e' where
  providers := hproviders
  maxDepth := hdepth
  maxSize := hsize
  empty := .same _
  resolve := by
    intro s s' hs
    have hresolved := Registry.resolve_rel (.same _) (fun h => h.loadRef)
      (Registry.entries_withKind h kind') hs
    rw [hregistry, hregistry']
    exact hresolved.alike hkind hsynonym

end Replacement

/-- The names are those of the descriptions that store themselves, whatever their kinds. -/
theorem Registry.names_of_renamed {s s' : Spec} (h : s.Renamed s') :
    (Registry.build s').names = (Registry.build s).names := by
  induction h with
  | refl => rfl
  | @step t u path kind kind' _ hat _ _ ih =>
      have hentries := Registry.entries_withKind hat kind'
      have hnames : List.Forall₂ Eq ((Registry.build t).entries.map (·.1))
          ((Registry.build (t.replaceAt path (u.withKind kind'))).entries.map (·.1)) :=
        List.rel_map (fun _ _ hentry => hentry.1.symm) hentries
      rw [List.forall₂_eq_eq_eq] at hnames
      exact hnames.symm.trans ih

namespace Generator

theorem evaluate_of_renamed (g : Generator) {s s' : Spec} (h : s.Renamed s') (fuel : Nat) :
    (g.withSpec s').evaluate fuel = (g.withSpec s).evaluate fuel := by
  induction h with
  | refl => rfl
  | @step t u path kind kind' _ hat hkind hsynonym ih =>
      have hbisimulation : Engine.Bisimulation _ (g.withSpec t).engine
          (g.withSpec (t.replaceAt path (u.withKind kind'))).engine :=
        Engine.bisimulation_withKind hat hkind hsynonym rfl rfl rfl rfl rfl
      have heval := hbisimulation.eval_eq fuel (.there hat) 0 none 0
      exact (congrFun heval g.progress).trans ih

/-- The names of kinds are transparent: where kinds are written with their other names, the names
of references, the value, the report with the labels of the handlers and the sources afterwards
are the same, after as many visits. -/
theorem generateWithin_of_renamed {g : Generator} (hg : g.handlers.registered = []) {s s' : Spec}
    (h : s.Renamed s') (fuel : Nat) :
    (Registry.build s').names = (Registry.build s).names ∧
      (g.withSpec s').generateWithin fuel =
        ((g.withSpec s).generateWithin fuel).map fun (result, g') =>
          (result, g'.withSpec s') := by
  refine ⟨Registry.names_of_renamed h, ?_⟩
  have heval : ∀ depth, Option.Rel (fun x y => y.1 = x.1 ∧ x.2 = y.2)
      ((g.withSpec s).evaluate depth) ((g.withSpec s').evaluate depth) := by
    intro depth
    rw [g.evaluate_of_renamed h]
    cases (g.withSpec s).evaluate depth with
    | none => exact .none
    | some x => exact .some ⟨rfl, rfl⟩
  have hsame : ∀ (result : Json × Report) (p q : Progress), p = q →
      id (result, (g.withSpec s').after q) = (result, ((g.withSpec s).after p).withSpec s') := by
    rintro result p q rfl
    rfl
  have hmap := map_generateWithin (g := g.withSpec s) (h := g.withSpec s') hg hg
    (fun hpq => congrArg Progress.report hpq.symm) heval
    (f := fun (result, g') => (result, g'.withSpec s')) hsame fuel
  rwa [Option.map_id] at hmap

/-- The record of `sample` with both kinds that have a second name written with it. -/
def respelled : Spec where
  kind := some "record"
  keys :=
    [⟨.fixed "digits", {
        kind := some "array"
        typeElements := some { kind := some "number" }
        minLength := some 1
        maxLength := some 3 }, 1, .always⟩,
      ⟨.fixed "on", { kind := some "constant", value := some (.bool true) }, 1, .always⟩]

theorem renamed_sample : sample.Renamed respelled := by
  have hdigits : sample.Renamed (sample.replaceAt [.value 0, .element]
      (Spec.withKind { kind := some "integer" } "number")) :=
    .step (.refl _) rfl rfl (.symm .integer)
  have hon : (sample.replaceAt [.value 0, .element]
      (Spec.withKind { kind := some "integer" } "number")).at? [.value 1] =
        some { kind := some "fixed", value := some (.bool true) } := rfl
  exact .step hdigits hon rfl (.symm .fixed)

theorem generateWithin_respelled :
    sampleGenerator.handlers.registered = [] ∧ sample.Renamed respelled ∧
      (Registry.build respelled).names = (Registry.build sample).names ∧
      ((sampleGenerator.withSpec respelled).generateWithin 10).map (·.1.1) =
        some (.obj [("digits", .arr [.int 2]), ("on", .bool true)]) := by
  obtain ⟨hnames, hsame⟩ :=
    generateWithin_of_renamed (g := sampleGenerator) rfl renamed_sample 10
  refine ⟨rfl, renamed_sample, hnames, ?_⟩
  rw [hsame, Option.map_map]
  exact sampleGenerator_generates

end Generator

end Specimen
