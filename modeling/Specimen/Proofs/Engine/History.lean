import Mathlib
import Specimen.Proofs.Counter.Scope
import Specimen.Proofs.Engine.Transparency
import Specimen.Proofs.Regex.Memory
/-!
# Values do not depend on what was generated before

Besides its source, a generator keeps the trees of patterns from value to value. Two evaluations
from states that differ in these trees alone have the same outcome and end in such states again:
each step of an evaluation is steady in this sense, and steadiness goes on from step to step. So
what a generator makes next depends on its description, its options and its source, and on no
generation before (`Generator.independent_of_history`).
-/

namespace Specimen

open Specimen.Random Regex

section Steady

variable {σ α β : Type} {E : σ → σ → Prop}

/-- From related states the computation has the same result and ends in related states. -/
def Steady (E : σ → σ → Prop) (x : StateT σ Option α) : Prop :=
  ∀ s t, E s t → Option.Rel (fun a b => b.1 = a.1 ∧ E a.2 b.2) (x s) (x t)

theorem Steady.pure (a : α) : Steady E (Pure.pure a) := fun _ _ h => .some ⟨rfl, h⟩

theorem Steady.bind {x : StateT σ Option α} {f : α → StateT σ Option β} (hx : Steady E x)
    (hf : ∀ a, Steady E (f a)) : Steady E (x >>= f) := by
  intro s t h
  change Option.Rel _ ((x s).bind fun p => f p.1 p.2) ((x t).bind fun p => f p.1 p.2)
  have hst := hx s t h
  generalize x s = p, x t = q at hst ⊢
  cases hst with
  | none => exact .none
  | @some a b hab =>
      obtain ⟨hsame, hafter⟩ := hab
      rw [Option.bind_some, Option.bind_some, hsame]
      exact hf a.1 a.2 b.2 hafter

end Steady

/-! ## Actions -/

/-- The same supplies, with other patterns read. -/
def Supply.Twin (s t : Supply) : Prop := ∃ synthesizer, t = { s with synthesizer }

namespace Action

variable {α β : Type}

theorem steady_draw (d : Draw α) : Steady Supply.Twin (draw d) := by
  rintro s t ⟨synthesizer, rfl⟩
  change Option.Rel _ ((d s.source).map _) ((d s.source).map _)
  cases d s.source with
  | none => exact .none
  | some a => exact .some ⟨rfl, synthesizer, rfl⟩

theorem steady_synthesize (check? : String → Option (String → Bool)) (pattern : String)
    (minLength : Nat) : Steady Supply.Twin (synthesize check? pattern minLength) := by
  rintro s t ⟨synthesizer, rfl⟩
  simp only [synthesize, Synthesizer.synthesize_eq]
  cases parse pattern with
  | error e => exact .some ⟨rfl, synthesizer, rfl⟩
  | ok tree => exact steady_draw _ _ _ ⟨synthesizer.remember pattern, rfl⟩

theorem Plain.steady {a : Action α} (h : Plain a) : Steady Supply.Twin a := by
  induction h with
  | pure a => exact .pure (Except.ok a)
  | throw e => exact .pure (Except.error e)
  | draw d => exact steady_draw d
  | synthesize check? pattern minLength => exact steady_synthesize check? pattern minLength
  | bind _ _ ha hf =>
      refine .bind ha fun result => ?_
      cases result with
      | ok x => exact hf x
      | error e => exact .pure (Except.error e)

end Action

theorem Leaf.steady_enumeration (v : Visit) : Steady Supply.Twin (enumeration v) := by
  rintro s t ⟨synthesizer, rfl⟩
  rw [enumeration_apply, enumeration_apply]
  cases Counter.format _ _ with
  | none => exact .none
  | some answer => exact .some ⟨rfl, synthesizer, rfl⟩

/-! ## Evaluations -/

/-- The same progress, with other patterns read. -/
def Progress.Twin (p q : Progress) : Prop := ∃ synthesizer, q = { p with synthesizer }

namespace Evaluation

variable {α : Type}

theorem steady_count (f : Report → Report) : Steady Progress.Twin (count f) := by
  rintro p q ⟨synthesizer, rfl⟩
  exact .some ⟨rfl, synthesizer, rfl⟩

theorem steady_draw (d : Draw α) : Steady Progress.Twin (draw d) := by
  rintro p q ⟨synthesizer, rfl⟩
  change Option.Rel _ ((d p.source).map _) ((d p.source).map _)
  cases d p.source with
  | none => exact .none
  | some a => exact .some ⟨rfl, synthesizer, rfl⟩

theorem steady_failed : Steady Progress.Twin failed :=
  .bind (steady_count _) fun _ => .pure _

theorem steady_enlist (children : List Child) : Steady Progress.Twin (enlist children) := by
  rintro p q ⟨synthesizer, rfl⟩
  rw [enlist_apply, enlist_apply]
  exact .some ⟨rfl, synthesizer, rfl⟩

theorem steady_leaf (scope : Option ScopeId) {a : Action Json} (ha : Steady Supply.Twin a) :
    Steady Progress.Twin (leaf scope a) := by
  have hact : Steady Progress.Twin (act scope a) := by
    rintro p q ⟨synthesizer, rfl⟩
    let supply : Supply := ⟨p.source, p.synthesizer, scope.bind fun i => p.scopes[i]?, 0⟩
    have hrun := ha supply { supply with synthesizer } ⟨synthesizer, rfl⟩
    change Option.Rel _ ((a supply).map _) ((a { supply with synthesizer }).map _)
    generalize a supply = x, a { supply with synthesizer } = y at hrun ⊢
    cases hrun with
    | none => exact .none
    | @some a b hab =>
        obtain ⟨result, supply⟩ := a
        obtain ⟨result', supply'⟩ := b
        obtain ⟨hsame, trees, hsupply⟩ := hab
        cases hsame
        cases hsupply
        exact .some ⟨rfl, trees, rfl⟩
  refine .bind hact fun result => ?_
  cases result with
  | ok v => exact .pure _
  | error e => exact steady_failed

theorem steady_choice (redirects : Nat) (options : List (ChoiceOption Spec)) :
    Steady Progress.Twin (choice redirects options) := by
  unfold choice
  split
  · exact .pure _
  · refine .bind (steady_draw _) fun roll => ?_
    split
    · exact .pure _
    · split
      · exact steady_failed
      · exact .pure _

theorem steady_record (room : Option Nat) (keys : List (KeyDecl Spec)) :
    Steady Progress.Twin (record room keys) := by
  refine .bind (steady_draw _) fun plan => .bind (steady_count _) fun _ => ?_
  split
  · exact .pure _
  · exact steady_enlist _

theorem steady_array (room : Option Nat) (spec : Spec) :
    Steady Progress.Twin (array room spec) := by
  unfold array
  dsimp only
  split
  · exact .pure _
  · refine .bind (steady_draw _) fun length => .bind (steady_count _) fun _ => ?_
    split
    · exact .pure _
    · exact steady_enlist _

theorem steady_each {child : Spec → Evaluation Outcome}
    (hchild : ∀ s, Steady Progress.Twin (child s)) (children : List Child) :
    Steady Progress.Twin (each child children) := by
  induction children with
  | nil => exact .pure _
  | cons c rest ih =>
      cases c with
      | ready v => exact .bind ih fun _ => .pure _
      | queued s => exact .bind (hchild s) fun _ => .bind ih fun _ => .pure _

end Evaluation

namespace Engine

open Evaluation

theorem steady_answer (e : Engine) (b : Builtin) (spec : Spec) (depth : Nat)
    (scope : Option ScopeId) (redirects : Nat) :
    Steady Progress.Twin (e.answer b spec depth scope redirects) := by
  -- The room is read off the report, which twins share.
  rintro p q ⟨synthesizer, rfl⟩
  have htwin : p.Twin { p with synthesizer } := ⟨synthesizer, rfl⟩
  cases b with
  | fixed => exact steady_leaf scope (Leaf.plain_fixed _).steady _ _ htwin
  | boolean => exact steady_leaf scope (Leaf.plain_boolean _).steady _ _ htwin
  | integer => exact steady_leaf scope (Leaf.plain_integer _).steady _ _ htwin
  | pick => exact steady_leaf scope (Leaf.plain_pick _).steady _ _ htwin
  | distribution => exact steady_leaf scope (Leaf.plain_distribution _).steady _ _ htwin
  | text => exact steady_leaf scope (Leaf.plain_text _).steady _ _ htwin
  | regex => exact steady_leaf scope (Leaf.plain_regex _).steady _ _ htwin
  | enumeration => exact steady_leaf scope (Leaf.steady_enumeration _) _ _ htwin
  | fake => exact steady_leaf scope (Leaf.plain_fake _).steady _ _ htwin
  | record => exact steady_record _ _ _ _ htwin
  | array => exact steady_array _ _ _ _ htwin
  | choice => exact steady_choice _ _ _ _ htwin

theorem steady_respond (e : Engine) (spec : Spec) (depth : Nat) (scope : Option ScopeId)
    (redirects : Nat) : Steady Progress.Twin (e.respond spec depth scope redirects) := by
  refine .bind (steady_count _) fun _ => ?_
  dsimp only
  split
  · exact .bind (steady_count _) fun _ => .pure _
  · split
    · exact .bind (steady_count _) fun _ => .pure _
    · exact .bind (steady_count _) fun _ => e.steady_answer _ _ _ _ _

theorem steady_eval (e : Engine) (fuel : Nat) (spec : Spec) (depth : Nat)
    (scope : Option ScopeId) (redirects : Nat) :
    Steady Progress.Twin (e.eval fuel spec depth scope redirects) := by
  induction fuel generalizing spec depth scope redirects with
  | zero => exact fun _ _ _ => .none
  | succ fuel ih =>
      refine .bind (e.steady_respond spec depth scope redirects) fun response => ?_
      cases response with
      | settled o => exact .pure _
      | again s => exact ih s depth scope (redirects + 1)
      | family inner children =>
          exact .bind (steady_each (fun s => ih s _ _ _) children) fun _ =>
            .bind (steady_count _) fun _ => .pure _

end Engine

/-! ## Generators -/

namespace Generator

/-- The same setup: what two generators work with and never change. -/
structure SameSetup (g h : Generator) : Prop where
  spec : h.spec = g.spec
  options : h.options = g.options
  registry : h.registry = g.registry
  handlers : h.handlers = g.handlers
  providers : h.providers = g.providers

/-- What a generator has become after some generations. -/
inductive Becomes (g : Generator) : Generator → Prop
  | refl : Becomes g g
  | generate {h h' : Generator} {fuel : Nat} {result : Json × Report} :
      Becomes g h → h.generateWithin fuel = some (result, h') → Becomes g h'

variable {g h k : Generator}

theorem SameSetup.symm (hs : g.SameSetup h) : h.SameSetup g :=
  ⟨hs.spec.symm, hs.options.symm, hs.registry.symm, hs.handlers.symm, hs.providers.symm⟩

theorem SameSetup.trans (hs : g.SameSetup h) (ht : h.SameSetup k) : g.SameSetup k where
  spec := ht.spec.trans hs.spec
  options := ht.options.trans hs.options
  registry := ht.registry.trans hs.registry
  handlers := ht.handlers.trans hs.handlers
  providers := ht.providers.trans hs.providers

theorem Becomes.sameSetup (hb : g.Becomes h) : g.SameSetup h := by
  induction hb with
  | refl => exact ⟨rfl, rfl, rfl, rfl, rfl⟩
  | generate _ hrun ih =>
      obtain ⟨final, -, hfinal⟩ := Option.map_eq_some_iff.1 hrun
      cases hfinal
      exact ⟨ih.spec, ih.options, ih.registry, ih.handlers, ih.providers⟩

theorem generateWithin_twin (hg : g.handlers.registered = []) (hsetup : g.SameSetup h)
    (hsource : h.source = g.source) (fuel : Nat) :
    (h.generateWithin fuel).map (fun (result, h') => (result, h'.source)) =
      (g.generateWithin fuel).map fun (result, g') => (result, g'.source) := by
  obtain ⟨spec, options, registry, handlers, providers, source, synthesizer⟩ := h
  obtain ⟨rfl, rfl, rfl, rfl, rfl⟩ := hsetup
  cases hsource
  have heval : ∀ depth, Option.Rel (fun x y => y.1 = x.1 ∧ x.2.Twin y.2) (g.evaluate depth)
      (evaluate depth { g with synthesizer }) :=
    fun depth => g.engine.steady_eval depth g.spec 0 none 0 _ _ ⟨synthesizer, rfl⟩
  have hreport : ∀ {p q : Progress}, p.Twin q → q.report = p.report := by
    rintro p q ⟨synthesizer, rfl⟩
    rfl
  refine map_generateWithin (g := g) (h := { g with synthesizer }) hg hg hreport heval ?_ fuel
  rintro result p q ⟨trees, rfl⟩
  rfl

/-- What was made before leaves no trace. After any calls a synthesizer answers the next one, or
fails at it, as a new synthesizer does, and remembers each pattern called for that has a tree,
and no other. Generators of the same setup make the same value and report from the same source
and leave the same source, whatever each of them has generated before. -/
theorem independent_of_history (check? : String → Option (String → Bool))
    (calls : List (String × Nat)) (pattern : String) (minLength : Nat) {g g' h h' : Generator}
    (hg : g.handlers.registered = []) (hsetup : g.SameSetup g') (hh : g.Becomes h)
    (hh' : g'.Becomes h') (hsource : h'.source = h.source) (fuel : Nat) :
    (((Synthesizer.after check? {} calls).synthesize check? pattern minLength).map Prod.fst =
        (Synthesizer.synthesize check? {} pattern minLength).map Prod.fst ∧
      (Synthesizer.after check? {} (calls ++ [(pattern, minLength)])).patterns.Nodup ∧
      ∀ other, other ∈ (Synthesizer.after check? {} (calls ++ [(pattern, minLength)])).patterns ↔
        other ∈ calls.map Prod.fst ++ [pattern] ∧ ∃ tree, parse other = .ok tree) ∧
    (h'.generateWithin fuel).map (fun (result, k) => (result, k.source)) =
      (h.generateWithin fuel).map fun (result, k) => (result, k.source) := by
  refine ⟨⟨Synthesizer.fst_synthesize _ _ _ _ _, Synthesizer.nodup _, fun other => ?_⟩, ?_⟩
  · rw [Synthesizer.mem_after]
    simp [Synthesizer.patterns]
  · have hafter := (hh.sameSetup.symm.trans hsetup).trans hh'.sameSetup
    have hbuiltin : h.handlers.registered = [] := hh.sameSetup.handlers ▸ hg
    exact generateWithin_twin hbuiltin hafter hsource fuel

/-- The record of `sample` with words for two values. -/
def twiceGenerator : Generator :=
  { sampleGenerator with
    source := .tape [0, 0x80000000, 0, 0x40000000, 0, 0, 0, 0xC0000000] }

theorem twiceGenerator_generates :
    (twiceGenerator.generateWithin 10).map (fun r => (r.1.1, r.2.source.ready)) =
      some (.obj [("digits", .arr [.int 2]), ("on", .bool true)], [0, 0, 0, 0xC0000000]) := by
  cbv

/-- A generator that has made one value goes on like one that has made none but has read a
pattern, if they are at the same word. -/
theorem independent_twiceGenerator :
    ∃ result h, twiceGenerator.generateWithin 10 = some (result, h) ∧
      twiceGenerator.Becomes h ∧
      (∀ other, other ∈ (Synthesizer.after Acceptance.check? {}
          ([("(ab", 0), ("[ab]", 2)] ++ [("[ab]", 1)])).patterns ↔
        other ∈ ["(ab", "[ab]", "[ab]"] ∧ ∃ tree, parse other = .ok tree) ∧
      (generateWithin 10 { twiceGenerator with
          source := h.source
          synthesizer := Synthesizer.remember {} "[ab]" }).map
          (fun (result, k) => (result, k.source)) =
        (h.generateWithin 10).map fun (result, k) => (result, k.source) := by
  obtain ⟨⟨result, h⟩, hrun, -⟩ := Option.map_eq_some_iff.1 twiceGenerator_generates
  have hbecomes : twiceGenerator.Becomes h := .generate .refl hrun
  obtain ⟨⟨-, -, hmem⟩, hsame⟩ := independent_of_history Acceptance.check?
    [("(ab", 0), ("[ab]", 2)] "[ab]" 1 (g := twiceGenerator) rfl
    (⟨rfl, rfl, rfl, rfl, rfl⟩ : twiceGenerator.SameSetup
      { twiceGenerator with
        source := h.source
        synthesizer := Synthesizer.remember {} "[ab]" }) hbecomes .refl rfl 10
  exact ⟨result, h, hrun, hbecomes, hmem, hsame⟩

end Generator

end Specimen
