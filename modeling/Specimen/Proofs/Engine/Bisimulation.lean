import Specimen.Proofs.Engine.Evaluator
import Specimen.Proofs.Spec.Alike
/-!
# Engines that take the same steps

A relation between descriptions is a bisimulation of two engines if related descriptions resolve
to alike ones, related again inside. Then the engines give related descriptions the same first
responses, up to the relation, from the same progress; so the evaluations are equal, however deep
they go (`Engine.Bisimulation.eval_eq`).
-/

namespace Specimen

open Specimen.Random Regex

section InStep

variable {σ α β γ δ : Type}

/-- Two computations that go through the same states, with related results. -/
def InStep (R : α → β → Prop) (x : StateT σ Option α) (y : StateT σ Option β) : Prop :=
  ∀ s, Option.Rel (fun a b => R a.1 b.1 ∧ b.2 = a.2) (x s) (y s)

namespace InStep

variable {R : α → β → Prop} {Q : γ → δ → Prop}

theorem pure {a : α} {b : β} (h : R a b) :
    InStep R (Pure.pure a : StateT σ Option α) (Pure.pure b) :=
  fun _ => .some ⟨h, rfl⟩

theorem bind {x : StateT σ Option α} {y : StateT σ Option β} {f : α → StateT σ Option γ}
    {g : β → StateT σ Option δ} (hxy : InStep R x y)
    (hfg : ∀ a b, R a b → InStep Q (f a) (g b)) :
    InStep Q (x >>= f) (y >>= g) := by
  intro s
  change Option.Rel _ ((x s).bind fun p => f p.1 p.2) ((y s).bind fun p => g p.1 p.2)
  have hs := hxy s
  generalize x s = p, y s = q at hs ⊢
  cases hs with
  | none => exact .none
  | some h =>
      obtain ⟨hab, hsame⟩ := h
      rw [Option.bind_some, Option.bind_some, hsame]
      exact hfg _ _ hab _

theorem refl (x : StateT σ Option α) : InStep (· = ·) x x := by
  intro s
  cases x s with
  | none => exact .none
  | some p => exact .some ⟨rfl, rfl⟩

/-- The same computation may come first. -/
theorem after (x : StateT σ Option α) {f : α → StateT σ Option γ} {g : α → StateT σ Option δ}
    (hfg : ∀ a, InStep Q (f a) (g a)) : InStep Q (x >>= f) (x >>= g) :=
  .bind (.refl x) fun a _ hab => hab ▸ hfg a

theorem eq {x y : StateT σ Option α} (h : InStep (· = ·) x y) : y = x := by
  funext s
  have hs := h s
  generalize x s = p, y s = q at hs ⊢
  cases hs with
  | none => rfl
  | some h => exact congrArg some (Prod.ext h.1.symm h.2)

end InStep

end InStep

variable {R : Spec → Spec → Prop}

/-! ## Plans of records -/

structure Record.Entry.Rel (R : Spec → Spec → Prop) (entry entry' : Record.Entry) : Prop where
  name : KeyName.Rel R entry.name entry'.name
  value : R entry.value entry'.value

structure Record.Plan.Rel (R : Spec → Spec → Prop) (p p' : Record.Plan) : Prop where
  entries : List.Forall₂ (Record.Entry.Rel R) p.entries p'.entries
  room : p'.room = p.room
  cut : p'.cut = p.cut

inductive Child.Rel (R : Spec → Spec → Prop) : Child → Child → Prop
  | ready (v : Json) : Rel R (.ready v) (.ready v)
  | queued {s s' : Spec} : R s s' → Rel R (.queued s) (.queued s')

theorem queuedCount_eq_of_rel {children children' : List Child}
    (h : List.Forall₂ (Child.Rel R) children children') :
    queuedCount children' = queuedCount children := by
  induction h with
  | nil => rfl
  | cons hc _ ih => cases hc <;> simp [ih]

namespace Record

theorem needs_eq_of_rel {keys keys' : List (KeyDecl Spec)}
    (h : List.Forall₂ (KeyDecl.Rel R) keys keys') : needs keys' = needs keys := by
  induction h with
  | nil => rfl
  | cons hk _ ih =>
      simp only [needs, List.foldr_cons] at ih ⊢
      rw [hk.times, hk.need, ih]

namespace Plan.Rel

variable {p p' : Plan} (h : Plan.Rel R p p')
include h

theorem hasName (name : String) : p'.hasName name = p.hasName name := by
  have hentries := h.entries
  rw [Plan.hasName, Plan.hasName]
  generalize p.entries = entries, p'.entries = entries' at hentries
  induction hentries with
  | nil => rfl
  | @cons entry entry' _ _ hentry _ ih =>
      rw [List.any_cons, List.any_cons, ih]
      obtain ⟨n, value⟩ := entry
      obtain ⟨n', value'⟩ := entry'
      cases hentry.name <;> rfl

theorem keep {k k' : KeyDecl Spec} (hk : KeyDecl.Rel R k k') :
    Plan.Rel R (p.keep k) (p'.keep k') where
  entries := .cons ⟨hk.name, hk.value⟩ h.entries
  room := by simp only [Plan.keep, h.room, hk.need]
  cut := h.cut

theorem children : List.Forall₂ (Child.Rel R) p.children p'.children := by
  refine List.rel_flatMap (List.rel_reverse h.entries) fun entry entry' hentry => ?_
  obtain ⟨n, value⟩ := entry
  obtain ⟨n', value'⟩ := entry'
  cases hentry.name with
  | fixed text => exact .cons (.ready _) (.cons (.queued hentry.value) .nil)
  | generated hs => exact .cons (.queued hs) (.cons (.queued hentry.value) .nil)

theorem fits (need : Nat) : p'.fits need = p.fits need := by rw [Plan.fits, Plan.fits, h.room]

theorem isPresent (c : Chance) : Record.isPresent p' c = Record.isPresent p c := by
  cases c <;> simp only [Record.isPresent, h.hasName]

theorem isEmpty_entries : p'.entries.isEmpty = p.entries.isEmpty := by
  have hentries := h.entries
  generalize p.entries = entries, p'.entries = entries' at hentries
  cases hentries <;> rfl

end Plan.Rel

theorem planKey_inStep (later : Nat) {k k' : KeyDecl Spec} (hk : KeyDecl.Rel R k k') (left : Nat)
    {p p' : Plan} (hp : Plan.Rel R p p') :
    InStep (Plan.Rel R) (planKey later k left p) (planKey later k' left p') := by
  induction left generalizing p p' with
  | zero => exact .pure hp
  | succ left ih =>
      rw [planKey, planKey, hk.chance, hp.isPresent]
      refine .after _ fun present => ?_
      cases present with
      | false => exact ih hp
      | true =>
          rw [if_pos rfl, if_pos rfl, hp.fits, hk.need]
          split
          · exact ih (hp.keep hk)
          · exact .pure ⟨hp.entries, hp.room, rfl⟩

theorem plan_inStep {keys keys' : List (KeyDecl Spec)}
    (h : List.Forall₂ (KeyDecl.Rel R) keys keys') {p p' : Plan} (hp : Plan.Rel R p p') :
    InStep (Plan.Rel R) (plan keys p) (plan keys' p') := by
  induction h generalizing p p' with
  | nil => exact .pure hp
  | cons hk hrest ih =>
      rw [plan, plan, needs_eq_of_rel hrest, hk.times]
      refine .bind (planKey_inStep _ hk _ hp) fun q q' hq => ?_
      rw [hq.cut]
      split
      · exact .pure hq
      · exact ih hq

end Record

/-! ## First responses -/

inductive Response.Rel (R : Spec → Spec → Prop) : Response → Response → Prop
  | settled (o : Outcome) : Rel R (.settled o) (.settled o)
  | again {s s' : Spec} : R s s' → Rel R (.again s) (.again s')
  | family (scope : ScopeId) {children children' : List Child} :
      List.Forall₂ (Child.Rel R) children children' →
      Rel R (.family scope children) (.family scope children')

namespace Evaluation

theorem draw_inStep {α β : Type} {Q : α → β → Prop} {d : Draw α} {d' : Draw β}
    (h : InStep Q d d') : InStep Q (draw d) (draw d') := by
  intro p
  have hp := h p.source
  simp only [draw]
  generalize d p.source = x, d' p.source = y at hp ⊢
  cases hp with
  | none => exact .none
  | some hab => exact .some ⟨hab.1, congrArg (fun source => { p with source }) hab.2⟩

theorem failed_inStep : InStep (Response.Rel R) failed failed :=
  fun _ => .some ⟨.settled _, rfl⟩

theorem enlist_inStep {children children' : List Child}
    (h : List.Forall₂ (Child.Rel R) children children') :
    InStep (Response.Rel R) (enlist children) (enlist children') := by
  intro p
  rw [enlist_apply, enlist_apply, queuedCount_eq_of_rel h]
  exact .some ⟨.family _ h, rfl⟩

theorem leaf_inStep (scope : Option ScopeId) (a : Action Json) :
    InStep (Response.Rel R) (leaf scope a) (leaf scope a) := by
  refine .after _ fun result => ?_
  cases result with
  | ok v => exact .pure (.settled _)
  | error _ => exact failed_inStep

theorem record_inStep (room : Option Nat) {keys keys' : List (KeyDecl Spec)}
    (h : List.Forall₂ (KeyDecl.Rel R) keys keys') :
    InStep (Response.Rel R) (record room keys) (record room keys') := by
  refine .bind (draw_inStep (Record.plan_inStep h ⟨.nil, rfl, rfl⟩)) fun plan plan' hplan => ?_
  rw [hplan.cut]
  refine .after _ fun _ => ?_
  rw [hplan.isEmpty_entries]
  split
  · exact .pure (.settled _)
  · exact enlist_inStep hplan.children

theorem select_rel {options options' : List (ChoiceOption Spec)}
    (h : List.Forall₂ (ChoiceOption.Rel R) options options') (share roll : Float) :
    Option.Rel R (Choice.select share roll options) (Choice.select share roll options') := by
  induction h generalizing roll with
  | nil => exact .none
  | cons ho _ ih =>
      simp only [Choice.select, ho.chance]
      split
      · exact .some ho.spec
      · exact ih _

theorem choice_inStep (redirects : Nat) {options options' : List (ChoiceOption Spec)}
    (h : List.Forall₂ (ChoiceOption.Rel R) options options') :
    InStep (Response.Rel R) (choice redirects options) (choice redirects options') := by
  have hlength := h.length_eq
  have hselect := select_rel h
  cases h with
  | nil => exact .pure (.settled _)
  | @cons o o' rest rest' ho hrest =>
      refine .after _ fun roll => ?_
      rw [← hlength]
      have hroll := hselect (100.0 / (o :: rest).length.toFloat) roll
      generalize Choice.select _ roll (o :: rest) = x, Choice.select _ roll (o' :: rest') = y
        at hroll ⊢
      cases hroll with
      | none => exact .pure (.settled _)
      | some hs =>
          dsimp only
          split
          · exact failed_inStep
          · exact .pure (.again hs)

theorem array_inStep (room : Option Nat) (hempty : R .empty .empty) {spec spec' : Spec}
    (h : spec.Alike R spec') : InStep (Response.Rel R) (array room spec) (array room spec') := by
  have hbounds : Sequence.bounds spec' = Sequence.bounds spec := by
    simp only [Sequence.bounds, h.minLength, h.maxLength]
  have helement : R (spec.typeElements.getD .empty) (spec'.typeElements.getD .empty) := by
    have helements := h.typeElements
    generalize spec.typeElements = o, spec'.typeElements = o' at helements
    cases helements with
    | none => exact hempty
    | some ht => exact ht
  simp only [array, hbounds]
  split
  · exact .pure (.settled _)
  · refine .after _ fun length => ?_
    refine .after _ fun _ => ?_
    split
    · exact .pure (.settled _)
    · refine enlist_inStep ?_
      generalize Sequence.admitted room length.toNat = kept
      induction kept with
      | zero => exact .nil
      | succ kept ih => exact .cons (.queued helement) ih

theorem each_eq_of_rel {child child' : Spec → Evaluation Outcome}
    (hchild : ∀ s s', R s s' → child' s' = child s) {children children' : List Child}
    (h : List.Forall₂ (Child.Rel R) children children') :
    each child' children' = each child children := by
  induction h with
  | nil => rfl
  | cons hc _ ih =>
      cases hc with
      | ready v => rw [each, each, ih]
      | queued hs => rw [each, each, hchild _ _ hs, ih]

end Evaluation

namespace Spec.Alike

variable {s s' : Spec} (h : s.Alike R s')
include h

theorem builtin : Builtin.ofSpec? s' = Builtin.ofSpec? s := by
  rw [Builtin.ofSpec?, Builtin.ofSpec?, h.handlerKey]

theorem assemble : assemble s' = assemble s := by
  funext outcomes
  rw [Specimen.assemble, Specimen.assemble, h.builtin]

end Spec.Alike

namespace Engine

open Evaluation

structure Bisimulation (R : Spec → Spec → Prop) (e e' : Engine) : Prop where
  providers : e'.providers = e.providers
  maxDepth : e'.maxDepth = e.maxDepth
  maxSize : e'.maxSize = e.maxSize
  empty : R .empty .empty
  resolve : ∀ {s s'}, R s s' → (e.registry.resolve s).Alike R (e'.registry.resolve s')

namespace Bisimulation

variable {e e' : Engine} (h : Bisimulation R e e')
include h

theorem answer (b : Builtin) {spec spec' : Spec} (hspec : spec.Alike R spec') (depth : Nat)
    (scope : Option ScopeId) (redirects : Nat) :
    InStep (Response.Rel R) (e.answer b spec depth scope redirects)
      (e'.answer b spec' depth scope redirects) := by
  intro p
  have hroom : e'.room p.report = e.room p.report := by rw [room, room, h.maxSize]
  have hleaf := fun a => leaf_inStep (R := R) scope a p
  cases b with
  | record => simpa only [Engine.answer, firstVisit, hroom] using record_inStep _ hspec.keys p
  | array => simpa only [Engine.answer, firstVisit, hroom] using array_inStep _ h.empty hspec p
  | choice => exact choice_inStep redirects hspec.options p
  | fixed | boolean | integer | pick | distribution | text | regex | enumeration | fake =>
      -- These read nothing but fields that are the same.
      simpa only [Engine.answer, firstVisit, Leaf.fixed, Leaf.boolean, Leaf.integer, Leaf.pick,
        Leaf.distribution, Leaf.text, Leaf.regex, Leaf.enumeration, Leaf.fake, Leaf.parameters,
        Leaf.call, hspec.parameters, hspec.value, hspec.pattern, h.providers] using hleaf _

theorem respond {spec spec' : Spec} (hspec : R spec spec') (depth : Nat)
    (scope : Option ScopeId) (redirects : Nat) :
    InStep (Response.Rel R) (e.respond spec depth scope redirects)
      (e'.respond spec' depth scope redirects) := by
  have halike := h.resolve hspec
  have hdeep : e'.IsTooDeep (e'.registry.resolve spec') depth ↔
      e.IsTooDeep (e.registry.resolve spec) depth := by
    rw [IsTooDeep, IsTooDeep, halike.maxDepth, h.maxDepth]
  refine .after _ fun _ => ?_
  dsimp only
  by_cases hcut : e.IsTooDeep (e.registry.resolve spec) depth
  · rw [if_pos hcut, if_pos (hdeep.2 hcut)]
    exact .after _ fun _ => .pure (.settled _)
  · rw [if_neg hcut, if_neg fun hcut' => hcut (hdeep.1 hcut'), halike.builtin, halike.handlerKey]
    cases Builtin.ofSpec? (e.registry.resolve spec) with
    | none => exact .after _ fun _ => .pure (.settled _)
    | some b => exact .after _ fun _ => h.answer b halike depth scope redirects

theorem eval_eq (fuel : Nat) {spec spec' : Spec} (hspec : R spec spec') (depth : Nat)
    (scope : Option ScopeId) (redirects : Nat) :
    e'.eval fuel spec' depth scope redirects = e.eval fuel spec depth scope redirects := by
  induction fuel generalizing spec spec' depth scope redirects with
  | zero => rfl
  | succ fuel ih =>
      have hrespond := h.respond hspec depth scope redirects
      refine InStep.eq (.bind hrespond fun response response' hr => ?_)
      cases hr with
      | settled o => exact .refl _
      | again hs =>
          dsimp only
          rw [ih hs]
          exact .refl _
      | family inner hchildren =>
          have hchild : ∀ s s', R s s' → e'.eval fuel s' (depth + 1) (some inner) 0 =
              e.eval fuel s (depth + 1) (some inner) 0 := fun _ _ hs => ih hs _ _ _
          have heach := each_eq_of_rel hchild hchildren
          dsimp only
          rw [heach, (h.resolve hspec).assemble]
          exact .refl _

end Bisimulation

end Engine

end Specimen
