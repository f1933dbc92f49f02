import Specimen.Proofs.Spec.Alike
/-!
# Putting a description in the place of another

A place inside a description is a path of steps, each to a child. `Spec.replaceAt` puts a
description in a place, and `Spec.withoutStores` makes a copy that stores no name. If neither
what stood in the place nor what comes there stores a name, all names stay, and what is stored
under them is the same up to the replacement (`Spec.bindings_replaceAt`).
-/

namespace Specimen

section Map

variable {σ τ : Type} (f : σ → τ)

def KeyName.map : KeyName σ → KeyName τ
  | .fixed text => .fixed text
  | .generated s => .generated (f s)

def KeyDecl.map (k : KeyDecl σ) : KeyDecl τ := ⟨k.name.map f, f k.value, k.times, k.chance⟩

def ChoiceOption.map (o : ChoiceOption σ) : ChoiceOption τ := ⟨o.chance, f o.spec⟩

end Map

namespace Spec

/-! ## Places -/

/-- A way from a description to one of its children. -/
inductive Step where
  | element
  | name (i : Nat)
  | value (i : Nat)
  | option (i : Nat)
  deriving DecidableEq, Repr

def child? (s : Spec) : Step → Option Spec
  | .element => s.typeElements
  | .name i => s.keys[i]?.bind fun k => k.name.specs.head?
  | .value i => s.keys[i]?.map (·.value)
  | .option i => s.options[i]?.map (·.spec)

def modifyChild (s : Spec) (f : Spec → Spec) : Step → Spec
  | .element => { s with typeElements := s.typeElements.map f }
  | .name i => { s with keys := s.keys.modify i fun k => { k with name := k.name.map f } }
  | .value i => { s with keys := s.keys.modify i fun k => { k with value := f k.value } }
  | .option i => { s with options := s.options.modify i (·.map f) }

/-- What stands in a place. -/
def at? (s : Spec) : List Step → Option Spec
  | [] => some s
  | step :: path => (s.child? step).bind fun c => at? c path

/-- The description with `t` in a place. -/
def replaceAt (s : Spec) (path : List Step) (t : Spec) : Spec :=
  match path with
  | [] => t
  | step :: path => s.modifyChild (fun c => replaceAt c path t) step

theorem forall₂_modify {α : Type} {Q : α → α → Prop} (hQ : ∀ a, Q a a) {l : List α} {i : Nat}
    {f : α → α} (hf : ∀ a, l[i]? = some a → Q a (f a)) : List.Forall₂ Q l (l.modify i f) := by
  induction l generalizing i with
  | nil =>
      rw [List.modify_nil]
      exact .nil
  | cons a l ih =>
      cases i with
      | zero => exact .cons (hf a rfl) (List.forall₂_same.2 fun b _ => hQ b)
      | succ i => exact .cons (hQ a) (ih hf)

variable {R : Spec → Spec → Prop} {s : Spec}

theorem Alike.modifyChild (hR : ∀ t, R t t) {step : Step} {f : Spec → Spec}
    (hf : ∀ t, s.child? step = some t → R t (f t)) : Alike R s (s.modifyChild f step) := by
  have hself := Alike.refl hR s
  cases step with
  | element =>
      refine { hself with typeElements := ?_ }
      rw [Spec.modifyChild]
      cases h : s.typeElements with
      | none => exact .none
      | some t => exact .some (hf t h)
  | name i =>
      refine { hself with keys := forall₂_modify (.refl hR) fun k hk => ⟨?_, hR _, rfl, rfl⟩ }
      obtain ⟨n, value, times, chance⟩ := k
      cases n with
      | fixed text => exact .fixed text
      | generated t =>
          have hchild : s.child? (.name i) = some t := by
            simp only [child?, hk, Option.bind_some, KeyName.specs, List.head?_cons]
          exact .generated (hf t hchild)
  | value i =>
      refine { hself with keys := forall₂_modify (.refl hR) fun k hk => ?_ }
      have hchild : s.child? (.value i) = some k.value := by
        simp only [child?, hk, Option.map_some]
      exact ⟨.refl hR _, hf _ hchild, rfl, rfl⟩
  | option i =>
      refine { hself with
        options := forall₂_modify (fun o => ⟨rfl, hR _⟩) fun o ho => ⟨rfl, ?_⟩ }
      have hchild : s.child? (.option i) = some o.spec := by
        simp only [child?, ho, Option.map_some]
      exact hf _ hchild

@[simp] theorem storeRef_modifyChild (f : Spec → Spec) (step : Step) :
    (s.modifyChild f step).storeRef = s.storeRef := by
  cases step <;> rfl

@[simp] theorem loadRef_modifyChild (f : Spec → Spec) (step : Step) :
    (s.modifyChild f step).loadRef = s.loadRef := by
  cases step <;> rfl

/-! ## Copies that store nothing -/

mutual

def withoutStores : Spec → Spec
  | ⟨kind, method, parameters, value, pattern, keys, typeElements, minLength, maxLength, options,
      maxDepth, _, loadRef, extra⟩ =>
    ⟨kind, method, parameters, value, pattern, keysWithoutStores keys,
      elementsWithoutStores typeElements, minLength, maxLength, optionsWithoutStores options,
      maxDepth, none, loadRef, extra⟩

def elementsWithoutStores : Option Spec → Option Spec
  | none => none
  | some s => some (withoutStores s)

def keysWithoutStores : List (KeyDecl Spec) → List (KeyDecl Spec)
  | [] => []
  | ⟨.fixed text, value, times, chance⟩ :: rest =>
    ⟨.fixed text, withoutStores value, times, chance⟩ :: keysWithoutStores rest
  | ⟨.generated name, value, times, chance⟩ :: rest =>
    ⟨.generated (withoutStores name), withoutStores value, times, chance⟩ ::
      keysWithoutStores rest

def optionsWithoutStores : List (ChoiceOption Spec) → List (ChoiceOption Spec)
  | [] => []
  | ⟨chance, s⟩ :: rest => ⟨chance, withoutStores s⟩ :: optionsWithoutStores rest

end

theorem keysWithoutStores_eq (keys : List (KeyDecl Spec)) :
    keysWithoutStores keys = keys.map (·.map withoutStores) := by
  induction keys with
  | nil => rfl
  | cons k keys ih =>
      obtain ⟨n, value, times, chance⟩ := k
      cases n <;> rw [keysWithoutStores, ih] <;> rfl

theorem optionsWithoutStores_eq (options : List (ChoiceOption Spec)) :
    optionsWithoutStores options = options.map (·.map withoutStores) := by
  induction options with
  | nil => rfl
  | cons o options ih =>
      rw [optionsWithoutStores, ih]
      rfl

theorem withoutStores_eq (s : Spec) :
    s.withoutStores =
      { s with
        keys := s.keys.map (·.map withoutStores)
        typeElements := s.typeElements.map withoutStores
        options := s.options.map (·.map withoutStores)
        storeRef := none } := by
  obtain ⟨kind, method, parameters, value, pattern, keys, typeElements, minLength, maxLength,
    options, maxDepth, storeRef, loadRef, extra⟩ := s
  rw [withoutStores, keysWithoutStores_eq, optionsWithoutStores_eq]
  cases typeElements <;> rfl

theorem alike_withoutStores (hR : ∀ t, R t t.withoutStores) (s : Spec) :
    Alike R s s.withoutStores := by
  rw [withoutStores_eq]
  refine { Alike.refl (R := Eq) (fun _ => rfl) s with
    keys := ?_, typeElements := ?_, options := ?_ }
  · refine List.forall₂_map_right_iff.2 (List.forall₂_same.2 fun k _ => ⟨?_, hR _, rfl, rfl⟩)
    obtain ⟨n, value, times, chance⟩ := k
    cases n with
    | fixed text => exact .fixed text
    | generated t => exact .generated (hR t)
  · cases s.typeElements with
    | none => exact .none
    | some t => exact .some (hR t)
  · exact List.forall₂_map_right_iff.2 (List.forall₂_same.2 fun o _ => ⟨rfl, hR _⟩)

@[simp] theorem storeRef_withoutStores (s : Spec) : s.withoutStores.storeRef = none := by
  cases s
  rfl

@[simp] theorem loadRef_withoutStores (s : Spec) : s.withoutStores.loadRef = s.loadRef := by
  cases s
  rfl

theorem children_withoutStores (s : Spec) :
    s.withoutStores.children = s.children.map withoutStores := by
  have hchildren := (alike_withoutStores (R := fun t t' => t.withoutStores = t')
    (fun _ => rfl) s).children
  have hmap : List.Forall₂ Eq (s.children.map withoutStores) s.withoutStores.children :=
    List.forall₂_map_left_iff.2 hchildren
  rw [List.forall₂_eq_eq_eq] at hmap
  exact hmap.symm

/-! ## What is stored -/

/-- The description and all inside it that store a name, with their names. -/
def bindings (s : Spec) : List (String × Spec) :=
  s.preorder.filterMap fun t => t.storeRef.map (·, t)

theorem entries_build (s : Spec) : (Registry.build s).entries = Table.ofList s.bindings := by
  rw [Registry.build_eq]
  rfl

theorem bindings_eq (s : Spec) :
    s.bindings = (s.storeRef.map (·, s)).toList ++ s.children.flatMap bindings := by
  rw [bindings, preorder_eq, List.filterMap_cons, List.filterMap_flatMap]
  cases s.storeRef <;> rfl

theorem bindings_withoutStores (s : Spec) : s.withoutStores.bindings = [] := by
  induction s using induction_children with
  | h s ih =>
      rw [bindings_eq, storeRef_withoutStores, children_withoutStores, List.flatMap_map]
      exact List.flatMap_eq_nil_iff.2 ih

/-! ## Replacements -/

variable {hole graft : Spec}

/-- A replacement of `hole` by `graft` further inside a description, or a copy that stores
nothing. Both sides load the same name, so they resolve in lockstep. -/
inductive Unfolds (hole graft : Spec) : Spec → Spec → Prop
  | same (s : Spec) : Unfolds hole graft s s
  | inside {s : Spec} {step : Step} {path : List Step} : s.at? (step :: path) = some hole →
      Unfolds hole graft s (s.replaceAt (step :: path) graft)
  | copy (s : Spec) : Unfolds hole graft s s.withoutStores

/-- An unfolding, or the replacement of `hole` itself. -/
inductive Grafted (hole graft : Spec) : Spec → Spec → Prop
  | here : Grafted hole graft hole graft
  | unfolds {s s' : Spec} : Unfolds hole graft s s' → Grafted hole graft s s'

theorem Grafted.refl (s : Spec) : Grafted hole graft s s := .unfolds (.same s)

theorem grafted_replaceAt {path : List Step} (h : s.at? path = some hole) :
    Grafted hole graft s (s.replaceAt path graft) := by
  cases path with
  | nil =>
      cases h
      exact .here
  | cons step path => exact .unfolds (.inside h)

namespace Unfolds

variable {s' : Spec}

theorem loadRef (h : Unfolds hole graft s s') : s'.loadRef = s.loadRef := by
  cases h with
  | same => rfl
  | inside _ => rw [replaceAt, loadRef_modifyChild]
  | copy => rw [loadRef_withoutStores]

theorem alike (h : Unfolds hole graft s s') : Alike (Grafted hole graft) s s' := by
  cases h with
  | same => exact .refl .refl s
  | @inside step path hat =>
      refine .modifyChild .refl fun c hc => grafted_replaceAt ?_
      rwa [at?, hc] at hat
  | copy => exact alike_withoutStores (fun t => .unfolds (.copy t)) s

end Unfolds

/-- A replacement keeps the names, and relates what they are bound to, if it does so where it is
made and the relation is of descriptions that are the same but for the replacement inside. -/
theorem bindings_replaceAt_rel (hsame : ∀ t, R t t)
    (hinside : ∀ {t step path}, t.at? (step :: path) = some hole →
      R t (t.replaceAt (step :: path) graft))
    (hplace : Table.Rel R hole.bindings graft.bindings) {path : List Step}
    (h : s.at? path = some hole) : Table.Rel R s.bindings (s.replaceAt path graft).bindings := by
  induction path generalizing s with
  | nil =>
      cases h
      exact hplace
  | cons step path ih =>
      -- The description on the way to the place keeps its name; the rest is up to its children.
      have hown : R s (s.replaceAt (step :: path) graft) := hinside h
      rw [bindings_eq s, bindings_eq (s.replaceAt _ _)]
      refine List.rel_append ?_ ?_
      · rw [replaceAt, storeRef_modifyChild]
        cases s.storeRef with
        | none => exact .nil
        | some name => exact .cons ⟨rfl, hown⟩ .nil
      · have hchildren : List.Forall₂ (fun c c' => Table.Rel R c.bindings c'.bindings) s.children
            (s.replaceAt (step :: path) graft).children := by
          refine Alike.children (.modifyChild (fun t => .refl hsame _) fun c hc => ih ?_)
          rwa [at?, hc] at h
        exact List.rel_flatMap hchildren fun _ _ hc => hc

/-- If neither what stood in a place nor what comes there stores a name, the names stay the same,
and what they are bound to unfolds. -/
theorem bindings_replaceAt (hhole : hole.bindings = []) (hgraft : graft.bindings = [])
    {path : List Step} (h : s.at? path = some hole) :
    Table.Rel (Unfolds hole graft) s.bindings (s.replaceAt path graft).bindings := by
  have hplace : Table.Rel (Unfolds hole graft) hole.bindings graft.bindings := by
    rw [hhole, hgraft]
    exact .nil
  exact bindings_replaceAt_rel .same .inside hplace h

end Spec

end Specimen
