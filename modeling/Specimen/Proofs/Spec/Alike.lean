import Mathlib.Data.List.Forall2
import Specimen.Handler.Dispatch
import Specimen.Proofs.Spec.Descendants
/-!
# Descriptions that are alike

Two descriptions are alike if they ask for the same handler, every field that it reads is the
same, and what lies inside them is related in the same places. They may store and load
different names. Registries with related entries resolve related descriptions to related ones,
if these load the same names.
-/

namespace Specimen

section Rel

variable {σ τ : Type} (R : σ → τ → Prop)

inductive KeyName.Rel : KeyName σ → KeyName τ → Prop
  | fixed (text : String) : Rel (.fixed text) (.fixed text)
  | generated {s : σ} {t : τ} : R s t → Rel (.generated s) (.generated t)

structure KeyDecl.Rel (k : KeyDecl σ) (k' : KeyDecl τ) : Prop where
  name : KeyName.Rel R k.name k'.name
  value : R k.value k'.value
  times : k'.times = k.times
  chance : k'.chance = k.chance

structure ChoiceOption.Rel (o : ChoiceOption σ) (o' : ChoiceOption τ) : Prop where
  chance : o'.chance = o.chance
  spec : R o.spec o'.spec

variable {R}

theorem KeyName.Rel.refl {R : σ → σ → Prop} (hR : ∀ s, R s s) (n : KeyName σ) : Rel R n n := by
  cases n with
  | fixed text => exact .fixed text
  | generated s => exact .generated (hR s)

theorem KeyDecl.Rel.refl {R : σ → σ → Prop} (hR : ∀ s, R s s) (k : KeyDecl σ) : Rel R k k :=
  ⟨.refl hR _, hR _, rfl, rfl⟩

theorem KeyDecl.Rel.specs {k : KeyDecl σ} {k' : KeyDecl τ} (h : KeyDecl.Rel R k k') :
    List.Forall₂ R k.specs k'.specs := by
  obtain ⟨name, value, times, chance⟩ := k
  obtain ⟨name', value', times', chance'⟩ := k'
  cases h.name with
  | fixed text => exact .cons h.value .nil
  | generated hs => exact .cons hs (.cons h.value .nil)

theorem KeyDecl.Rel.need {k : KeyDecl σ} {k' : KeyDecl τ} (h : KeyDecl.Rel R k k') :
    k'.need = k.need := by
  obtain ⟨name, value, times, chance⟩ := k
  obtain ⟨name', value', times', chance'⟩ := k'
  cases h.name <;> rfl

end Rel

namespace Spec

structure Alike (R : Spec → Spec → Prop) (s s' : Spec) : Prop where
  handlerKey : HandlerKey.ofSpec s' = HandlerKey.ofSpec s
  parameters : s'.parameters = s.parameters
  value : s'.value = s.value
  pattern : s'.pattern = s.pattern
  minLength : s'.minLength = s.minLength
  maxLength : s'.maxLength = s.maxLength
  maxDepth : s'.maxDepth = s.maxDepth
  keys : List.Forall₂ (KeyDecl.Rel R) s.keys s'.keys
  typeElements : Option.Rel R s.typeElements s'.typeElements
  options : List.Forall₂ (ChoiceOption.Rel R) s.options s'.options

namespace Alike

variable {R : Spec → Spec → Prop} {s s' : Spec}

theorem refl (hR : ∀ t, R t t) (s : Spec) : Alike R s s where
  handlerKey := rfl
  parameters := rfl
  value := rfl
  pattern := rfl
  minLength := rfl
  maxLength := rfl
  maxDepth := rfl
  keys := List.forall₂_same.2 fun k _ => .refl hR k
  typeElements := by
    cases s.typeElements with
    | none => exact .none
    | some t => exact .some (hR t)
  options := List.forall₂_same.2 fun _ _ => ⟨rfl, hR _⟩

theorem children (h : Alike R s s') : List.Forall₂ R s.children s'.children := by
  refine List.rel_append (List.rel_append ?_ ?_) ?_
  · exact match s.typeElements, s'.typeElements, h.typeElements with
    | _, _, .none => .nil
    | _, _, .some ht => .cons ht .nil
  · exact List.rel_flatMap h.keys fun _ _ hk => hk.specs
  · exact List.rel_map (fun _ _ ho => ho.spec) h.options

end Alike

end Spec

/-! ## Tables and registries of related descriptions -/

namespace Table

variable {α : Type} {R : α → α → Prop} {t t' : Table α}

/-- Tables with the same names and related values. -/
def Rel (R : α → α → Prop) : Table α → Table α → Prop :=
  List.Forall₂ fun entry entry' => entry'.1 = entry.1 ∧ R entry.2 entry'.2

theorem Rel.refl (hR : ∀ a, R a a) (t : Table α) : Rel R t t :=
  List.forall₂_same.2 fun _ _ => ⟨rfl, hR _⟩

theorem Rel.insert (h : Rel R t t') (name : String) {v v' : α} (hv : R v v') :
    Rel R (t.insert name v) (t'.insert name v') := by
  induction h with
  | nil => exact .cons ⟨rfl, hv⟩ .nil
  | @cons entry entry' t t' hentry htail ih =>
      obtain ⟨k, w⟩ := entry
      obtain ⟨k', w'⟩ := entry'
      obtain ⟨rfl, hw⟩ := hentry
      rw [Table.insert, Table.insert]
      split
      · exact .cons ⟨rfl, hv⟩ (.cons ⟨rfl, hw⟩ htail)
      · split
        · exact .cons ⟨rfl, hv⟩ htail
        · exact .cons ⟨rfl, hw⟩ ih

theorem Rel.ofList {pairs pairs' : List (String × α)} (h : Rel R pairs pairs') :
    Rel R (ofList pairs) (ofList pairs') := by
  have hfold : ∀ {t t' : Table α}, Rel R t t' →
      Rel R (pairs.foldl (fun t p => t.insert p.1 p.2) t)
        (pairs'.foldl (fun t p => t.insert p.1 p.2) t') := by
    induction h with
    | nil => exact id
    | @cons entry entry' _ _ hentry _ ih =>
        intro t t' ht
        rw [List.foldl_cons, List.foldl_cons, hentry.1]
        exact ih (ht.insert _ hentry.2)
  exact hfold .nil

theorem Rel.get? (h : Rel R t t') (name : String) :
    Option.Rel R (t.get? name) (t'.get? name) := by
  induction h with
  | nil => exact .none
  | @cons entry entry' t t' hentry _ ih =>
      obtain ⟨k, w⟩ := entry
      obtain ⟨k', w'⟩ := entry'
      obtain ⟨rfl, hw⟩ := hentry
      rw [Table.get?, Table.get?]
      split
      · exact .some hw
      · exact ih

end Table

namespace Registry

variable {r r' : Registry} {s s' : Spec}

theorem loadRef_follow (hops : Nat) (s : Spec) : (r.follow hops s).loadRef = none := by
  induction hops generalizing s with
  | zero =>
      cases hload : s.loadRef with
      | none => rw [follow_of_none 0 hload, hload]
      | some name => rw [follow_zero_of_some hload]; rfl
  | succ hops ih =>
      cases hload : s.loadRef with
      | none => rw [follow_of_none _ hload, hload]
      | some name =>
          rw [follow_succ_of_some _ hload]
          cases r.get? name with
          | none => rfl
          | some t => exact ih t

theorem follow_rel {R : Spec → Spec → Prop} (hempty : R .empty .empty)
    (hload : ∀ {s s'}, R s s' → s'.loadRef = s.loadRef) (h : Table.Rel R r.entries r'.entries)
    (hops : Nat) (hs : R s s') : R (r.follow hops s) (r'.follow hops s') := by
  induction hops generalizing s s' with
  | zero =>
      cases hname : s.loadRef with
      | none => rwa [follow_of_none 0 hname, follow_of_none 0 ((hload hs).trans hname)]
      | some name =>
          rwa [follow_zero_of_some hname, follow_zero_of_some ((hload hs).trans hname)]
  | succ hops ih =>
      cases hname : s.loadRef with
      | none => rwa [follow_of_none _ hname, follow_of_none _ ((hload hs).trans hname)]
      | some name =>
          rw [follow_succ_of_some _ hname, follow_succ_of_some _ ((hload hs).trans hname)]
          have hget := h.get? name
          rw [← Registry.get?, ← Registry.get?] at hget
          generalize r.get? name = x, r'.get? name = y at hget
          cases hget with
          | none => exact hempty
          | some ht => exact ih ht

/-- What a reference resolves to loads nothing. -/
theorem loadRef_resolve (r : Registry) (s : Spec) : (r.resolve s).loadRef = none :=
  loadRef_follow _ s

theorem resolve_of_none (h : s.loadRef = none) : r.resolve s = s := follow_of_none _ h

/-- Registries with the same names and related entries resolve in the same number of loads. -/
theorem resolve_rel {R : Spec → Spec → Prop} (hempty : R .empty .empty)
    (hload : ∀ {s s'}, R s s' → s'.loadRef = s.loadRef) (h : Table.Rel R r.entries r'.entries)
    (hs : R s s') : R (r.resolve s) (r'.resolve s') := by
  rw [resolve, resolve, size, size, ← h.length_eq]
  exact follow_rel hempty hload h _ hs

end Registry

end Specimen
