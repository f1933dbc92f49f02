import Specimen.Handler.Dispatch
import Specimen.Proofs.Handler.Plain
import Specimen.Proofs.Table
/-!
# Counting in a scope

The counters of a scope as a function of the pattern, and which handlers touch
them: the enumeration advances the counter of its own pattern by one, and no
plain action changes the scope.
-/

namespace Specimen

open Specimen.Random

namespace Scope

/-- The number that a pattern gets next. -/
def current (s : Scope) (pattern : String) : Nat := (Table.get? s.counters pattern).getD 0

@[simp] theorem current_empty (pattern : String) : current {} pattern = 0 := rfl

theorem current_next (s : Scope) (pattern other : String) :
    (s.next pattern).2.current other =
      if pattern = other then s.current pattern + 1 else s.current other := by
  simp only [current, next, Table.increment, Table.get?_insert]
  split <;> rfl

/-- The number that a pattern gets in a scope, and outside every scope. -/
def numberIn (scope : Option Scope) (pattern : String) : Nat :=
  match scope with
  | none => 1
  | some s => s.current pattern

end Scope

namespace Action

variable {α : Type}

theorem count_apply (pattern : String) (s : Supply) :
    count pattern s = some (.ok (Scope.numberIn s.scope pattern),
      { s with scope := s.scope.map fun scope => (scope.next pattern).2 }) := by
  obtain ⟨source, synthesizer, scope, dropped⟩ := s
  cases scope <;> rfl

/-- The scope is the same afterwards, whatever else comes of the action. -/
def KeepsScope (a : Action α) : Prop :=
  ∀ (s t : Supply) (x : Except Failure α), a s = some (x, t) → t.scope = s.scope

theorem Plain.keepsScope {a : Action α} (h : Plain a) : KeepsScope a :=
  fun _ _ _ hrun => (h.keeps hrun).1

end Action

namespace Leaf

open Specimen.Action

variable (v : Visit)

/-- An enumeration uses a number up, also where its pattern cannot be filled in. -/
theorem enumeration_apply (s : Supply) :
    enumeration v s =
      (Counter.format (v.spec.pattern.getD "%d")
          (Scope.numberIn s.scope (v.spec.pattern.getD "%d"))).map fun answer =>
        ((answer.map Json.str).mapError Failure.counter,
          { s with
            scope := s.scope.map fun scope => (scope.next (v.spec.pattern.getD "%d")).2 }) := by
  simp only [enumeration, bind, ExceptT.bind, ExceptT.mk, StateT.bind, count_apply, returned,
    Option.bind_some, ExceptT.bindCont]
  cases Counter.format _ _ with
  | none => rfl
  | some answer => cases answer <;> rfl

end Leaf

end Specimen
