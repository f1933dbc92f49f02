import Specimen.Handler.Dispatch
/-!
# How actions run

What a sequence of actions gives, and when it gives a value without a failure.
-/

namespace Specimen

open Specimen.Random

namespace Action

variable {α β : Type} {s t : Supply}

theorem bind_eq_ok {x : Action α} {f : α → Action β} {b : β} :
    (x >>= f) s = some (.ok b, t) ↔ ∃ a u, x s = some (.ok a, u) ∧ f a u = some (.ok b, t) := by
  simp only [bind, ExceptT.bind, ExceptT.mk, StateT.bind]
  cases x s with
  | none => simp
  | some p =>
      obtain ⟨a, u⟩ := p
      cases a with
      | error err =>
          change some (Except.error err, u) = some (.ok b, t) ↔ _
          simp
      | ok a =>
          constructor
          · exact fun h => ⟨a, u, rfl, h⟩
          · rintro ⟨a', u', hsame, h⟩
            cases hsame
            exact h

theorem pure_eq_ok {a b : α} : (pure a : Action α) s = some (.ok b, t) ↔ a = b ∧ s = t := by
  change some (Except.ok a, s) = some (.ok b, t) ↔ _
  simp

theorem draw_eq_ok {d : Draw α} {a : α} (h : draw d s = some (.ok a, t)) :
    ∃ source, d s.source = some (a, source) := by
  obtain ⟨⟨b, source⟩, hdraw, h⟩ := Option.map_eq_some_iff.1 h
  cases h
  exact ⟨source, hdraw⟩

theorem returned_eq_ok {x : Option α} {a : α} (h : returned x s = some (.ok a, t)) :
    x = some a ∧ t = s := by
  obtain ⟨b, rfl, h⟩ := Option.map_eq_some_iff.1 h
  cases h
  exact ⟨rfl, rfl⟩

theorem draw_bind {α β : Type} (d : Draw α) (f : α → Action β) (s : Supply) :
    (Action.draw d >>= f) s =
      (d s.source).bind fun (a, source) => f a { s with source } := by
  simp only [Action.draw, bind, ExceptT.bind, ExceptT.mk, StateT.bind]
  cases d s.source <;> rfl

theorem discard_bind {β : Type} (n : Nat) (f : Unit → Action β) (s : Supply) :
    (Action.discard n >>= f) s =
      f () { s with dropped := s.dropped + UInt64.ofNat n } := rfl

@[simp] theorem pure_apply {α : Type} (a : α) (s : Supply) :
    (pure a : Action α) s = some (.ok a, s) := rfl

end Action

theorem Handler.leaf_apply (f : Visit → Action Json) (v : Visit) (s : Supply) :
    Handler.leaf f v s = (f v s).map fun (x, t) => (x.map .finish, t) := by
  simp only [Handler.leaf, bind, ExceptT.bind, ExceptT.mk, StateT.bind]
  cases f v s with
  | none => rfl
  | some p =>
      obtain ⟨x, t⟩ := p
      cases x <;> rfl

end Specimen
