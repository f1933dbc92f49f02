import Specimen.Handler.Leaf
/-!
# Plain actions

All leaf handlers but the enumeration are put together from draws, syntheses and failures alone.
What these three keep and what goes on from an action to the next is kept by all of them.
-/

namespace Specimen

/-- An action that draws, synthesizes and fails, and does nothing else. -/
inductive Action.Plain : {α : Type} → Action α → Prop
  | pure {α : Type} (a : α) : Plain (Pure.pure a)
  | throw {α : Type} (e : Failure) : Plain (MonadExcept.throw e : Action α)
  | draw {α : Type} (d : Draw α) : Plain (Action.draw d)
  | synthesize (check? : String → Option (String → Bool)) (pattern : String) (minLength : Nat) :
      Plain (Action.synthesize check? pattern minLength)
  | bind {α β : Type} {a : Action α} {f : α → Action β} :
      Plain a → (∀ x, Plain (f x)) → Plain (a >>= f)

/-- The scope and the count of dropped children stay as they are, whatever else comes of a plain
action. -/
theorem Action.Plain.keeps {α : Type} {a : Action α} (h : Plain a) {s t : Supply}
    {x : Except Failure α} (hrun : a s = some (x, t)) :
    t.scope = s.scope ∧ t.dropped = s.dropped := by
  have hdraw : ∀ {α : Type} (d : Draw α) {s t : Supply} {x : Except Failure α},
      Action.draw d s = some (x, t) → t.scope = s.scope ∧ t.dropped = s.dropped := by
    intro α d s t x hrun
    obtain ⟨r, -, hrun⟩ := Option.map_eq_some_iff.1 hrun
    cases hrun
    exact ⟨rfl, rfl⟩
  induction h generalizing s t with
  | pure a =>
      cases hrun
      exact ⟨rfl, rfl⟩
  | throw e =>
      cases hrun
      exact ⟨rfl, rfl⟩
  | draw d => exact hdraw d hrun
  | synthesize check? pattern minLength =>
      simp only [Action.synthesize] at hrun
      split at hrun
      · cases hrun
        exact ⟨rfl, rfl⟩
      · have := hdraw _ hrun
        exact this
  | bind _ _ ha hf =>
      simp only [Bind.bind, ExceptT.bind, ExceptT.mk, StateT.bind] at hrun
      obtain ⟨⟨y, u⟩, hy, hrun⟩ := Option.bind_eq_some_iff.1 hrun
      obtain ⟨hscope, hdropped⟩ := ha hy
      cases y with
      | error e =>
          cases hrun
          exact ⟨hscope, hdropped⟩
      | ok y =>
          obtain ⟨hscope', hdropped'⟩ := hf y hrun
          exact ⟨hscope'.trans hscope, hdropped'.trans hdropped⟩

namespace Leaf

open Specimen.Action

variable (v : Visit)

theorem plain_parameters (context : String) (decls : List Params.Decl) :
    Plain (parameters v context decls) := by
  unfold parameters
  split
  · exact .pure _
  · exact .throw _

theorem plain_call (context nameKey : String) : Plain (call v context nameKey) := by
  unfold call
  split
  · exact .pure _
  · exact .throw _

theorem plain_encode (b : Params.Bound) (text : String) : Plain (encode b text) := by
  unfold encode
  split
  · exact .pure _
  · split
    · exact .pure _
    · exact .throw _

theorem plain_fixed : Plain (fixed v) := by
  unfold fixed
  split
  · exact .pure _
  · exact .bind (plain_parameters v _ _) fun b => .pure _

theorem plain_boolean : Plain (boolean v) :=
  .bind (plain_parameters v _ _) fun _ => .bind (.draw _) fun _ => .pure _

theorem plain_integer : Plain (integer v) := by
  refine .bind (plain_parameters v _ _) fun b => ?_
  dsimp only
  split
  · exact .throw _
  · exact .bind (.draw _) fun _ => .pure _

theorem plain_pick : Plain (pick v) := by
  unfold pick
  split
  · exact .throw _
  · exact .bind (.draw _) fun _ => .pure _

theorem plain_text : Plain (text v) := by
  refine .bind (plain_parameters v _ _) fun b => ?_
  dsimp only
  split
  · exact .throw _
  · split
    · exact .throw _
    · exact .bind (.draw _) fun _ => .bind (.draw _) fun _ =>
        .bind (plain_encode _ _) fun _ => .pure _

theorem plain_regex : Plain (regex v) :=
  .bind (plain_parameters v _ _) fun _ => .bind (.synthesize _ _ _) fun _ => .pure _

theorem plain_distribution : Plain (distribution v) := by
  refine .bind (plain_call v _ _) fun c => .bind (.draw _) fun x => ?_
  cases x with
  | ok value => exact .pure _
  | error e => exact .bind (.draw _) fun _ => .pure _

theorem plain_fake : Plain (fake v) := by
  refine .bind (plain_call v _ _) fun c => .bind (.draw _) fun x => ?_
  cases x with
  | ok value => exact .pure _
  | error e => exact .pure _

end Leaf

end Specimen
