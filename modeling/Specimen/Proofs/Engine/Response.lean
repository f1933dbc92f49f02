import Specimen.Proofs.Engine.Evaluator
import Specimen.Proofs.Record.Plan
import Specimen.Proofs.Spec.Descendants
/-!
# What a first visit can answer

Inversions of `Engine.respond`: which kinds of descriptions settle a node, let it go on or give
it children, and what has become of the report by then.
-/

namespace Specimen

open Specimen.Random Regex

/-- The children of a response that are queued. -/
def Response.queued : Response → Nat
  | .settled _ | .again _ => 0
  | .family _ children => queuedCount children

namespace Evaluation

variable {p p' : Progress} {response : Response}

theorem leaf_eq_some {scope : Option ScopeId} {a : Action Json}
    (h : leaf scope a p = some (response, p')) :
    ∃ x supply, a ⟨p.source, p.synthesizer, scope.bind fun i => p.scopes[i]?, 0⟩ =
        some (x, supply) ∧
      ((∃ v, x = .ok v ∧ response = .done v ∧ p' = p.after scope supply) ∨
        ∃ err, x = .error err ∧ response = .done .null ∧ p' = { p.after scope supply with
          report := (p.after scope supply).report.countFailure }) := by
  obtain ⟨x, u, hact, h⟩ := bind_eq_some.1 h
  obtain ⟨⟨y, supply⟩, hrun, hact⟩ := Option.map_eq_some_iff.1 hact
  cases hact
  refine ⟨x, supply, hrun, ?_⟩
  cases x with
  | error err =>
      cases h
      exact .inr ⟨err, rfl, rfl, rfl⟩
  | ok v =>
      cases h
      exact .inl ⟨v, rfl, rfl, rfl⟩

theorem leaf_of_ok {scope : Option ScopeId} {a : Action Json} {v : Json} {supply : Supply}
    (h : a ⟨p.source, p.synthesizer, scope.bind fun i => p.scopes[i]?, 0⟩ =
      some (.ok v, supply)) : leaf scope a p = some (.done v, p.after scope supply) :=
  bind_eq_some.2 ⟨.ok v, _, Option.map_eq_some_iff.2 ⟨_, h, rfl⟩, rfl⟩

theorem mem_of_select {share roll : Float} {options : List (ChoiceOption Spec)} {s : Spec}
    (h : Choice.select share roll options = some s) : ∃ o ∈ options, o.spec = s := by
  induction options generalizing roll with
  | nil => cases h
  | cons o options ih =>
      simp only [Choice.select] at h
      split at h
      · cases h
        exact ⟨o, List.mem_cons_self, rfl⟩
      · obtain ⟨o', ho', hs⟩ := ih h
        exact ⟨o', List.mem_cons_of_mem _ ho', hs⟩

theorem choice_eq_some {redirects : Nat} {options : List (ChoiceOption Spec)}
    (h : choice redirects options p = some (response, p')) :
    (options = [] ∧ response = .done .null ∧ p' = p) ∨
      ∃ roll source, Draw.percent p.source = some (roll, source) ∧
        ((Choice.select (100.0 / options.length.toFloat) roll options = none ∧
            response = .done .null ∧ p' = { p with source }) ∨
          ∃ s, Choice.select (100.0 / options.length.toFloat) roll options = some s ∧
            ((maxRedirects ≤ redirects ∧ response = .done .null ∧
                p' = { p with source, report := p.report.countFailure }) ∨
              (redirects < maxRedirects ∧ response = .again s ∧ p' = { p with source }))) := by
  cases options with
  | nil =>
      cases h
      exact .inl ⟨rfl, rfl, rfl⟩
  | cons o options =>
      simp only [choice, draw_bind] at h
      obtain ⟨⟨roll, source⟩, hroll, h⟩ := Option.bind_eq_some_iff.1 h
      dsimp only at h
      refine .inr ⟨roll, source, hroll, ?_⟩
      cases hselect :
          Choice.select (100.0 / (o :: options).length.toFloat) roll (o :: options) with
      | none =>
          rw [hselect] at h
          cases h
          exact .inl ⟨rfl, rfl, rfl⟩
      | some s =>
          rw [hselect] at h
          by_cases hlimit : maxRedirects ≤ redirects
          · simp only [if_pos hlimit] at h
            cases h
            exact .inr ⟨s, rfl, .inl ⟨hlimit, rfl, rfl⟩⟩
          · simp only [if_neg hlimit] at h
            cases h
            exact .inr ⟨s, rfl, .inr ⟨Nat.lt_of_not_le hlimit, rfl, rfl⟩⟩

theorem record_eq_some {room : Option Nat} {keys : List (KeyDecl Spec)}
    (h : record room keys p = some (response, p')) :
    ∃ plan source, Record.plan keys { room } p.source = some (plan, source) ∧
      ((plan.entries = [] ∧ response = .done (.obj []) ∧ p' = { p with
          source, report := p.report.countDropped (UInt64.ofNat (plan.cut.getD 0)) }) ∨
        (plan.entries ≠ [] ∧ response = .family p.scopes.size plan.children ∧ p' = { p with
          source
          scopes := p.scopes.push {}
          report := (p.report.countDropped (UInt64.ofNat (plan.cut.getD 0))).countQueued
            (queuedCount plan.children) })) := by
  rw [record_apply] at h
  obtain ⟨⟨plan, source⟩, hplan, h⟩ := Option.bind_eq_some_iff.1 h
  refine ⟨plan, source, hplan, ?_⟩
  dsimp only at h
  split at h
  · rename_i hempty
    cases h
    exact .inl ⟨List.isEmpty_iff.1 hempty, rfl, rfl⟩
  · rename_i hempty
    cases h
    exact .inr ⟨fun he => hempty (List.isEmpty_iff.2 he), rfl, rfl⟩

theorem array_eq_some {room : Option Nat} {spec : Spec}
    (h : array room spec p = some (response, p')) :
    ((Sequence.bounds spec).2 < (Sequence.bounds spec).1 ∧ response = .done (.arr []) ∧ p' = p) ∨
      ∃ length source kept, (Sequence.bounds spec).1 ≤ (Sequence.bounds spec).2 ∧
        kept = Sequence.admitted room length.toNat ∧
        Draw.between (Sequence.bounds spec).1 (Sequence.bounds spec).2 p.source =
          some (length, source) ∧
        ((kept = 0 ∧ response = .done (.arr []) ∧ p' = { p with
            source, report := p.report.countDropped (UInt64.ofNat (length.toNat - kept)) }) ∨
          (kept ≠ 0 ∧
            response = .family p.scopes.size
              (List.replicate kept (.queued (spec.typeElements.getD .empty))) ∧
            p' = { p with
              source
              scopes := p.scopes.push {}
              report := (p.report.countDropped (UInt64.ofNat (length.toNat - kept))).countQueued
                kept })) := by
  by_cases hbounds : (Sequence.bounds spec).2 < (Sequence.bounds spec).1
  · rw [array_of_inverted _ _ hbounds] at h
    cases h
    exact .inl ⟨hbounds, rfl, rfl⟩
  · rw [array_of_ordered _ _ hbounds] at h
    obtain ⟨⟨length, source⟩, hdraw, h⟩ := Option.bind_eq_some_iff.1 h
    refine .inr ⟨length, source, _, Int.not_lt.1 hbounds, rfl, hdraw, ?_⟩
    dsimp only at h
    split at h
    · rename_i hkept
      cases h
      exact .inl ⟨hkept, rfl, rfl⟩
    · rename_i hkept
      rw [enlist_apply, queuedCount_replicate] at h
      cases h
      exact .inr ⟨hkept, rfl, rfl⟩

end Evaluation

namespace Engine

variable {e : Engine} {spec : Spec} {depth : Nat} {scope : Option ScopeId} {redirects : Nat}
  {p p' : Progress}

theorem answer_eq_some {b : Builtin} {response : Response}
    (h : e.answer b spec depth scope redirects p = some (response, p')) :
    (∃ v, response = .done v) ∨
      (b = .choice ∧ ∃ o ∈ spec.options, response = .again o.spec ∧ redirects < maxRedirects) ∨
      ((b = .record ∨ b = .array) ∧ ∃ children, response = .family p.scopes.size children) := by
  cases b with
  | record =>
      obtain ⟨plan, -, -, ⟨-, rfl, -⟩ | ⟨-, rfl, -⟩⟩ := Evaluation.record_eq_some h
      · exact .inl ⟨_, rfl⟩
      · exact .inr (.inr ⟨.inl rfl, _, rfl⟩)
  | array =>
      obtain ⟨-, rfl, -⟩ | ⟨-, -, -, -, -, -, ⟨-, rfl, -⟩ | ⟨-, rfl, -⟩⟩ :=
        Evaluation.array_eq_some h
      · exact .inl ⟨_, rfl⟩
      · exact .inl ⟨_, rfl⟩
      · exact .inr (.inr ⟨.inr rfl, _, rfl⟩)
  | choice =>
      obtain ⟨-, hdone, -⟩ | ⟨roll, source, -, ⟨-, hdone, -⟩ | ⟨s, hselect, hagain⟩⟩ :=
        Evaluation.choice_eq_some h
      · exact .inl ⟨_, hdone⟩
      · exact .inl ⟨_, hdone⟩
      · obtain ⟨-, hdone, -⟩ | ⟨hlimit, rfl, -⟩ := hagain
        · exact .inl ⟨_, hdone⟩
        · obtain ⟨o, ho, rfl⟩ := Evaluation.mem_of_select hselect
          exact .inr (.inl ⟨rfl, o, ho, rfl, hlimit⟩)
  | _ =>
      obtain ⟨x, supply, -, ⟨v, -, hdone, -⟩ | ⟨err, -, hdone, -⟩⟩ := Evaluation.leaf_eq_some h
      · exact .inl ⟨v, hdone⟩
      · exact .inl ⟨.null, hdone⟩

/-- The three ways to a response: cut off, without a handler, or a built-in handler's answer. -/
theorem respond_eq_some {response : Response}
    (h : e.respond spec depth scope redirects p = some (response, p')) :
    (e.IsTooDeep (e.registry.resolve spec) depth ∧ response = .settled ⟨.truncated, .null⟩ ∧
        p' = { p with report := p.report.countStep.countTruncated }) ∨
      (¬ e.IsTooDeep (e.registry.resolve spec) depth ∧
        Builtin.ofSpec? (e.registry.resolve spec) = none ∧ response = .done .null ∧
        p' = { p with report := p.report.countStep.countUnknown }) ∨
      ∃ b, ¬ e.IsTooDeep (e.registry.resolve spec) depth ∧
        Builtin.ofSpec? (e.registry.resolve spec) = some b ∧
        e.answer b (e.registry.resolve spec) depth scope redirects
          { p with
              report := p.report.countStep.countUsage
                (HandlerKey.ofSpec (e.registry.resolve spec)).label } =
            some (response, p') := by
  by_cases hdeep : e.IsTooDeep (e.registry.resolve spec) depth
  · rw [respond_of_deep _ _ _ hdeep] at h
    cases h
    exact .inl ⟨hdeep, rfl, rfl⟩
  cases hkind : Builtin.ofSpec? (e.registry.resolve spec) with
  | none =>
      rw [respond_of_unknown _ _ _ hdeep hkind] at h
      cases h
      exact .inr (.inl ⟨hdeep, rfl, rfl, rfl⟩)
  | some b =>
      rw [respond_of_builtin _ _ _ hdeep hkind] at h
      exact .inr (.inr ⟨b, hdeep, rfl, h⟩)

theorem stage_of_settled {o : Outcome}
    (h : e.respond spec depth scope redirects p = some (.settled o, p')) :
    o.stage = .done ∨ o.stage = .truncated := by
  obtain ⟨-, ho, -⟩ | ⟨-, -, ho, -⟩ | ⟨b, -, -, h⟩ := respond_eq_some h
  · cases ho
    exact .inr rfl
  · cases ho
    exact .inl rfl
  · obtain ⟨v, hv⟩ | ⟨-, o', -, ho, -⟩ | ⟨-, children, hc⟩ := answer_eq_some h
    · cases hv
      exact .inl rfl
    · cases ho
    · cases hc

theorem isComposite_of_family {inner : ScopeId} {children : List Child}
    (h : e.respond spec depth scope redirects p = some (.family inner children, p')) :
    (e.registry.resolve spec).IsComposite := by
  obtain ⟨-, hr, -⟩ | ⟨-, -, hr, -⟩ | ⟨b, -, hb, h⟩ := respond_eq_some h
  · cases hr
  · cases hr
  · obtain ⟨v, hv⟩ | ⟨-, o, -, ho, -⟩ | ⟨rfl | rfl, -⟩ := answer_eq_some h
    · cases hv
    · cases ho
    · exact .inl hb
    · exact .inr hb

/-! ## Where a response goes on -/

theorem mem_children_of_again {s : Spec}
    (h : e.respond spec depth scope redirects p = some (.again s, p')) :
    s ∈ (e.registry.resolve spec).children ∧ redirects < maxRedirects := by
  obtain ⟨-, hr, -⟩ | ⟨-, -, hr, -⟩ | ⟨b, -, -, h⟩ := respond_eq_some h
  · cases hr
  · cases hr
  · obtain ⟨v, hv⟩ | ⟨-, o, ho, hs, hlimit⟩ | ⟨-, children, hc⟩ := answer_eq_some h
    · cases hv
    · cases hs
      exact ⟨Spec.spec_mem_children ho, hlimit⟩
    · cases hc

theorem mem_children_of_entry {keys : List (KeyDecl Spec)} {k : KeyDecl Spec} {s : Spec}
    (hk : k ∈ keys) (hs : .queued s ∈ (Record.entryOf k).children) :
    s ∈ keys.flatMap KeyDecl.specs := by
  refine List.mem_flatMap.2 ⟨k, hk, ?_⟩
  obtain ⟨name, value, times, chance⟩ := k
  cases name <;>
    simpa [Record.Entry.children, Record.entryOf, KeyDecl.specs, KeyName.specs] using hs

/-- The children to be made are of descriptions inside, or of the empty one, which stands for the
elements of an array that has none. -/
theorem mem_children_of_family {inner : ScopeId} {children : List Child}
    (h : e.respond spec depth scope redirects p = some (.family inner children, p')) :
    ¬ e.IsTooDeep (e.registry.resolve spec) depth ∧ ∀ s, .queued s ∈ children →
      s ∈ (e.registry.resolve spec).children ∨ s = .empty := by
  obtain ⟨-, hr, -⟩ | ⟨-, -, hr, -⟩ | ⟨b, hdeep, -, h⟩ := respond_eq_some h
  · cases hr
  · cases hr
  refine ⟨hdeep, fun s hs => ?_⟩
  cases b with
  | record =>
      obtain ⟨plan, source, hplan, ⟨-, hr, -⟩ | ⟨-, hr, -⟩⟩ := Evaluation.record_eq_some h
      · cases hr
      · cases hr
        obtain ⟨entry, hentry, hs⟩ := List.mem_flatMap.1 hs
        obtain ⟨k, hk, -, rfl⟩ := Record.mem_entries_of_plan hplan (List.mem_reverse.1 hentry)
        refine .inl (List.mem_append_left _ (List.mem_append_right _ ?_))
        exact mem_children_of_entry hk hs
  | array =>
      obtain ⟨-, hr, -⟩ | ⟨length, source, kept, -, -, -, hrest⟩ := Evaluation.array_eq_some h
      · cases hr
      · obtain ⟨-, hr, -⟩ | ⟨-, hr, -⟩ := hrest <;> cases hr
        obtain ⟨-, hs⟩ := List.mem_replicate.1 hs
        cases hs
        cases helements : (e.registry.resolve spec).typeElements with
        | none => exact .inr rfl
        | some c => exact .inl (Spec.typeElements_mem_children helements)
  | _ =>
      obtain ⟨v, hv⟩ | ⟨-, o, -, ho, -⟩ | ⟨hb, -⟩ := answer_eq_some h
      · cases hv
      · cases ho
      · simp at hb

/-! ## What a response counts -/

/-- Steps and nodes that lie too deep are counted before a handler answers. -/
theorem counts_of_answer {b : Builtin} {response : Response}
    (h : e.answer b spec depth scope redirects p = some (response, p')) :
    p'.report.steps = p.report.steps ∧ p'.report.truncatedDepth = p.report.truncatedDepth := by
  cases b with
  | record =>
      obtain ⟨plan, source, -, ⟨-, -, rfl⟩ | ⟨-, -, rfl⟩⟩ := Evaluation.record_eq_some h <;>
      exact ⟨rfl, rfl⟩
  | array =>
      obtain ⟨-, -, rfl⟩ | ⟨length, source, kept, -, -, -, ⟨-, -, rfl⟩ | ⟨-, -, rfl⟩⟩ :=
        Evaluation.array_eq_some h <;>
      exact ⟨rfl, rfl⟩
  | choice =>
      obtain ⟨-, -, rfl⟩ | ⟨roll, source, -, ⟨-, -, rfl⟩ | ⟨s, -, ⟨-, -, rfl⟩ | ⟨-, -, rfl⟩⟩⟩ :=
        Evaluation.choice_eq_some h <;>
      exact ⟨rfl, rfl⟩
  | _ =>
      obtain ⟨x, supply, -, ⟨v, -, -, rfl⟩ | ⟨err, -, -, rfl⟩⟩ := Evaluation.leaf_eq_some h <;>
      exact ⟨rfl, rfl⟩

theorem steps_of_respond {response : Response}
    (h : e.respond spec depth scope redirects p = some (response, p')) :
    p'.report.steps = p.report.steps + 1 := by
  obtain ⟨-, -, rfl⟩ | ⟨-, -, -, rfl⟩ | ⟨b, -, -, h⟩ := respond_eq_some h
  · rfl
  · rfl
  · exact (counts_of_answer h).1


/-- An answer counts what it queues, and queues no more than there is room for. -/
theorem queued_of_answer {b : Builtin} {response : Response}
    (h : e.answer b spec depth scope redirects p = some (response, p')) :
    p'.report.nodesQueued = p.report.nodesQueued + response.queued ∧
      ∀ k ∈ e.room p.report, response.queued ≤ k := by
  have hnone : response.queued = 0 → p'.report.nodesQueued = p.report.nodesQueued →
      p'.report.nodesQueued = p.report.nodesQueued + response.queued ∧
        ∀ k ∈ e.room p.report, response.queued ≤ k := by
    intro hqueued hreport
    rw [hqueued]
    exact ⟨hreport, fun k _ => Nat.zero_le k⟩
  cases b with
  | record =>
      obtain ⟨plan, source, hplan, ⟨-, rfl, rfl⟩ | ⟨-, rfl, rfl⟩⟩ := Evaluation.record_eq_some h
      · exact hnone rfl rfl
      · exact ⟨rfl, Record.queuedCount_le_of_plan hplan⟩
  | array =>
      obtain ⟨-, rfl, rfl⟩ | ⟨length, source, kept, -, hkept, -, hrest⟩ :=
        Evaluation.array_eq_some h
      · exact hnone rfl rfl
      · obtain ⟨-, rfl, rfl⟩ | ⟨-, rfl, rfl⟩ := hrest
        · exact hnone rfl rfl
        · simp only [Response.queued, queuedCount_replicate]
          refine ⟨rfl, fun k hk => ?_⟩
          rw [hkept,
            show (e.firstVisit spec depth scope (e.room p.report)).room = some k from hk]
          exact Nat.min_le_left _ _
  | choice =>
      obtain ⟨-, rfl, rfl⟩ | ⟨roll, source, -, ⟨-, rfl, rfl⟩ |
        ⟨s, -, ⟨-, rfl, rfl⟩ | ⟨-, rfl, rfl⟩⟩⟩ := Evaluation.choice_eq_some h <;>
      exact hnone rfl rfl
  | _ =>
      obtain ⟨x, supply, -, ⟨v, -, rfl, rfl⟩ | ⟨err, -, rfl, rfl⟩⟩ :=
        Evaluation.leaf_eq_some h <;>
      exact hnone rfl rfl

theorem queued_of_respond {response : Response}
    (h : e.respond spec depth scope redirects p = some (response, p')) :
    p'.report.nodesQueued = p.report.nodesQueued + response.queued ∧
      ∀ k ∈ e.room p.report, response.queued ≤ k := by
  obtain ⟨-, rfl, rfl⟩ | ⟨-, -, rfl, rfl⟩ | ⟨b, -, -, h⟩ := respond_eq_some h
  · exact ⟨rfl, fun k _ => Nat.zero_le k⟩
  · exact ⟨rfl, fun k _ => Nat.zero_le k⟩
  · have := queued_of_answer h
    exact this

end Engine

end Specimen
