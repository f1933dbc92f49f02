import Mathlib
import Specimen.Proofs.Engine.Certain
/-!
# Descriptions that contain themselves

A record whose entries are all of the record's own description goes on until the depth limit cuts
it off. With `b` entries and a limit of `d` levels its value is the complete nesting of objects,
`d` of them inside each other, and `b ^ i` nodes are queued at each depth `i` up to the limit, of
which the `b ^ d` deepest are cut off (`Generator.exists_nesting`).
-/

namespace Specimen

open Specimen.Random Regex

/-- Objects inside each other: so many levels, each object with the same names. -/
inductive Json.IsNesting (names : List String) : Nat → Json → Prop
  | cut : IsNesting names 0 .null
  | innermost : IsNesting names 1 (.obj [])
  | around {levels : Nat} {fields : List (String × Json)} :
      (fields.map Prod.fst).Perm names → (∀ f ∈ fields, IsNesting names (levels + 1) f.2) →
      IsNesting names (levels + 2) (.obj fields)

/-- A record whose entries are all of its own description. -/
def Spec.nested (names : List String) (limit : Option Nat) : Spec where
  kind := some "record"
  storeRef := some "node"
  maxDepth := limit
  keys := names.map fun name => ⟨.fixed name, .reference "node", 1, .always⟩

/-- What a node of the nesting comes to, so many levels above the limit. -/
def Outcome.nested (names : List String) : Nat → Outcome
  | 0 => ⟨.truncated, .null⟩
  | levels + 1 =>
    ⟨.done, Json.ofFields (Record.assemble
      (names.flatMap fun name => [⟨.done, .str name⟩, nested names levels]))⟩

section

variable {names : List String} {limit : Option Nat}

theorem Outcome.isNesting_nested (hnames : names.Nodup) (levels : Nat) :
    Json.IsNesting names levels (nested names levels).value := by
  induction levels with
  | zero => exact .cut
  | succ levels ih =>
      cases levels with
      | zero =>
          rw [nested, nested, Record.assemble_truncated]
          exact .innermost
      | succ levels =>
          let v := (nested names (levels + 1)).value
          let fields := names.map fun name => (name, v)
          have hassemble : Record.assemble
              (names.flatMap fun name => [⟨.done, .str name⟩, nested names (levels + 1)]) =
                fields := by
            have hdone := Record.assemble_done fields
            rwa [List.flatMap_map] at hdone
          have hkeys : fields.map Prod.fst = names := by
            rw [List.map_map]
            exact List.map_id names
          have hperm : (Table.ofList fields).Perm fields :=
            Table.perm_ofList (hkeys.symm ▸ hnames)
          rw [nested, hassemble]
          refine .around ((hperm.map Prod.fst).trans (.of_eq hkeys)) fun f hf => ?_
          obtain ⟨name, -, rfl⟩ := List.mem_map.1 (hperm.mem_iff.1 hf)
          exact ih

namespace Spec

theorem resolve_nested :
    (Registry.build (nested names limit)).resolve (nested names limit) = nested names limit :=
  Registry.resolve_of_none rfl

theorem bindings_nested : (nested names limit).bindings = [("node", nested names limit)] := by
  have hchildren : ∀ c ∈ (nested names limit).children, c.bindings = [] := by
    intro c hc
    have hkeys : (nested names limit).children =
        [] ++ (nested names limit).keys.flatMap KeyDecl.specs ++ [] := rfl
    rw [hkeys, List.append_nil, List.nil_append] at hc
    obtain ⟨k, hk, hspec⟩ := List.mem_flatMap.1 hc
    obtain ⟨name, -, rfl⟩ := List.mem_map.1 hk
    obtain rfl := List.mem_singleton.1 hspec
    rfl
  rw [bindings_eq, List.flatMap_eq_nil_iff.2 hchildren]
  rfl

/-- The nodes inside are of the description that they lie in. -/
theorem resolve_node :
    (Registry.build (nested names limit)).resolve (reference "node") = nested names limit := by
  have hentries : (Registry.build (nested names limit)).entries =
      [("node", nested names limit)] := by
    rw [entries_build, bindings_nested]
    rfl
  have hget : (Registry.build (nested names limit)).get? "node" = some (nested names limit) := by
    rw [Registry.get?, hentries]
    rfl
  rw [Registry.resolve, Registry.follow_succ_of_some _ rfl, hget, Option.map_some,
    Option.getD_some]
  exact Registry.follow_of_none _ rfl

end Spec

/-! ## Evaluation -/

theorem Record.occurrences_nested :
    occurrences (Spec.nested names limit).keys = (Spec.nested names limit).keys := by
  have honce : ∀ k ∈ (Spec.nested names limit).keys, List.replicate k.times k = [k] := by
    intro k hk
    obtain ⟨name, -, rfl⟩ := List.mem_map.1 hk
    rfl
  rw [occurrences, List.flatMap_congr honce, List.flatMap_singleton']

theorem Record.allChildren_nested :
    allChildren (Spec.nested names limit).keys =
      names.flatMap fun name => [.ready (.str name), .queued (.reference "node")] := by
  rw [allChildren, occurrences_nested, Spec.nested, List.flatMap_map]
  rfl

theorem Record.queuedCount_allChildren_nested :
    queuedCount (allChildren (Spec.nested names limit).keys) = names.length := by
  rw [allChildren_nested]
  induction names with
  | nil => rfl
  | cons name names ih => simpa using ih

/-- A node so many levels above the limit. The nodes below it are `b + b ^ 2 + ...`; each node is
visited once, and once more if it has children of its own. -/
theorem Engine.eval_nested {e : Engine} (hsize : e.maxSize = none)
    (hregistry : e.registry = Registry.build (.nested names limit)) (hnames : names ≠ [])
    (levels depth : Nat) (hdepth : depth + levels = limit.getD e.maxDepth) {s : Spec}
    (hs : e.registry.resolve s = .nested names limit) (scope : Option ScopeId) (p : Progress) :
    ∃ q, e.eval (levels + 1) s depth scope 0 p = some (.nested names levels, q) ∧
      p.Quiet (names.length * ∑ i ∈ Finset.range levels, names.length ^ i)
        (2 * (∑ i ∈ Finset.range levels, names.length ^ i) + names.length ^ levels)
        (names.length ^ levels) q := by
  induction levels generalizing depth s scope p with
  | zero =>
      have hdeep : e.IsTooDeep (e.registry.resolve s) depth := by
        rw [hs]
        exact Nat.le_of_eq hdepth.symm
      exact eval_of_deep 0 hdeep scope 0 p
  | succ levels ih =>
      have hdeep : ¬ e.IsTooDeep (.nested names limit) depth := by
        have hlimit : (Spec.nested names limit).maxDepth = limit := rfl
        rw [IsTooDeep, hlimit]
        omega
      have hchance : ∀ k ∈ (Spec.nested names limit).keys, k.chance = .always := by
        intro k hk
        obtain ⟨name, -, rfl⟩ := List.mem_map.1 hk
        rfl
      have hsome : Record.occurrences (Spec.nested names limit).keys ≠ [] := by
        rw [Record.occurrences_nested]
        exact mt List.map_eq_nil_iff.1 hnames
      have hnode : e.registry.resolve (.reference "node") = .nested names limit := by
        rw [hregistry]
        exact Spec.resolve_node
      have hchild := ih (depth + 1) (by omega) hnode (some p.scopes.size)
      have heach := Evaluation.exists_each
        (fun s => e.eval (levels + 1) s (depth + 1) (some p.scopes.size) 0) hchild names
      rw [← Record.allChildren_nested] at heach
      obtain ⟨q, heval, hquiet⟩ :=
        eval_record hs hsize hdeep rfl hchance hsome scope 0 (fun q _ => heach q)
      refine ⟨q, heval, ?_⟩
      rw [Record.queuedCount_allChildren_nested] at hquiet
      -- One more level puts a node on top of `b` nestings: the sum is one power longer.
      generalize hn : names.length = b at hquiet ⊢
      generalize hS : ∑ i ∈ Finset.range levels, b ^ i = total at hquiet
      have hsum : ∑ i ∈ Finset.range (levels + 1), b ^ i = b * total + 1 := by
        rw [geom_sum_succ, hS]
      have hqueued : b + b * (b * total) = b * (b * total + 1) := by ring
      have hsteps :
          b * (2 * total + b ^ levels) + 2 = 2 * (b * total + 1) + b ^ (levels + 1) := by
        ring
      rw [hsum, ← hqueued, ← hsteps, Nat.pow_succ']
      exact hquiet

end

namespace Generator

/-- For every depth limit, the generated value is the complete nesting of so many levels. -/
theorem exists_nesting (g : Generator) {names : List String} (limit : Option Nat)
    (hg : g.handlers.registered = []) (hsize : g.options.maxSize = none) (hnames : names ≠ [])
    (hdistinct : names.Nodup) {levels : Nat} (hlevels : limit.getD g.options.maxDepth = levels) :
    ∃ v report, Json.IsNesting names levels v ∧
      report.nodesQueued = ∑ i ∈ Finset.range (levels + 1), names.length ^ i ∧
      report.truncatedDepth = names.length ^ levels ∧ report.IsClean ∧
      report.steps =
        2 * (∑ i ∈ Finset.range levels, names.length ^ i) + names.length ^ levels ∧
      ∀ fuel, report.steps ≤ fuel →
        (g.withSpec (.nested names limit)).generateWithin fuel =
          some ((v, report), g.withSpec (.nested names limit)) := by
  have hdepth : 0 + levels = limit.getD (g.withSpec (.nested names limit)).engine.maxDepth := by
    rw [Nat.zero_add]
    exact hlevels.symm
  obtain ⟨q, heval, hquiet⟩ :=
    Engine.eval_nested (e := (g.withSpec (.nested names limit)).engine)
    hsize rfl hnames levels 0 hdepth Spec.resolve_nested none
    (g.withSpec (.nested names limit)).progress
  obtain ⟨report, hqueued, hsteps, hcut, hclean, hgenerate⟩ :=
    exists_report_of_quiet (g := g.withSpec (.nested names limit)) hg heval hquiet
  have hsum : 1 + names.length * ∑ i ∈ Finset.range levels, names.length ^ i =
      ∑ i ∈ Finset.range (levels + 1), names.length ^ i := by
    rw [geom_sum_succ, Nat.add_comm]
  exact ⟨_, report, Outcome.isNesting_nested hdistinct levels, hqueued.trans hsum, hcut, hclean,
    hsteps, fun fuel hfuel => hgenerate fuel (hsteps.symm.trans_le hfuel)⟩

/-- Two names in each object, three levels deep: fifteen nodes, of which eight are cut off. -/
theorem exists_nesting_of_two_names :
    chainGenerator.handlers.registered = [] ∧ chainGenerator.options.maxSize = none ∧
      ["left", "right"] ≠ [] ∧ ["left", "right"].Nodup ∧
      (none : Option Nat).getD chainGenerator.options.maxDepth = 3 ∧
      ∃ v report, Json.IsNesting ["left", "right"] 3 v ∧ report.nodesQueued = 15 ∧
        report.truncatedDepth = 8 ∧
        (chainGenerator.withSpec (.nested ["left", "right"] none)).generateWithin 22 =
          some ((v, report), chainGenerator.withSpec (.nested ["left", "right"] none)) := by
  have hnames : ["left", "right"] ≠ [] := by decide
  have hdistinct : ["left", "right"].Nodup := by decide
  obtain ⟨v, report, hnesting, hqueued, hcut, -, hsteps, hgenerate⟩ :=
    exists_nesting chainGenerator none rfl rfl hnames hdistinct rfl
  exact ⟨rfl, rfl, hnames, hdistinct, rfl, v, report, hnesting, hqueued, hcut,
    hgenerate 22 (hsteps.trans_le (by decide))⟩

end Generator

end Specimen
