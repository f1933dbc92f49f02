import Mathlib
import Specimen.Proofs.Counter.Numeral
import Specimen.Proofs.Engine.Certain
import Specimen.Proofs.Engine.Scopes
/-!
# Names that count

A record may repeat an entry whose name is an enumeration. Each repetition uses up the next
number of the record's own scope, and a conversion for whole numbers writes each of them in its
own way; so no entry replaces another, and the object has as many fields as there are repetitions
(`Generator.exists_numbered`).
-/

namespace Specimen

open Specimen.Random Regex

namespace Spec

/-- The counter of a pattern as a text. -/
def enumeration (pattern : String) : Spec where
  kind := some "string"
  method := some "enum"
  pattern := some pattern

/-- The same value each time. -/
def constant (v : Json) : Spec where
  kind := some "fixed"
  value := some v

/-- A record of one value under so many counted names. -/
def numbered (pattern : String) (v : Json) (times : Nat) : Spec where
  kind := some "record"
  keys := [⟨.generated (enumeration pattern), constant v, times, .always⟩]

end Spec

/-- The next number of a pattern in a scope. -/
def Progress.Counts (p : Progress) (i : ScopeId) (pattern : String) (n : Nat) : Prop :=
  ∃ scope, p.scopes[i]? = some scope ∧ scope.current pattern = n

theorem Evaluation.leaf_enumeration {v : Visit} {p : Progress} {i : ScopeId}
    {pattern text : String} {n : Nat} (hpattern : v.spec.pattern = some pattern)
    (hcounts : p.Counts i pattern n) (htext : Counter.format pattern n = some (.ok text)) :
    ∃ q, leaf (some i) (Leaf.enumeration v) p = some (.done (.str text), q) ∧
      p.Quiet 0 0 0 q ∧ q.Counts i pattern (n + 1) := by
  obtain ⟨scope, hscope, hcurrent⟩ := hcounts
  have happly : Leaf.enumeration v
      ⟨p.source, p.synthesizer, (some i).bind fun i => p.scopes[i]?, 0⟩ =
        some (.ok (.str text), ⟨p.source, p.synthesizer, some (scope.next pattern).2, 0⟩) := by
    have hnumber : Scope.numberIn (some scope) pattern = n := hcurrent
    rw [Leaf.enumeration_apply, Option.bind_some, hscope, hpattern, Option.getD_some, hnumber,
      htext]
    rfl
  refine ⟨_, leaf_of_ok happly, .after rfl rfl rfl (some i), (scope.next pattern).2, ?_, ?_⟩
  · show (p.scopes.modify i fun _ => (scope.next pattern).2)[i]? = _
    rw [Array.getElem?_modify, if_pos rfl, hscope]
    rfl
  · rw [Scope.current_next, if_pos rfl, hcurrent]

namespace Engine

variable {e : Engine} {depth : Nat} (hdepth : depth < e.maxDepth)
include hdepth

theorem respond_of_plain {b : Builtin} {s : Spec} (hload : s.loadRef = none)
    (hlimit : s.maxDepth = none) (hkind : Builtin.ofSpec? s = some b) (scope : Option ScopeId)
    (redirects : Nat) (p : Progress) :
    e.respond s depth scope redirects p =
      e.answer b s depth scope redirects
        { p with report := p.report.countStep.countUsage (HandlerKey.ofSpec s).label } := by
  have hresolve : e.registry.resolve s = s := Registry.resolve_of_none hload
  have hdeep : ¬ e.IsTooDeep (e.registry.resolve s) depth := by
    rw [hresolve, IsTooDeep, hlimit, Option.getD_none]
    omega
  have hrespond := respond_of_builtin scope redirects p hdeep (hresolve.symm ▸ hkind)
  rwa [hresolve] at hrespond

theorem eval_constant (fuel : Nat) (v : Json) (scope : Option ScopeId) (p : Progress) :
    ∃ q, e.eval (fuel + 1) (.constant v) depth scope 0 p = some (⟨.done, v⟩, q) ∧
      p.Quiet 0 1 0 q ∧ q.scopes = p.scopes := by
  have hrespond : e.respond (.constant v) depth scope 0 p = _ :=
    respond_of_plain hdepth rfl rfl rfl scope 0 p
  rw [answer, Evaluation.leaf_of_ok (v := v) rfl] at hrespond
  have hvisit : p.Quiet 0 1 0 { p with report := p.report.countStep.countUsage "fixed" } :=
    ⟨rfl, rfl, rfl, rfl, rfl, rfl, rfl, rfl⟩
  exact ⟨_, eval_of_settled fuel hrespond, hvisit.trans (.after rfl rfl rfl scope),
    Progress.scopes_after rfl⟩

theorem eval_enumeration (fuel : Nat) {pattern text : String} {n : Nat} {i : ScopeId}
    {p : Progress} (hcounts : p.Counts i pattern n)
    (htext : Counter.format pattern n = some (.ok text)) :
    ∃ q, e.eval (fuel + 1) (.enumeration pattern) depth (some i) 0 p =
        some (⟨.done, .str text⟩, q) ∧
      p.Quiet 0 1 0 q ∧ q.Counts i pattern (n + 1) := by
  have hrespond : e.respond (.enumeration pattern) depth (some i) 0 p = _ :=
    respond_of_plain hdepth rfl rfl rfl (some i) 0 p
  rw [answer] at hrespond
  have hvisit : p.Quiet 0 1 0 { p with report := p.report.countStep.countUsage "string/enum" } :=
    ⟨rfl, rfl, rfl, rfl, rfl, rfl, rfl, rfl⟩
  obtain ⟨q, hleaf, hquiet, hnext⟩ := Evaluation.leaf_enumeration
    (v := e.firstVisit (.enumeration pattern) depth (some i) (e.room p.report))
    (p := { p with report := p.report.countStep.countUsage "string/enum" }) rfl hcounts htext
  exact ⟨q, eval_of_settled fuel (hrespond.trans hleaf), hvisit.trans hquiet, hnext⟩

end Engine

/-! ## All repetitions -/

section Each

variable {child : Spec → Evaluation Outcome} {i : ScopeId} {pattern : String} {v : Json}
  {text : Nat → String}

/-- The names and values of repetitions, which take the next numbers one after the other. -/
theorem Evaluation.exists_each_numbered
    (hname : ∀ n (p : Progress), p.Counts i pattern n →
      ∃ q, child (.enumeration pattern) p = some (⟨.done, .str (text n)⟩, q) ∧
        p.Quiet 0 1 0 q ∧ q.Counts i pattern (n + 1))
    (hvalue : ∀ p, ∃ q, child (.constant v) p = some (⟨.done, v⟩, q) ∧
      p.Quiet 0 1 0 q ∧ q.scopes = p.scopes)
    (times : Nat) {n : Nat} {p : Progress} (hcounts : p.Counts i pattern n) :
    ∃ q, each child (List.replicate times
          [.queued (.enumeration pattern), .queued (.constant v)]).flatten p =
        some (((List.range' n times).map fun n => (text n, v)).flatMap fun f =>
          [⟨.done, .str f.1⟩, ⟨.done, f.2⟩], q) ∧
      p.Quiet 0 (2 * times) 0 q := by
  induction times generalizing n p with
  | zero => exact ⟨p, rfl, .refl p⟩
  | succ times ih =>
      obtain ⟨q, hq, hquiet, hnext⟩ := hname n p hcounts
      obtain ⟨r, hr, hquiet', hscopes⟩ := hvalue q
      have hnext' : r.Counts i pattern (n + 1) := by
        rw [Progress.Counts, hscopes]
        exact hnext
      obtain ⟨t, ht, hrest⟩ := ih hnext'
      rw [List.replicate_succ, List.flatten_cons, List.range'_succ, List.map_cons,
        List.flatMap_cons]
      refine ⟨t, ?_, ?_⟩
      · exact each_queued hq (each_queued hr ht)
      · have htwice : 1 + 1 + 2 * times = 2 * (times + 1) := by omega
        have hall := (hquiet.trans hquiet').trans hrest
        rwa [htwice] at hall

end Each

theorem Record.occurrences_numbered (pattern : String) (v : Json) (times : Nat) :
    occurrences (Spec.numbered pattern v times).keys =
      List.replicate times ⟨.generated (.enumeration pattern), .constant v, times, .always⟩ := by
  rw [Spec.numbered, occurrences, List.flatMap_singleton]

theorem Record.allChildren_numbered (pattern : String) (v : Json) (times : Nat) :
    allChildren (Spec.numbered pattern v times).keys =
      (List.replicate times
        [.queued (.enumeration pattern), .queued (.constant v)]).flatten := by
  rw [allChildren, occurrences_numbered, List.flatMap_replicate]
  rfl

theorem Record.queuedCount_allChildren_numbered (pattern : String) (v : Json) (times : Nat) :
    queuedCount (allChildren (Spec.numbered pattern v times).keys) = 2 * times := by
  rw [allChildren_numbered]
  induction times with
  | zero => rfl
  | succ times ih =>
      rw [List.replicate_succ, List.flatten_cons, queuedCount_append, ih]
      show 2 + 2 * times = 2 * (times + 1)
      omega

/-- The fields of a record of counted names. -/
def numberedFields (text : Nat → String) (v : Json) (times : Nat) : List (String × Json) :=
  (List.range times).map fun n => (text n, v)

theorem Engine.eval_numbered {e : Engine} (hsize : e.maxSize = none) (hdepth : 2 ≤ e.maxDepth)
    {pattern : String} {text : Nat → String} (v : Json) (times : Nat)
    (htext : ∀ n, Counter.format pattern n = some (.ok (text n))) (p : Progress) :
    ∃ q steps, steps ≤ 2 * times + 2 ∧
      e.eval 2 (.numbered pattern v times) 0 none 0 p =
        some (⟨.done, Json.ofFields (numberedFields text v times)⟩, q) ∧
      p.Quiet (2 * times) steps 0 q := by
  have hresolve : e.registry.resolve (.numbered pattern v times) = .numbered pattern v times :=
    Registry.resolve_of_none rfl
  have hdeep : ¬ e.IsTooDeep (.numbered pattern v times) 0 := by
    show ¬ e.maxDepth ≤ 0
    omega
  have hchance : ∀ k ∈ (Spec.numbered pattern v times).keys, k.chance = .always := by
    intro k hk
    obtain rfl := List.mem_singleton.1 hk
    rfl
  cases times with
  | zero =>
      obtain ⟨q, heval, hquiet⟩ :=
        eval_record_of_nil hresolve hsize hdeep rfl hchance 1 rfl none 0 p
      exact ⟨q, 1, by omega, heval, hquiet⟩
  | succ times =>
      have hsome : Record.occurrences (Spec.numbered pattern v (times + 1)).keys ≠ [] := by
        rw [Record.occurrences_numbered]
        exact List.cons_ne_nil _ _
      have heach : ∀ q, q.scopes = p.scopes.push {} → ∃ r, Evaluation.each
          (fun s => e.eval 1 s (0 + 1) (some p.scopes.size) 0)
          (Record.allChildren (Spec.numbered pattern v (times + 1)).keys) q =
            some ((numberedFields text v (times + 1)).flatMap fun f =>
              [⟨.done, .str f.1⟩, ⟨.done, f.2⟩], r) ∧
          q.Quiet 0 (2 * (times + 1)) 0 r := by
        intro q hq
        have hpush : q.scopes[p.scopes.size]? = some {} := by
          rw [hq]
          exact Array.getElem?_push_size
        have hcounts : q.Counts p.scopes.size pattern 0 := ⟨{}, hpush, rfl⟩
        rw [Record.allChildren_numbered, numberedFields, List.range_eq_range']
        exact Evaluation.exists_each_numbered
          (fun n p hp => eval_enumeration (by omega) 0 hp (htext n))
          (fun p => eval_constant (by omega) 0 v _ p) (times + 1) hcounts
      obtain ⟨q, heval, hquiet⟩ :=
        eval_record hresolve hsize hdeep rfl hchance hsome none 0 heach
      rw [Record.assemble_done] at heval
      rw [Record.queuedCount_allChildren_numbered] at hquiet
      exact ⟨q, _, Nat.le_refl _, heval, hquiet⟩

namespace Generator

/-- A record of counted names has a field for each repetition, under the names that the pattern
gives the counters from zero on. -/
theorem exists_numbered (g : Generator) {pattern : String} {k : Counter.Conversion} {base : Nat}
    (v : Json) (times : Nat) (hg : g.handlers.registered = []) (hsize : g.options.maxSize = none)
    (hdepth : 2 ≤ g.options.maxDepth)
    (hpattern : (Counter.pieces pattern).filter Counter.Piece.isConversion = [.conversion k])
    (hbase : k.form.base? = some base) :
    ∃ (text : Nat → String) (fields : List (String × Json)) (report : Report),
      (∀ n, Counter.format pattern n = some (.ok (text n))) ∧ text.Injective ∧
      fields.Perm ((List.range times).map fun n => (text n, v)) ∧
      report.nodesQueued = 1 + 2 * times ∧ report.truncatedDepth = 0 ∧ report.IsClean ∧
      ∀ fuel, 2 * times + 2 ≤ fuel →
        (g.withSpec (.numbered pattern v times)).generateWithin fuel =
          some ((.obj fields, report), g.withSpec (.numbered pattern v times)) := by
  obtain ⟨text, hinjective, htext⟩ := Counter.exists_injective_text hpattern hbase
  obtain ⟨q, steps, hle, heval, hquiet⟩ := Engine.eval_numbered
    (e := (g.withSpec (.numbered pattern v times)).engine) hsize hdepth v times htext
    (g.withSpec (.numbered pattern v times)).progress
  obtain ⟨report, hqueued, -, hcut, hclean, hgenerate⟩ :=
    exists_report_of_quiet (g := g.withSpec (.numbered pattern v times)) hg heval hquiet
  have hnames : ((numberedFields text v times).map Prod.fst).Nodup := by
    rw [numberedFields, List.map_map]
    exact List.nodup_range.map hinjective
  exact ⟨text, _, report, htext, hinjective, Table.perm_ofList hnames, hqueued, hcut, hclean,
    fun fuel hfuel => hgenerate fuel (hle.trans hfuel)⟩

/-- Three hundred names in hexadecimal digits, at least two of them. -/
theorem exists_numbered_hexadecimal :
    chainGenerator.handlers.registered = [] ∧ chainGenerator.options.maxSize = none ∧
      2 ≤ chainGenerator.options.maxDepth ∧
      (Counter.pieces "100%%-%#.2x").filter Counter.Piece.isConversion =
        [.conversion { alternate := true, precision := some 2, form := .hexLower }] ∧
      Counter.Form.base? .hexLower = some 16 ∧
      ∃ fields report, fields.length = 300 ∧ report.nodesQueued = 601 ∧
        (chainGenerator.withSpec (.numbered "100%%-%#.2x" .null 300)).generateWithin 602 =
          some ((.obj fields, report),
            chainGenerator.withSpec (.numbered "100%%-%#.2x" .null 300)) := by
  have hdepth : 2 ≤ chainGenerator.options.maxDepth := by decide
  have hpattern : (Counter.pieces "100%%-%#.2x").filter Counter.Piece.isConversion =
      [.conversion { alternate := true, precision := some 2, form := .hexLower }] := by
    decide
  obtain ⟨text, fields, report, -, -, hperm, hqueued, -, -, hgenerate⟩ :=
    exists_numbered chainGenerator .null 300 rfl rfl hdepth hpattern rfl
  have hlength := hperm.length_eq
  rw [List.length_map, List.length_range] at hlength
  exact ⟨rfl, rfl, hdepth, hpattern, rfl, fields, report, hlength, hqueued,
    hgenerate 602 (by decide)⟩

end Generator

end Specimen
