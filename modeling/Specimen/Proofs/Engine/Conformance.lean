import Mathlib
import Specimen.Proofs.Engine.Generation
import Specimen.Proofs.Engine.Turns
import Specimen.Proofs.Handler.Leaf
import Specimen.Proofs.Spec.FromJson
/-!
# Values conform to their descriptions

`Conforms` says, without any order of evaluation, what a description can come to at a depth: null
where it lies too deep, has no handler or its handler fails, and otherwise a value of its kind
with conforming values inside. `Engine.conforms_of_eval` proves it of the recursive evaluation,
by induction over the nesting, and `Generator.conforms_of_generate` of the generator.
-/

namespace Specimen

open Specimen.Random Regex

mutual

/-- The description can come to this outcome at a depth, after it was gone on to so often. -/
inductive Conforms (e : Engine) : Spec → Nat → Nat → Outcome → Prop
  | truncated {spec : Spec} {depth redirects : Nat} :
      e.IsTooDeep (e.registry.resolve spec) depth →
      Conforms e spec depth redirects ⟨.truncated, .null⟩
  | unknown {spec : Spec} {depth redirects : Nat} :
      ¬ e.IsTooDeep (e.registry.resolve spec) depth →
      Builtin.ofSpec? (e.registry.resolve spec) = none →
      Conforms e spec depth redirects ⟨.done, .null⟩
  | failed {spec : Spec} {depth redirects : Nat} {b : Builtin} :
      ¬ e.IsTooDeep (e.registry.resolve spec) depth →
      Builtin.ofSpec? (e.registry.resolve spec) = some b →
      b.CanFail e.providers (e.registry.resolve spec) →
      Conforms e spec depth redirects ⟨.done, .null⟩
  | leaf {spec : Spec} {depth redirects : Nat} {b : Builtin} {v : Json} :
      ¬ e.IsTooDeep (e.registry.resolve spec) depth →
      Builtin.ofSpec? (e.registry.resolve spec) = some b →
      Leaf.Yields e.providers (e.registry.resolve spec) b v →
      Conforms e spec depth redirects ⟨.done, v⟩
  | record {spec : Spec} {depth redirects : Nat} {fields : List (String × Json)} :
      ¬ e.IsTooDeep (e.registry.resolve spec) depth →
      Builtin.ofSpec? (e.registry.resolve spec) = some .record →
      (∀ name v, (name, v) ∈ fields →
        ConformsField e (e.registry.resolve spec).keys (depth + 1) name v) →
      Conforms e spec depth redirects ⟨.done, .obj fields⟩
  /-- Inverted bounds make an array empty; else its length lies between them, unless a size limit
  cuts it short. -/
  | array {spec : Spec} {depth redirects : Nat} {low high : Int} {outcomes : List Outcome} :
      ¬ e.IsTooDeep (e.registry.resolve spec) depth →
      Builtin.ofSpec? (e.registry.resolve spec) = some .array →
      Sequence.bounds (e.registry.resolve spec) = (low, high) →
      (high < low → outcomes = []) →
      (low ≤ high → outcomes.length ≤ high ∧ (e.maxSize = none → low ≤ outcomes.length)) →
      (∀ o ∈ outcomes,
        Conforms e ((e.registry.resolve spec).typeElements.getD .empty) (depth + 1) 0 o) →
      Conforms e spec depth redirects ⟨.done, .arr (outcomes.map (·.value))⟩
  /-- A choice without options, one whose weights the roll does not reach, or one too many. -/
  | noOption {spec : Spec} {depth redirects : Nat} :
      ¬ e.IsTooDeep (e.registry.resolve spec) depth →
      Builtin.ofSpec? (e.registry.resolve spec) = some .choice →
      ((e.registry.resolve spec).options = [] ∨ maxRedirects ≤ redirects ∨
        ∃ roll source source', Draw.percent source = some (roll, source') ∧
          Choice.select (100.0 / (e.registry.resolve spec).options.length.toFloat) roll
            (e.registry.resolve spec).options = none) →
      Conforms e spec depth redirects ⟨.done, .null⟩
  | option {spec s : Spec} {depth redirects : Nat} {roll : Float} {source source' : Source}
      {o : Outcome} : ¬ e.IsTooDeep (e.registry.resolve spec) depth →
      Builtin.ofSpec? (e.registry.resolve spec) = some .choice →
      Draw.percent source = some (roll, source') →
      Choice.select (100.0 / (e.registry.resolve spec).options.length.toFloat) roll
        (e.registry.resolve spec).options = some s →
      redirects < maxRedirects → Conforms e s depth (redirects + 1) o →
      Conforms e spec depth redirects o

/-- An entry of this name and value can stem from one of the declarations. -/
inductive ConformsField (e : Engine) : List (KeyDecl Spec) → Nat → String → Json → Prop
  | fixed {keys : List (KeyDecl Spec)} {depth : Nat} {k : KeyDecl Spec} {name : String}
      {v : Json} :
      k ∈ keys → 0 < k.times → k.name = .fixed name → Conforms e k.value depth 0 ⟨.done, v⟩ →
      ConformsField e keys depth name v
  | generated {keys : List (KeyDecl Spec)} {depth : Nat} {k : KeyDecl Spec} {s : Spec}
      {name : String} {text v : Json} :
      k ∈ keys → 0 < k.times → k.name = .generated s → Conforms e s depth 0 ⟨.done, text⟩ →
      Record.nameText? text = some name → Conforms e k.value depth 0 ⟨.done, v⟩ →
      ConformsField e keys depth name v

end

/-! ## Children -/

/-- A child has come to an outcome, which has a property where it had to be made. -/
def Child.Makes (P : Spec → Outcome → Prop) : Child → Outcome → Prop
  | .ready v, o => o = ⟨.done, v⟩
  | .queued s, o => P s o

theorem Evaluation.makes_of_each {P : Spec → Outcome → Prop} {child : Spec → Evaluation Outcome}
    {children : List Child} {p p' : Progress} {os : List Outcome}
    (hchild : ∀ s, .queued s ∈ children → ∀ q o q', child s q = some (o, q') → P s o)
    (h : each child children p = some (os, p')) :
    List.Forall₂ (Child.Makes P) children os := by
  induction children generalizing p os with
  | nil =>
      cases h
      exact .nil
  | cons c children ih =>
      have hrest : ∀ s, .queued s ∈ children → ∀ q o q', child s q = some (o, q') → P s o :=
        fun s hs => hchild s (List.mem_cons_of_mem _ hs)
      cases c with
      | ready v =>
          obtain ⟨os', u, heach, h⟩ := bind_eq_some.1 h
          cases h
          exact .cons rfl (ih hrest heach)
      | queued s =>
          obtain ⟨o, u, ho, h⟩ := bind_eq_some.1 h
          obtain ⟨os', u', heach, h⟩ := bind_eq_some.1 h
          cases h
          exact .cons (hchild s List.mem_cons_self p o u ho) (ih hrest heach)

theorem forall_of_makes_replicate {P : Spec → Outcome → Prop} {n : Nat} {s : Spec}
    {os : List Outcome} (h : List.Forall₂ (Child.Makes P) (List.replicate n (.queued s)) os) :
    os.length = n ∧ ∀ o ∈ os, P s o := by
  induction n generalizing os with
  | zero =>
      cases h
      exact ⟨rfl, by simp⟩
  | succ n ih =>
      cases h with
      | cons ho hos =>
          obtain ⟨hlength, hall⟩ := ih hos
          exact ⟨congrArg (· + 1) hlength, List.forall_mem_cons.2 ⟨ho, hall⟩⟩

theorem Record.cases_of_field? {name value : Outcome} {k : String} {v : Json}
    (h : field? name value = some (k, v)) :
    name.stage = .done ∧ value = ⟨.done, v⟩ ∧ nameText? name.value = some k := by
  obtain ⟨stage, w⟩ := value
  simp only [field?] at h
  split at h
  · rename_i hdone
    obtain ⟨hname, rfl⟩ := hdone
    obtain ⟨text, htext, hpair⟩ := Option.map_eq_some_iff.1 h
    cases hpair
    exact ⟨hname, rfl, htext⟩
  · cases h

/-- A field can stem from an entry whose name and value have come to outcomes with a property. -/
def Record.Entry.Stems (P : Spec → Outcome → Prop) (k : String) (v : Json) (entry : Entry) :
    Prop :=
  P entry.value ⟨.done, v⟩ ∧
    (entry.name = .fixed k ∨ ∃ s text, entry.name = .generated s ∧ P s ⟨.done, text⟩ ∧
      nameText? text = some k)

theorem Record.stems_of_field? {P : Spec → Outcome → Prop} {entry : Entry} {c : Child}
    {name value : Outcome} {k : String} {v : Json}
    (hc : entry.children = [c, .queued entry.value]) (hname : c.Makes P name)
    (hvalue : P entry.value value) (h : field? name value = some (k, v)) :
    entry.Stems P k v := by
  obtain ⟨hdone, rfl, htext⟩ := cases_of_field? h
  refine ⟨hvalue, ?_⟩
  obtain ⟨spec, s⟩ := entry
  cases spec with
  | fixed text =>
      simp only [Entry.children, List.cons.injEq, and_true] at hc
      rw [← hc] at hname
      cases hname
      cases htext
      exact .inl rfl
  | generated s =>
      simp only [Entry.children, List.cons.injEq, and_true] at hc
      rw [← hc] at hname
      obtain ⟨stage, text⟩ := name
      cases hdone
      exact .inr ⟨s, text, rfl, hname, htext⟩

/-- The fields of a record stem from its entries. -/
theorem Record.mem_assemble {P : Spec → Outcome → Prop} {entries : List Entry}
    {os : List Outcome} (h : List.Forall₂ (Child.Makes P) (entries.flatMap Entry.children) os)
    {k : String} {v : Json}
    (hmem : (k, v) ∈ assemble os) : ∃ entry ∈ entries, entry.Stems P k v := by
  induction entries generalizing os with
  | nil =>
      cases h
      cases hmem
  | cons entry entries ih =>
      obtain ⟨c, hc⟩ : ∃ c, entry.children = [c, .queued entry.value] := by
        obtain ⟨name, value⟩ := entry
        cases name <;> exact ⟨_, rfl⟩
      rw [List.flatMap_cons, hc] at h
      cases h with
      | cons hname h =>
          cases h with
          | cons hvalue hrest =>
              simp only [assemble, List.mem_append, Option.mem_toList] at hmem
              rcases hmem with hfield | hin
              · exact ⟨entry, List.mem_cons_self, stems_of_field? hc hname hvalue hfield⟩
              · obtain ⟨later, hlater, hstems⟩ := ih hrest hin
                exact ⟨later, List.mem_cons_of_mem _ hlater, hstems⟩

/-! ## Evaluations -/

namespace Engine

variable {e : Engine} {spec : Spec} {depth redirects : Nat} {scope : Option ScopeId}
  {p p' : Progress}

/-- A leaf handler makes a value, or null when it fails. -/
theorem conforms_of_leaf {b : Builtin} {f : Visit → Action Json} {response : Response}
    {room : Option Nat} {s : Spec}
    (hdeep : ¬ e.IsTooDeep (e.registry.resolve s) depth)
    (hkind : Builtin.ofSpec? (e.registry.resolve s) = some b) (hb : b.handler = Handler.leaf f)
    (hyields : ∀ {v : Visit} {w : Json} {s t : Supply}, f v s = some (.ok w, t) →
      Leaf.Yields v.providers v.spec b w)
    (h : Evaluation.leaf scope (f (e.firstVisit (e.registry.resolve s) depth scope room)) p =
      some (response, p')) :
    ∃ v, response = .done v ∧ Conforms e s depth redirects ⟨.done, v⟩ := by
  obtain ⟨x, supply, hcall, ⟨v, rfl, rfl, -⟩ | ⟨err, rfl, rfl, -⟩⟩ := Evaluation.leaf_eq_some h
  · have hv := hyields hcall
    exact ⟨v, rfl, .leaf hdeep hkind hv⟩
  · have hfail := Handler.leaf_apply f (e.firstVisit (e.registry.resolve s) depth scope room)
      ⟨p.source, p.synthesizer, scope.bind fun i => p.scopes[i]?, 0⟩
    rw [hcall, ← hb] at hfail
    exact ⟨.null, rfl, .failed hdeep hkind ⟨_, _, _, err, rfl, rfl, rfl, hfail⟩⟩

theorem bounds_of_isMeasured {s : Spec} (h : s.IsMeasured) :
    0 ≤ (Sequence.bounds s).1 ∧ (Sequence.bounds s).2 < int64Limit := by
  refine ⟨Int.le_max_left _ _, ?_⟩
  cases hmax : s.maxLength with
  | none =>
      simp only [Sequence.bounds, hmax, Option.getD_none]
      have := Int.min_le_right (max 0 (s.minLength.getD 0) + 4) (int64Limit - 1)
      omega
  | some n =>
      simp only [Sequence.bounds, hmax, Option.getD_some]
      exact (h n (.inr hmax)).2

/-- The length of an array is at most the drawn one, and just that without a size limit. -/
theorem length_of_between {s : Spec} (hs : s.IsMeasured) {report : Report} {length : Int}
    {source source' : Source} {kept : Nat}
    (hkept : kept = Sequence.admitted (e.room report) length.toNat)
    (hle : (Sequence.bounds s).1 ≤ (Sequence.bounds s).2)
    (h : Draw.between (Sequence.bounds s).1 (Sequence.bounds s).2 source =
      some (length, source')) :
    kept ≤ (Sequence.bounds s).2 ∧ (e.maxSize = none → (Sequence.bounds s).1 ≤ kept) := by
  subst hkept
  obtain ⟨hlow, hhigh⟩ := bounds_of_isMeasured hs
  obtain ⟨hmin, hmax⟩ := Draw.mem_of_between (by simp only [int64Limit]; omega) hle hhigh h
  have hadmitted := Sequence.admitted_le (e.room report) length.toNat
  refine ⟨by omega, fun hnone => ?_⟩
  rw [room, hnone, Option.map_none, Sequence.admitted]
  omega

theorem conforms_of_settled {o : Outcome} (hspec : (e.registry.resolve spec).IsMeasured)
    (h : e.respond spec depth scope redirects p = some (.settled o, p')) :
    Conforms e spec depth redirects o ∧ Sequence.item? o = some o.value := by
  obtain ⟨hdeep, ho, -⟩ | ⟨hdeep, hkind, ho, -⟩ | ⟨b, hdeep, hkind, h⟩ := respond_eq_some h
  · cases ho
    exact ⟨.truncated hdeep, rfl⟩
  · cases ho
    exact ⟨.unknown hdeep hkind, rfl⟩
  have hleaf : (∃ v, Response.settled o = .done v ∧ Conforms e spec depth redirects ⟨.done, v⟩) →
      Conforms e spec depth redirects o ∧ Sequence.item? o = some o.value := by
    rintro ⟨v, ho, hv⟩
    cases ho
    exact ⟨hv, rfl⟩
  cases b with
  | record =>
      obtain ⟨plan, source, -, ⟨-, ho, -⟩ | ⟨-, ho, -⟩⟩ := Evaluation.record_eq_some h
      · exact hleaf ⟨_, ho, .record hdeep hkind (by simp)⟩
      · cases ho
  | array =>
      have hempty (hordered : (Sequence.bounds (e.registry.resolve spec)).1 ≤
            (Sequence.bounds (e.registry.resolve spec)).2 →
          (0 : Int) ≤ (Sequence.bounds (e.registry.resolve spec)).2 ∧
            (e.maxSize = none → (Sequence.bounds (e.registry.resolve spec)).1 ≤ 0)) :
          Conforms e spec depth redirects ⟨.done, .arr (([] : List Outcome).map (·.value))⟩ :=
        .array hdeep hkind rfl (fun _ => rfl) hordered (by simp)
      obtain ⟨hinverted, ho, -⟩ | ⟨length, source, kept, hle, hkept, hdraw, hrest⟩ :=
        Evaluation.array_eq_some h
      · exact hleaf ⟨_, ho, hempty fun hle => absurd hle (Int.not_le.2 hinverted)⟩
      · obtain ⟨hzero, ho, -⟩ | ⟨-, ho, -⟩ := hrest
        · have hlength := length_of_between hspec hkept hle hdraw
          rw [hzero] at hlength
          exact hleaf ⟨_, ho, hempty fun _ => hlength⟩
        · cases ho
  | choice =>
      obtain ⟨hnone, ho, -⟩ | ⟨roll, source, hroll, ⟨hselect, ho, -⟩ | ⟨s, -, hs⟩⟩ :=
        Evaluation.choice_eq_some h
      · exact hleaf ⟨_, ho, .noOption hdeep hkind (.inl hnone)⟩
      · exact hleaf ⟨_, ho,
          .noOption hdeep hkind (.inr (.inr ⟨roll, _, source, hroll, hselect⟩))⟩
      · obtain ⟨hlimit, ho, -⟩ | ⟨-, ho, -⟩ := hs
        · exact hleaf ⟨_, ho, .noOption hdeep hkind (.inr (.inl hlimit))⟩
        · cases ho
  | fixed => exact hleaf (conforms_of_leaf hdeep hkind rfl Leaf.yields_fixed h)
  | boolean => exact hleaf (conforms_of_leaf hdeep hkind rfl Leaf.yields_boolean h)
  | integer => exact hleaf (conforms_of_leaf hdeep hkind rfl Leaf.yields_integer h)
  | pick => exact hleaf (conforms_of_leaf hdeep hkind rfl Leaf.yields_pick h)
  | distribution => exact hleaf (conforms_of_leaf hdeep hkind rfl Leaf.yields_distribution h)
  | text => exact hleaf (conforms_of_leaf hdeep hkind rfl Leaf.yields_text h)
  | regex => exact hleaf (conforms_of_leaf hdeep hkind rfl Leaf.yields_regex h)
  | enumeration => exact hleaf (conforms_of_leaf hdeep hkind rfl Leaf.yields_enumeration h)
  | fake => exact hleaf (conforms_of_leaf hdeep hkind rfl Leaf.yields_fake h)

theorem conforms_of_family {inner : ScopeId} {children : List Child} {os : List Outcome}
    (hspec : (e.registry.resolve spec).IsMeasured)
    (h : e.respond spec depth scope redirects p = some (.family inner children, p'))
    (hmade : List.Forall₂ (Child.Makes fun s o => Conforms e s (depth + 1) 0 o ∧
      Sequence.item? o = some o.value) children os) :
    Conforms e spec depth redirects ⟨.done, assemble (e.registry.resolve spec) os⟩ := by
  obtain ⟨-, hr, -⟩ | ⟨-, -, hr, -⟩ | ⟨b, hdeep, hkind, h⟩ := respond_eq_some h
  · cases hr
  · cases hr
  cases b with
  | record =>
      obtain ⟨plan, source, hplan, ⟨-, hr, -⟩ | ⟨-, hr, -⟩⟩ := Evaluation.record_eq_some h
      · cases hr
      · cases hr
        simp only [assemble, hkind]
        refine .record hdeep hkind fun name v hmem => ?_
        obtain ⟨entry, hentry, hvalue, hname⟩ :=
          Record.mem_assemble hmade (Table.mem_of_mem_ofList hmem)
        obtain ⟨k, hk, htimes, rfl⟩ :=
          Record.mem_entries_of_plan hplan (List.mem_reverse.1 hentry)
        rcases hname with hname | ⟨s, text, hname, htext, hscalar⟩
        · exact .fixed hk htimes hname hvalue.1
        · exact .generated hk htimes hname htext.1 hscalar hvalue.1
  | array =>
      obtain ⟨-, hr, -⟩ | ⟨length, source, kept, hle, hkept, hdraw, hrest⟩ :=
        Evaluation.array_eq_some h
      · cases hr
      · obtain ⟨-, hr, -⟩ | ⟨-, hr, -⟩ := hrest <;> cases hr
        obtain ⟨hcount, hall⟩ := forall_of_makes_replicate hmade
        have hlength := length_of_between hspec hkept hle hdraw
        rw [← hcount] at hlength
        have hitems : os.filterMap Sequence.item? = os.map (·.value) := by
          rw [List.filterMap_congr fun o ho => (hall o ho).2, ← List.filterMap_eq_map']
        simp only [assemble, hkind, hitems]
        exact .array hdeep hkind rfl (fun hinverted => absurd hle (Int.not_le.2 hinverted))
          (fun _ => hlength) fun o ho => (hall o ho).1
  | _ =>
      obtain ⟨v, hv⟩ | ⟨-, o, -, ho, -⟩ | ⟨hb, -⟩ := answer_eq_some h
      · cases hv
      · cases ho
      · simp at hb

theorem conforms_of_again {s : Spec} {o : Outcome}
    (h : e.respond spec depth scope redirects p = some (.again s, p'))
    (ho : Conforms e s depth (redirects + 1) o) : Conforms e spec depth redirects o := by
  obtain ⟨-, hr, -⟩ | ⟨-, -, hr, -⟩ | ⟨b, hdeep, hkind, h⟩ := respond_eq_some h
  · cases hr
  · cases hr
  obtain ⟨v, hv⟩ | ⟨rfl, -⟩ | ⟨-, children, hc⟩ := answer_eq_some h
  · cases hv
  · obtain ⟨-, hr, -⟩ | ⟨roll, source, hroll, ⟨-, hr, -⟩ | ⟨t, hselect, hrest⟩⟩ :=
      Evaluation.choice_eq_some h
    · cases hr
    · cases hr
    · obtain ⟨-, hr, -⟩ | ⟨hlimit, hr, -⟩ := hrest <;> cases hr
      exact .option hdeep hkind hroll hselect hlimit ho
  · cases hc

/-- What a description evaluates to conforms to it. -/
theorem conforms_of_eval (hregistry : e.registry.Everywhere Spec.IsMeasured) {fuel : Nat}
    {o : Outcome} (hspec : spec.Everywhere Spec.IsMeasured)
    (h : e.eval fuel spec depth scope redirects p = some (o, p')) :
    Conforms e spec depth redirects o ∧ Sequence.item? o = some o.value := by
  induction fuel generalizing spec depth scope redirects p o p' with
  | zero => cases h
  | succ fuel ih =>
      have hresolved := hregistry.resolve Spec.isMeasured_empty hspec
      obtain ⟨response, u, hrespond, h⟩ := Evaluation.bind_eq_some.1 h
      cases response with
      | settled o' =>
          cases h
          exact conforms_of_settled hresolved.self hrespond
      | again s =>
          obtain ⟨hs, -⟩ := mem_children_of_again hrespond
          obtain ⟨ho, hitem⟩ := ih (hresolved.child hs) h
          exact ⟨conforms_of_again hrespond ho, hitem⟩
      | family inner children =>
          obtain ⟨-, hchildren⟩ := mem_children_of_family hrespond
          obtain ⟨os, u', heach, h⟩ := Evaluation.bind_eq_some.1 h
          cases h
          refine ⟨conforms_of_family hresolved.self hrespond
            (Evaluation.makes_of_each ?_ heach), rfl⟩
          intro s hs q o q' ho
          refine ih ?_ ho
          rcases hchildren s hs with hs | rfl
          · exact hresolved.child hs
          · exact .empty Spec.isMeasured_empty

end Engine

namespace Generator

/-- Whatever the providers, the description in JSON, the options and the random words are: the
value conforms to the description at the depth of zero. -/
theorem conforms_of_generate (providers : Providers) (json : Json) (options : Options)
    (seed : Nat) (source : Source) (synthesizer : Synthesizer) {fuel : Nat} {v : Json}
    {report : Report} {g' : Generator}
    (h : ({ Generator.ofJson providers json options seed with source, synthesizer } :
      Generator).generateWithin fuel = some ((v, report), g')) :
    ∃ stage,
      Conforms (Generator.ofJson providers json options seed).engine (Spec.ofJson json) 0 0
      ⟨stage, v⟩ := by
  obtain ⟨fuel, o, p, heval, rfl, -, -⟩ := (generates_iff rfl v report g').1 ⟨fuel, h⟩
  have hmeasured := Spec.isMeasured_ofJson json
  exact ⟨o.stage,
    (Engine.conforms_of_eval (Registry.everywhere_build hmeasured) hmeasured heval).1⟩

/-- The description of a record of a list of digits and a truth value. -/
def sampleJson : Json :=
  .obj [("keys", .arr [
      .obj [("name", .str "digits"), ("type", .obj [
        ("max_length", .int 3), ("min_length", .int 1), ("type", .str "array"),
        ("type_elements", .obj [("type", .str "integer")])])],
      .obj [("name", .str "on"), ("type", .obj [
        ("type", .str "fixed"), ("value", .bool true)])]]),
    ("type", .str "record")]

theorem sampleJson_generates :
    (({ Generator.ofJson .absent sampleJson {} 0 with
        source := .tape [0, 0x80000000, 0, 0x40000000, 0, 0xC0000000]
        synthesizer := {} } : Generator).generateWithin 10).map (·.1.1) =
      some (.obj [("digits", .arr [.int 2, .int 7]), ("on", .bool true)]) := by
  cbv

theorem conforms_sampleJson :
    ∃ v report g', ({ Generator.ofJson .absent sampleJson {} 0 with
        source := .tape [0, 0x80000000, 0, 0x40000000, 0, 0xC0000000]
        synthesizer := {} } : Generator).generateWithin 10 = some ((v, report), g') ∧
      v = .obj [("digits", .arr [.int 2, .int 7]), ("on", .bool true)] ∧
      ∃ stage,
        Conforms (Generator.ofJson .absent sampleJson {} 0).engine (Spec.ofJson sampleJson) 0 0
        ⟨stage, v⟩ := by
  obtain ⟨⟨⟨v, report⟩, g'⟩, hrun, hv⟩ := Option.map_eq_some_iff.1 sampleJson_generates
  exact ⟨v, report, g', hrun, hv, conforms_of_generate .absent sampleJson {} 0 _ {} hrun⟩

def negativeArray : Json := .obj [("max_length", .int (-1)), ("type", .str "array")]

/-- An array need not keep to its greatest length: where that is negative, the array is empty. -/
theorem exceeds_negative_length :
    ∃ (items : List Json) (report : Report) (g' : Generator) (high : Int),
      (Generator.ofJson .absent negativeArray {} 0).generateWithin 1 =
          some ((.arr items, report), g') ∧
      (Spec.ofJson negativeArray).loadRef = none ∧
      Builtin.ofSpec? (Spec.ofJson negativeArray) = some .array ∧
      (Spec.ofJson negativeArray).maxLength = some high ∧ ¬ items.length ≤ high := by
  have hrun : ((Generator.ofJson .absent negativeArray {} 0).generateWithin 1).map (·.1.1) =
      some (.arr []) := by cbv
  obtain ⟨⟨⟨v, report⟩, g'⟩, hrun, rfl⟩ := Option.map_eq_some_iff.1 hrun
  exact ⟨[], report, g', -1, hrun, by cbv, by cbv, by cbv, by simp⟩

end Generator

end Specimen
