import Mathlib.Data.List.Nodup
import Specimen.Proofs.Spec.Fields
import Specimen.Proofs.Spec.Graft
/-!
# The places for descriptions in a JSON value

A place is reached from the value by steps, each to a part of an object that is read as a
description: the elements, the name or the value of a key, an option. `Json.sites` lists all
places in preorder, those included whose part is missing. Reading takes this list to the
preorder of the description (`Spec.preorder_ofJson`), so a walk comes to every place once,
and the names of the registry are those that the objects in these places store themselves
under (`Registry.collected`).
-/

namespace Specimen

open Spec (Step)
open Json (lastField?)

namespace Json

/-- What stands in the place that a step leads to. -/
def part? (v : Json) : Step → Option Json
  | .element => v.field? "type_elements"
  | .name i => v.keyFields[i]?.bind fun key =>
      (lastField? key "name").filter fun w => w.str?.isNone
  | .value i => v.keyFields[i]?.bind fun key => lastField? key "type"
  | .option i => (v.itemsOf "options")[i]?.bind fun item => item.field? "type"

/-- What stands in a place. -/
def specAt? (v : Json) : List Step → Option Json
  | [] => some v
  | step :: path => (v.part? step).bind fun w => specAt? w path

/-- A place, and what stands there if the part is not missing. -/
structure Site where
  path : List Step
  value : Option Json

namespace Site

/-- The description that is read from a site. -/
def spec (s : Site) : Spec := Spec.ofPart s.value

def inside (step : Step) (s : Site) : Site := ⟨step :: s.path, s.value⟩

end Site

/-- The sites of a key: its name, if that is not written out, and its value. -/
def keySites (key : List (String × Json)) (i : Nat) : List (Step × Option Json) :=
  (Spec.namePart? key).toList.map (.name i, ·) ++ [(.value i, lastField? key "type")]

/-- The sites directly inside, in their order. -/
def innerSites (v : Json) : List (Step × Option Json) :=
  (v.field? "type_elements").toList.map (fun w => (.element, some w)) ++
    v.keyFields.zipIdx.flatMap (fun key => keySites key.1 key.2) ++
      (v.itemsOf "options").zipIdx.map fun item => (.option item.2, item.1.field? "type")

theorem mem_keySites {key : List (String × Json)} {i : Nat} {step : Step} {w : Json} :
    (step, some w) ∈ keySites key i ↔
      (step = .name i ∧ (lastField? key "name").filter (fun w => w.str?.isNone) = some w) ∨
        (step = .value i ∧ lastField? key "type" = some w) := by
  have hname : (Spec.namePart? key).join =
      (lastField? key "name").filter fun w => w.str?.isNone := by
    rw [Spec.namePart?]
    cases lastField? key "name" with
    | none => rfl
    | some u => cases u <;> rfl
  rw [← hname, Option.join_eq_some_iff]
  simp only [keySites, List.mem_append, List.mem_map, List.mem_singleton, Option.mem_toList,
    Prod.mk.injEq]
  grind

theorem mem_innerSites {v w : Json} {step : Step} :
    (step, some w) ∈ v.innerSites ↔ v.part? step = some w := by
  simp only [innerSites, List.mem_append, List.mem_map, List.mem_flatMap, Prod.exists,
    List.mem_zipIdx_iff_getElem?, mem_keySites, Option.mem_toList]
  cases step <;> simp [part?, Option.bind_eq_some_iff]

theorem sizeOf_lt_of_lastField? {fields : List (String × Json)} {name : String} {w : Json}
    (h : lastField? fields name = some w) : sizeOf w < sizeOf (Json.obj fields) :=
  Spec.sizeOf_lt_of_mem_obj (mem_of_lastField? h)

theorem sizeOf_lt_of_field? {v w : Json} {name : String} (h : v.field? name = some w) :
    sizeOf w < sizeOf v := by
  cases v with
  | obj fields => exact sizeOf_lt_of_lastField? h
  | _ => cases h

theorem sizeOf_lt_of_mem_itemsOf {v w : Json} {name : String} (h : w ∈ v.itemsOf name) :
    sizeOf w < sizeOf v := by
  rw [itemsOf] at h
  cases hfield : v.field? name with
  | none => simp [hfield] at h
  | some u =>
      rw [hfield] at h
      cases u with
      | arr items =>
          have hitem := List.sizeOf_lt_of_mem (show w ∈ items from h)
          have hlist := sizeOf_lt_of_field? hfield
          rw [arr.sizeOf_spec] at hlist
          omega
      | _ => cases h

theorem sizeOf_lt_of_part? {v w : Json} {step : Step} (h : v.part? step = some w) :
    sizeOf w < sizeOf v := by
  have hkey : ∀ {i : Nat} {key : List (String × Json)} {name : String},
      v.keyFields[i]? = some key → lastField? key name = some w → sizeOf w < sizeOf v := by
    intro i key name hkey hfield
    obtain ⟨item, hitem, hobj⟩ := List.mem_filterMap.1 (List.mem_of_getElem? hkey)
    have hlt := sizeOf_lt_of_lastField? hfield
    cases item with
    | obj fields =>
        cases hobj
        exact Nat.lt_trans hlt (sizeOf_lt_of_mem_itemsOf hitem)
    | _ => cases hobj
  cases step with
  | element => exact sizeOf_lt_of_field? h
  | name i =>
      obtain ⟨key, hi, h⟩ := Option.bind_eq_some_iff.1 h
      exact hkey hi (Option.filter_eq_some_iff.1 h).1
  | value i =>
      obtain ⟨key, hi, h⟩ := Option.bind_eq_some_iff.1 h
      exact hkey hi h
  | option i =>
      obtain ⟨item, hi, h⟩ := Option.bind_eq_some_iff.1 h
      exact Nat.lt_trans (sizeOf_lt_of_field? h)
        (sizeOf_lt_of_mem_itemsOf (List.mem_of_getElem? hi))

theorem step_of_mem_keySites {key : List (String × Json)} {i : Nat} {step : Step}
    (h : step ∈ (keySites key i).map (·.1)) : step = .name i ∨ step = .value i := by
  obtain ⟨site, hsite, rfl⟩ := List.mem_map.1 h
  rcases List.mem_append.1 hsite with hname | hvalue
  · obtain ⟨part, -, rfl⟩ := List.mem_map.1 hname
    exact .inl rfl
  · obtain rfl := List.mem_singleton.1 hvalue
    exact .inr rfl

theorem pairwise_zipIdx {α : Type} (l : List α) : l.zipIdx.Pairwise fun x y => x.2 ≠ y.2 := by
  rw [← List.pairwise_map, List.zipIdx_map_snd]
  exact List.nodup_range'

theorem nodup_keySites (keys : List (List (String × Json))) :
    ((keys.zipIdx.flatMap fun x => keySites x.1 x.2).map (·.1)).Nodup := by
  rw [List.map_flatMap, List.nodup_flatMap]
  refine ⟨fun x _ => ?_, (pairwise_zipIdx keys).imp fun {x y} hne step hx hy => hne ?_⟩
  · cases h : Spec.namePart? x.1 <;> simp [keySites, h]
  · have hx := step_of_mem_keySites hx
    have hy := step_of_mem_keySites hy
    grind

/-- Different sites directly inside are reached by different steps. -/
theorem nodup_innerSites (v : Json) : (v.innerSites.map (·.1)).Nodup := by
  have helement : (((v.field? "type_elements").toList.map fun w =>
      (Step.element, some w)).map (·.1)).Nodup := by
    cases v.field? "type_elements" <;> simp
  have hoptions : (((v.itemsOf "options").zipIdx.map fun x =>
      (Step.option x.2, x.1.field? "type")).map (·.1)).Nodup := by
    rw [List.map_map]
    exact List.pairwise_map.2
      ((pairwise_zipIdx _).imp fun hne hsame => hne (Step.option.inj hsame))
  rw [innerSites, List.map_append, List.map_append]
  refine (helement.append (nodup_keySites v.keyFields) ?keys).append hoptions ?options
  case keys =>
      intro step helement hkey
      rw [List.map_flatMap] at hkey
      obtain ⟨x, -, hkey⟩ := List.mem_flatMap.1 hkey
      rcases step_of_mem_keySites hkey with rfl | rfl <;> simp at helement
  case options =>
      intro step hinner hoption
      simp only [List.map_map, List.mem_map, Function.comp] at hoption
      obtain ⟨x, -, rfl⟩ := hoption
      rcases List.mem_append.1 hinner with helement | hkey
      · simp at helement
      · rw [List.map_flatMap] at hkey
        obtain ⟨y, -, hkey⟩ := List.mem_flatMap.1 hkey
        rcases step_of_mem_keySites hkey with h | h <;> cases h

/-- The descriptions directly inside are read from the sites directly
inside, in the same order. -/
theorem map_ofPart_innerSites (v : Json) :
    v.innerSites.map (fun site => Spec.ofPart site.2) = (Spec.ofJson v).children := by
  have hkeys : (v.keyFields.zipIdx.flatMap fun key => keySites key.1 key.2).map
      (fun site => Spec.ofPart site.2) = (Spec.ofJson v).keys.flatMap KeyDecl.specs := by
    rw [Spec.keys_eq_map, List.map_flatMap, List.flatMap_map]
    conv_rhs => rw [← List.zipIdx_map_fst 0 v.keyFields, List.flatMap_map]
    refine congrArg (List.flatMap · _) (funext fun key => ?_)
    simp [Spec.specs_assignKey, keySites]
  have hoptions : ((v.itemsOf "options").zipIdx.map fun item =>
        (Step.option item.2, item.1.field? "type")).map (fun site => Spec.ofPart site.2) =
      (Spec.ofJson v).options.map (·.spec) := by
    rw [Spec.map_spec_options, List.map_map]
    conv_rhs => rw [← List.zipIdx_map_fst 0 (v.itemsOf "options"), List.map_map]
    rfl
  rw [innerSites, List.map_append, List.map_append, hkeys, hoptions, Spec.children,
    Spec.typeElements_ofJson]
  cases v.field? "type_elements" <;> rfl

/-- The sites of a value in preorder. -/
def sites (v : Json) : List Site :=
  ⟨[], some v⟩ :: v.innerSites.attach.flatMap fun ⟨(step, part), hmem⟩ =>
    match part, hmem with
    | none, _ => [⟨[step], none⟩]
    | some w, _ => (sites w).map (.inside step)
termination_by sizeOf v
decreasing_by
  rename_i hmem
  exact sizeOf_lt_of_part? (mem_innerSites.1 hmem)

/-- The sites inside a part; a missing one is a site itself. -/
def sitesAt (step : Step) (part : Option Json) : List Site :=
  part.elim [⟨[step], none⟩] fun w => w.sites.map (.inside step)

theorem sites_eq (v : Json) :
    v.sites = ⟨[], some v⟩ :: v.innerSites.flatMap fun (step, part) => sitesAt step part := by
  rw [sites]
  refine congrArg (_ :: ·) ?_
  conv_rhs => rw [← List.attach_map_subtype_val v.innerSites, List.flatMap_map]
  refine congrArg (List.flatMap · _) (funext fun ⟨(step, part), hmem⟩ => ?_)
  cases part <;> rfl

theorem induction_sites {P : Json → Prop}
    (h : ∀ v : Json, (∀ step w, (step, some w) ∈ v.innerSites → P w) → P v) (v : Json) :
    P v := by
  induction hn : sizeOf v using Nat.strongRecOn generalizing v with
  | ind n ih =>
      exact h v fun step w hw => ih _ (hn ▸ sizeOf_lt_of_part? (mem_innerSites.1 hw)) w rfl

theorem mem_sitesAt {step : Step} {part : Option Json} {site : Site} :
    site ∈ sitesAt step part ↔
      (part = none ∧ site = ⟨[step], none⟩) ∨
        ∃ w inner, part = some w ∧ inner ∈ w.sites ∧ site = inner.inside step := by
  cases part <;> simp [sitesAt, eq_comm]

/-- The sites with a value are the places where one stands. -/
theorem mem_sites {v w : Json} {path : List Step} :
    ⟨path, some w⟩ ∈ v.sites ↔ v.specAt? path = some w := by
  induction v using induction_sites generalizing path with
  | h v ih =>
      rw [sites_eq, List.mem_cons, List.mem_flatMap]
      cases path with
      | nil =>
          simp [mem_sitesAt, specAt?, Site.inside, eq_comm]
      | cons step path =>
          rw [specAt?, Option.bind_eq_some_iff]
          constructor
          · rintro (h | ⟨⟨step', part⟩, hsite, hmem⟩)
            · cases h
            · obtain ⟨-, h⟩ | ⟨u, ⟨path, part⟩, rfl, hinner, h⟩ := mem_sitesAt.1 hmem <;> cases h
              exact ⟨u, mem_innerSites.1 hsite, (ih _ u hsite).1 hinner⟩
          · rintro ⟨u, hu, hinner⟩
            have hmem := mem_innerSites.2 hu
            have hinside := (ih step u hmem).2 hinner
            exact .inr ⟨_, hmem, mem_sitesAt.2 (.inr ⟨u, _, rfl, hinside, rfl⟩)⟩

theorem head_of_mem_sitesAt {step : Step} {part : Option Json} {path : List Step}
    (h : path ∈ (sitesAt step part).map (·.path)) : path.head? = some step := by
  obtain ⟨site, hsite, rfl⟩ := List.mem_map.1 h
  obtain ⟨-, rfl⟩ | ⟨w, inner, -, -, rfl⟩ := mem_sitesAt.1 hsite <;> rfl

/-- No place is listed twice. -/
theorem nodup_sites (v : Json) : (v.sites.map (·.path)).Nodup := by
  induction v using induction_sites with
  | h v ih =>
      rw [sites_eq, List.map_cons, List.nodup_cons, List.map_flatMap, List.nodup_flatMap]
      refine ⟨fun hmem => ?_, fun (step, part) hsite => ?_, ?_⟩
      · obtain ⟨site, -, hpath⟩ := List.mem_flatMap.1 hmem
        cases head_of_mem_sitesAt hpath
      · cases part with
        | none => exact List.nodup_singleton _
        | some w =>
            have hpaths : (sitesAt step (some w)).map (·.path) =
                (w.sites.map (·.path)).map (step :: ·) := by
              simp only [sitesAt, Option.elim_some, List.map_map]
              rfl
            exact hpaths ▸ (ih step w hsite).map List.cons_injective
      · refine (List.pairwise_map.1 (nodup_innerSites v)).imp fun {x y} hne path hx hy => hne ?_
        have hhead := (head_of_mem_sitesAt hx).symm.trans (head_of_mem_sitesAt hy)
        exact Option.some.inj hhead

end Json

/-- Reading takes the sites of a value to the preorder of its description. -/
theorem Spec.preorder_ofJson (v : Json) :
    (ofJson v).preorder = v.sites.map Json.Site.spec := by
  induction v using Json.induction_sites with
  | h v ih =>
      rw [preorder_eq, ← Json.map_ofPart_innerSites, Json.sites_eq, List.map_cons,
        List.flatMap_map, List.map_flatMap]
      refine congrArg (_ :: ·) (List.flatMap_congr fun (step, part) hpart => ?_)
      cases part with
      | none => rfl
      | some w =>
          refine (ih step w hpart).trans ?_
          simp only [Json.sitesAt, Option.elim_some, List.map_map]
          rfl

namespace Json

/-- The name that an object stores itself under. -/
def storeName? (w : Json) : Option String := (w.field? "store_ref").bind str?

/-- The last place in preorder where an object stands that stores itself under a name. -/
def lastStoring? (v : Json) (name : String) : Option Json :=
  (v.sites.filterMap (·.value)).reverse.find? fun w => w.storeName? = some name

theorem mem_values {v w : Json} :
    w ∈ v.sites.filterMap (·.value) ↔ ∃ path, v.specAt? path = some w := by
  rw [List.mem_filterMap]
  constructor
  · rintro ⟨⟨path, part⟩, hsite, rfl⟩
    exact ⟨path, mem_sites.1 hsite⟩
  · rintro ⟨path, hpath⟩
    exact ⟨⟨path, some w⟩, mem_sites.2 hpath, rfl⟩

theorem isSome_lastStoring? {v : Json} {name : String} :
    (v.lastStoring? name).isSome ↔
      ∃ path w, v.specAt? path = some w ∧ w.storeName? = some name := by
  rw [lastStoring?, List.find?_isSome]
  simp only [List.mem_reverse, mem_values, decide_eq_true_eq]
  exact ⟨fun ⟨w, ⟨path, hpath⟩, hname⟩ => ⟨path, w, hpath, hname⟩,
    fun ⟨path, w, hpath, hname⟩ => ⟨w, ⟨path, hpath⟩, hname⟩⟩

end Json

/-- What is stored inside a description that was read: the objects in its places that have a name
to store themselves under. A place whose part is missing stores nothing. -/
theorem Spec.bindings_ofJson (v : Json) :
    (ofJson v).bindings =
      (v.sites.filterMap (·.value)).filterMap fun w => w.storeName?.map (·, ofJson w) := by
  rw [bindings, preorder_ofJson, List.filterMap_map, List.filterMap_filterMap]
  refine List.filterMap_congr fun site _ => ?_
  obtain ⟨path, part⟩ := site
  cases part with
  | none => rfl
  | some w => exact congrArg (Option.map _) (storeRef_ofJson w)

namespace Registry

theorem get?_build_ofJson (v : Json) (name : String) :
    (build (.ofJson v)).get? name = (v.lastStoring? name).map .ofJson := by
  have hlookup : ∀ ws : List Json,
      (ws.filterMap fun w => w.storeName?.map (·, Spec.ofJson w)).lookup name =
        (ws.find? fun w => w.storeName? = some name).map .ofJson := by
    intro ws
    induction ws with
    | nil => rfl
    | cons w ws ih =>
        rw [List.filterMap_cons, List.find?_cons]
        cases hstore : w.storeName? with
        | none => exact ih
        | some stored =>
            by_cases hname : stored = name
            · simp [hname]
            · simp [hname, List.lookup_cons, beq_eq_false_iff_ne.2 (Ne.symm hname), ih]
  rw [get?, Spec.entries_build, Table.get?_ofList, Spec.bindings_ofJson,
    ← List.filterMap_reverse,
    hlookup, Json.lastStoring?]

/-- What a registry collects from the places for descriptions in a value. -/
structure Collected (v : Json) : Prop where
  /-- The walk comes to the descriptions of all places, in preorder. -/
  visits : Spec.walk [.ofJson v] = v.sites.map Json.Site.spec
  /-- It comes to no place twice. -/
  once : (v.sites.map (·.path)).Nodup
  /-- The places with a value are those that the steps of a path lead to. -/
  places : ∀ path w, ⟨path, some w⟩ ∈ v.sites ↔ v.specAt? path = some w
  /-- The names are those that the objects in the places store themselves under. -/
  names : ∀ name, name ∈ (build (.ofJson v)).names ↔
    ∃ path w, v.specAt? path = some w ∧ w.storeName? = some name
  /-- A name is bound to the description of the last such object. -/
  bound : ∀ name, (build (.ofJson v)).get? name = (v.lastStoring? name).map .ofJson

/-- The registry of a description has exactly the names that are stored in its places, each bound
to the last place in preorder that stores it. -/
theorem collected (v : Json) : Collected v where
  visits := by rw [Spec.walk_singleton, Spec.preorder_ofJson]
  once := v.nodup_sites
  places _ _ := Json.mem_sites
  names name := by
    have hnames : name ∈ (build (.ofJson v)).names ↔
        ((build (.ofJson v)).get? name).isSome := by
      rw [Option.isSome_iff_exists]
      exact Table.mem_names
    rw [hnames, get?_build_ofJson, Option.isSome_map, Json.isSome_lastStoring?]
  bound := get?_build_ofJson v

end Registry

end Specimen
