import Specimen.Proofs.Json.Fields
import Specimen.Proofs.Spec.FromJson
/-!
# What the fields of an object say about a description

Each field of a description that is read from an object is what the last field of its name
says. The same holds of the key declarations and options in it, so each description
directly inside is read from one part of the object; where a part is missing, it is the
empty description (`ofPart`).
-/

namespace Specimen

open Json (lastField?)

namespace Spec

/-- Assigns one field of an object to a description. -/
def assignField (s : Spec) (field : String) (v : Json) : Spec :=
  match field with
  | "keys" => { s with keys := keysOf v }
  | "type_elements" => { s with typeElements := some (ofJson v) }
  | "options" => { s with options := optionsOf v }
  | name => assignPlain s name v

theorem assignFields_eq (s : Spec) (fields : List (String × Json)) :
    assignFields s fields = fields.foldl (fun s f => assignField s f.1 f.2) s := by
  induction fields generalizing s with
  | nil => rw [assignFields]; rfl
  | cons f fields ih => exact ih (assignField s f.1 f.2)

/-- What a field of a description is after all fields of an object were assigned. -/
theorem field_ofJson {α : Type} (get : Spec → α) (name : String) (value : Json → α)
    (hown : ∀ s v, get (assignField s name v) = value v)
    (hother : ∀ s field v, field ≠ name → get (assignField s field v) = get s) (v : Json) :
    get (ofJson v) = ((v.field? name).map value).getD (get empty) := by
  cases v with
  | obj fields =>
      rw [ofJson, assignFields_eq]
      exact Json.foldl_field hown hother fields empty
  | _ => simp [ofJson, Json.field?, Json.obj?]

theorem parts_assignPlain (s : Spec) (field : String) (v : Json) :
    (assignPlain s field v).keys = s.keys ∧
      (assignPlain s field v).typeElements = s.typeElements ∧
      (assignPlain s field v).options = s.options := by
  unfold assignPlain
  split <;> exact ⟨rfl, rfl, rfl⟩

theorem keys_ofJson (v : Json) : (ofJson v).keys = ((v.field? "keys").map keysOf).getD [] := by
  refine field_ofJson keys "keys" keysOf (fun _ _ => rfl) (fun s field w hfield => ?_) v
  unfold assignField
  split
  · exact absurd rfl hfield
  · rfl
  · rfl
  · exact (parts_assignPlain s field w).1

theorem typeElements_ofJson (v : Json) :
    (ofJson v).typeElements = (v.field? "type_elements").map ofJson := by
  have hfield := field_ofJson typeElements "type_elements" (fun w => some (ofJson w))
    (fun _ _ => rfl) (fun s field w hfield => by
      unfold assignField
      split
      · rfl
      · exact absurd rfl hfield
      · rfl
      · exact (parts_assignPlain s field w).2.1) v
  rw [hfield]
  cases v.field? "type_elements" <;> rfl

theorem options_ofJson (v : Json) :
    (ofJson v).options = ((v.field? "options").map optionsOf).getD [] := by
  refine field_ofJson options "options" optionsOf (fun _ _ => rfl) (fun s field w hfield => ?_) v
  unfold assignField
  split
  · rfl
  · rfl
  · exact absurd rfl hfield
  · exact (parts_assignPlain s field w).2.2

theorem storeRef_ofJson (v : Json) :
    (ofJson v).storeRef = (v.field? "store_ref").bind Json.str? := by
  rw [field_ofJson storeRef "store_ref" Json.str? (fun _ _ => rfl)
    (fun s field w hfield => ?_) v]
  · cases v.field? "store_ref" <;> rfl
  unfold assignField
  split
  · rfl
  · rfl
  · rfl
  · unfold assignPlain
    split
    all_goals first | rfl | exact absurd rfl hfield

/-! ## Keys -/

/-- Assigns one field of an object to a key declaration. -/
def assignKeyField (k : KeyDecl Spec) (field : String) (v : Json) : KeyDecl Spec :=
  match field with
  | "name" => { k with name := nameOf v }
  | "type" => { k with value := ofJson v }
  | "repeat" => { k with times := v.nat64?.getD 0 }
  | "chance" => { k with chance := chanceOf v }
  | _ => k

theorem assignKey_eq (k : KeyDecl Spec) (fields : List (String × Json)) :
    assignKey k fields = fields.foldl (fun k f => assignKeyField k f.1 f.2) k := by
  induction fields generalizing k with
  | nil => rw [assignKey]; rfl
  | cons f fields ih => exact ih (assignKeyField k f.1 f.2)

/-- The description of a part that may be missing. -/
def ofPart (part : Option Json) : Spec := (part.map ofJson).getD empty

theorem name_assignKey (fields : List (String × Json)) :
    (assignKey blankKey fields).name =
      ((lastField? fields "name").map nameOf).getD (.generated empty) := by
  rw [assignKey_eq]
  refine Json.foldl_field (fun _ _ => rfl) (fun k field w hfield => ?_) fields blankKey
  unfold assignKeyField
  split
  · exact absurd rfl hfield
  all_goals rfl

theorem value_assignKey (fields : List (String × Json)) :
    (assignKey blankKey fields).value = ofPart (lastField? fields "type") := by
  rw [assignKey_eq]
  refine Json.foldl_field (fun _ _ => rfl) (fun k field w hfield => ?_) fields blankKey
  unfold assignKeyField
  split
  case h_2 => exact absurd rfl hfield
  all_goals rfl

/-- The name of a key, if it is not written out. -/
def namePart? (fields : List (String × Json)) : Option (Option Json) :=
  match lastField? fields "name" with
  | some (.str _) => none
  | part => some part

theorem specs_assignKey (fields : List (String × Json)) :
    (assignKey blankKey fields).specs =
      ((namePart? fields).toList ++ [lastField? fields "type"]).map ofPart := by
  rw [KeyDecl.specs, name_assignKey, value_assignKey, List.map_append]
  refine congrArg (· ++ _) ?_
  rw [namePart?]
  cases lastField? fields "name" with
  | none => rfl
  | some w => cases w <;> simp [nameOf, KeyName.specs, ofPart, ofJson]

theorem keyItems_eq (items : List Json) :
    keyItems items = (items.filterMap Json.obj?).map (assignKey blankKey) := by
  induction items with
  | nil => rw [keyItems]; rfl
  | cons item items ih => cases item <;> simp [keyItems, List.filterMap_cons, Json.obj?, ih]

end Spec

/-- The items of a field that is a list; any other field has none. -/
def Json.itemsOf (v : Json) (name : String) : List Json := ((v.field? name).bind arr?).getD []

/-- The fields of the keys that are objects. -/
def Json.keyFields (v : Json) : List (List (String × Json)) :=
  (v.itemsOf "keys").filterMap obj?

namespace Spec

theorem keys_eq_map (v : Json) : (ofJson v).keys = v.keyFields.map (assignKey blankKey) := by
  rw [keys_ofJson, Json.keyFields, Json.itemsOf]
  cases v.field? "keys" with
  | none => rfl
  | some w => cases w <;> simp [keysOf, keyItems_eq, Json.arr?]

/-! ## Options -/

/-- Assigns one field of an object to an option. -/
def assignOptionField (o : ChoiceOption Spec) (field : String) (v : Json) : ChoiceOption Spec :=
  match field with
  | "chance" => { o with chance := v.float? }
  | "type" => { o with spec := ofJson v }
  | _ => o

theorem assignOption_eq (o : ChoiceOption Spec) (fields : List (String × Json)) :
    assignOption o fields = fields.foldl (fun o f => assignOptionField o f.1 f.2) o := by
  induction fields generalizing o with
  | nil => rw [assignOption]; rfl
  | cons f fields ih => exact ih (assignOptionField o f.1 f.2)

theorem spec_assignOption (fields : List (String × Json)) :
    (assignOption ⟨none, empty⟩ fields).spec = ofPart (lastField? fields "type") := by
  rw [assignOption_eq]
  refine Json.foldl_field (fun _ _ => rfl) (fun o field w hfield => ?_) fields _
  unfold assignOptionField
  split
  · rfl
  · exact absurd rfl hfield
  · rfl

theorem map_spec_optionItems (items : List Json) :
    (optionItems items).map (·.spec) = items.map fun item => ofPart (item.field? "type") := by
  induction items with
  | nil => rw [optionItems]; rfl
  | cons item items ih =>
      cases item <;>
        simp [optionItems, ih, spec_assignOption, Json.field?, Json.obj?, ofPart]

theorem map_spec_options (v : Json) :
    (ofJson v).options.map (·.spec) =
      (v.itemsOf "options").map fun item => ofPart (item.field? "type") := by
  rw [options_ofJson, Json.itemsOf]
  cases v.field? "options" with
  | none => rfl
  | some w => cases w <;> simp [optionsOf, map_spec_optionItems, Json.arr?]

end Spec

end Specimen
