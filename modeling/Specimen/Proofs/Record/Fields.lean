import Specimen.Handler.Record
import Specimen.Proofs.Table
/-!
# The fields of a record

What a record puts together from its children. An entry becomes a field if its name and its value
are both done; where all names differ, every field that goes into an object is there in the end.
-/

namespace Specimen

namespace Record

theorem assemble_cons (name value : Outcome) (rest : List Outcome) :
    assemble (name :: value :: rest) = (field? name value).toList ++ assemble rest := rfl

/-- Names and values that are all done give just their fields. -/
theorem assemble_done (fields : List (String × Json)) :
    assemble (fields.flatMap fun f => [⟨.done, .str f.1⟩, ⟨.done, f.2⟩]) = fields := by
  induction fields with
  | nil => rfl
  | cons f fields ih =>
      have hfield : field? ⟨.done, .str f.1⟩ ⟨.done, f.2⟩ = some f := rfl
      rw [List.flatMap_cons, List.cons_append, List.cons_append, List.nil_append, assemble_cons,
        hfield, ih]
      rfl

/-- No value that was cut off gets into a field. -/
theorem assemble_truncated (names : List String) (v : Json) :
    assemble (names.flatMap fun name => [⟨.done, .str name⟩, ⟨.truncated, v⟩]) = [] := by
  induction names with
  | nil => rfl
  | cons name names ih =>
      rw [List.flatMap_cons, List.cons_append, List.cons_append, List.nil_append,
        assemble_cons, ih]
      rfl

end Record

end Specimen
