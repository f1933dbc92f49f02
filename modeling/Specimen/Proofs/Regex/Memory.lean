import Specimen.Regex.Synthesizer
/-!
# What a synthesizer remembers

A remembered tree is the one that the pattern would be read as, so a synthesis comes to the same
whatever was synthesized before. After some calls the patterns remembered are those among them
that have a tree, each once.
-/

namespace Specimen.Regex.Synthesizer

variable {check? : String → Option (String → Bool)} {s : Synthesizer} {pattern other : String}

/-- The synthesizer after a call for a pattern and a least length; one
that fails changes nothing. -/
def called (check? : String → Option (String → Bool)) (s : Synthesizer) (call : String × Nat) :
    Synthesizer :=
  match s.synthesize check? call.1 call.2 with
  | .error _ => s
  | .ok (_, s) => s

/-- The synthesizer after some calls. -/
def after (check? : String → Option (String → Bool)) (s : Synthesizer)
    (calls : List (String × Nat)) : Synthesizer := calls.foldl (called check?) s

/-- The walks of a synthesis are the same for every synthesizer. -/
theorem fst_synthesize (check? : String → Option (String → Bool)) (s t : Synthesizer)
    (pattern : String) (minLength : Nat) :
    (s.synthesize check? pattern minLength).map Prod.fst =
      (t.synthesize check? pattern minLength).map Prod.fst := by
  rw [synthesize_eq, synthesize_eq]
  cases parse pattern <;> rfl

theorem called_eq (s : Synthesizer) (call : String × Nat) :
    s.called check? call = s.remember call.1 := by
  rw [called, synthesize_eq, remember, read_eq]
  cases parse call.1 <;> rfl

theorem mem_patterns_of_lookup {tree : Construct} (h : s.trees.lookup pattern = some tree) :
    pattern ∈ s.patterns := by
  obtain ⟨before, after, hsplit, -⟩ := List.lookup_eq_some_iff.1 h
  exact List.mem_map.2 ⟨(pattern, tree), by simp [hsplit], rfl⟩

theorem mem_remember :
    other ∈ (s.remember pattern).patterns ↔
      other ∈ s.patterns ∨ (other = pattern ∧ ∃ tree, parse pattern = .ok tree) := by
  unfold remember read
  split
  · rename_i herror
    split at herror
    · cases herror
    · split at herror
      · rename_i hread
        simp [hread]
      · cases herror
  · rename_i tree t hok
    split at hok
    · rename_i hseen
      cases hok
      have hmem := mem_patterns_of_lookup hseen
      constructor
      · exact .inl
      · rintro (h | ⟨rfl, -⟩)
        · exact h
        · exact hmem
    · split at hok
      · cases hok
      · rename_i hread
        cases hok
        simp [insert, patterns, hread, or_comm]

/-- After some calls, the remembered patterns are those of before and those
called for that have a tree. -/
theorem mem_after (s : Synthesizer) (calls : List (String × Nat)) :
    other ∈ (s.after check? calls).patterns ↔
      other ∈ s.patterns ∨ (other ∈ calls.map Prod.fst ∧ ∃ tree, parse other = .ok tree) := by
  induction calls generalizing s with
  | nil => simp [after]
  | cons call calls ih =>
      rw [after, List.foldl_cons, ← after, ih, called_eq, mem_remember, List.map_cons,
        List.mem_cons]
      constructor
      · rintro ((h | ⟨rfl, h⟩) | ⟨hmem, h⟩)
        · exact .inl h
        · exact .inr ⟨.inl rfl, h⟩
        · exact .inr ⟨.inr hmem, h⟩
      · rintro (h | ⟨rfl | hmem, h⟩)
        · exact .inl (.inl h)
        · exact .inl (.inr ⟨rfl, h⟩)
        · exact .inr ⟨hmem, h⟩

end Specimen.Regex.Synthesizer
