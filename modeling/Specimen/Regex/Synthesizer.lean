import Specimen.Regex.Reader
import Specimen.Regex.Writer
/-!
# Synthesis of matching text

A synthesizer walks the tree of a pattern up to 200 times and returns the first text that is long
enough and passes the check of the pattern; after that the last one. The check is a parameter: a
pattern without one is bound by the length alone. The trees of patterns are remembered; a pattern
that cannot be read is not.
-/

namespace Specimen.Regex

/-- How many texts are tried. -/
def attempts : Nat := 200

/-- The first acceptable text of so many walks, else the last; `last` is the one before them. -/
def search (accept : String → Bool) (c : Construct) : Nat → String → Draw String
  | 0, last => pure last
  | n + 1, _ => do
    let text ← candidate c
    if accept text then pure text else search accept c n text

/-- Whether a text is long enough and passes the check, if there is one. -/
def acceptable (check : Option (String → Bool)) (minLength : Nat) (text : String) : Bool :=
  minLength ≤ text.length && (check.all fun passes => passes text)

theorem isTree_nil : ∀ entry ∈ ([] : List (String × Construct)), parse entry.1 = .ok entry.2 :=
  List.forall_mem_nil _

/-- The patterns that have been read, each once, with their trees. -/
structure Synthesizer where
  trees : List (String × Construct) := []
  isTree : ∀ entry ∈ trees, parse entry.1 = .ok entry.2 := by
    exact Specimen.Regex.isTree_nil
  nodup : (trees.map (·.1)).Nodup := by exact List.nodup_nil

namespace Synthesizer

def patterns (s : Synthesizer) : List String := s.trees.map (·.1)

/-- How many patterns have been read. -/
def size (s : Synthesizer) : Nat := s.trees.length

theorem not_mem_patterns {s : Synthesizer} {pattern : String}
    (h : s.trees.lookup pattern = none) : pattern ∉ s.patterns := by
  intro hmem
  obtain ⟨entry, hentry, rfl⟩ := List.mem_map.1 hmem
  exact absurd (List.lookup_eq_none_iff.1 h entry hentry) (by simp)

/-- Remembers a new pattern with its tree. -/
def insert (s : Synthesizer) (pattern : String) (tree : Construct)
    (htree : parse pattern = .ok tree) (hnew : s.trees.lookup pattern = none) : Synthesizer where
  trees := (pattern, tree) :: s.trees
  isTree := List.forall_mem_cons.2 ⟨htree, s.isTree⟩
  nodup := List.nodup_cons.2 ⟨not_mem_patterns hnew, s.nodup⟩

/-- The tree of a pattern: the remembered one, else one that is read and remembered now. -/
def read (s : Synthesizer) (pattern : String) : Except PatternError (Construct × Synthesizer) :=
  match hseen : s.trees.lookup pattern with
  | some tree => .ok (tree, s)
  | none =>
    match hread : parse pattern with
    | .error e => .error e
    | .ok tree => .ok (tree, s.insert pattern tree hread hseen)

/-- The synthesizer after a pattern has been read; one without a tree is not remembered. -/
def remember (s : Synthesizer) (pattern : String) : Synthesizer :=
  match s.read pattern with
  | .error _ => s
  | .ok (_, s) => s

/-- A text for a pattern of at least `minLength` characters, if the walks make one. -/
def synthesize (check? : String → Option (String → Bool)) (s : Synthesizer) (pattern : String)
    (minLength : Nat) : Except PatternError (Draw String × Synthesizer) :=
  match s.read pattern with
  | .error e => .error e
  | .ok (tree, s) =>
    .ok (search (acceptable (check? pattern) minLength) tree attempts "", s)

theorem parse_of_lookup {s : Synthesizer} {pattern : String} {tree : Construct}
    (h : s.trees.lookup pattern = some tree) : parse pattern = .ok tree := by
  obtain ⟨before, after, hsplit, -⟩ := List.lookup_eq_some_iff.1 h
  exact s.isTree (pattern, tree) (by simp [hsplit])

theorem parse_of_read {s t : Synthesizer} {pattern : String} {tree : Construct}
    (h : s.read pattern = .ok (tree, t)) : parse pattern = .ok tree := by
  unfold read at h
  split at h
  · rename_i hseen
    cases h
    exact parse_of_lookup hseen
  · split at h
    · cases h
    · rename_i hread
      cases h
      exact hread

theorem parse_of_read_error {s : Synthesizer} {pattern : String} {e : PatternError}
    (h : s.read pattern = .error e) : parse pattern = .error e := by
  unfold read at h
  split at h
  · cases h
  · split at h
    · rename_i hread
      cases h
      exact hread
    · cases h

/-- What has been read before makes no difference to the tree of a pattern. -/
theorem read_eq (s : Synthesizer) (pattern : String) :
    s.read pattern = (parse pattern).map fun tree => (tree, s.remember pattern) := by
  rw [remember]
  cases h : s.read pattern with
  | error e =>
    rw [parse_of_read_error h]
    rfl
  | ok x =>
    rw [parse_of_read h]
    rfl

theorem synthesize_eq (check? : String → Option (String → Bool)) (s : Synthesizer)
    (pattern : String) (minLength : Nat) :
    s.synthesize check? pattern minLength = (parse pattern).map fun tree =>
      (search (acceptable (check? pattern) minLength) tree attempts "", s.remember pattern) := by
  rw [synthesize, read_eq]
  cases parse pattern <;> rfl

end Synthesizer

end Specimen.Regex
