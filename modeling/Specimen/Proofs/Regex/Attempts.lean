import Specimen.Regex.Synthesizer
/-!
# The first good text of some walks

A synthesis walks through the tree of its pattern again and again, each time from where the
source was left by the walk before. It ends with the first text that is good, that is long enough
and passes the check of the pattern, or with the last of two hundred texts if none of them is
(`search_eq_some_iff`), and leaves the source where that walk left it. So a text that is not good
is made only where two hundred walks in a row made none (`synthesize_eq_some_iff`).
-/

namespace Specimen.Regex

open Specimen.Random

/-- The text of a walk and the source after it; each walk begins
where the one before it ended. -/
def walkAt (tree : Construct) (s : Source) : Nat → Option (String × Source)
  | 0 => candidate tree s
  | i + 1 => (walkAt tree s i).bind fun last => candidate tree last.2

/-- A text that is long enough and passes the check, if there is one. -/
def IsGood (check : Option (String → Bool)) (minLength : Nat) (text : String) : Prop :=
  minLength ≤ text.length ∧ ∀ passes ∈ check, passes text = true

/-- A walk among the first `count` whose text is the first good one,
or the last where none is. -/
structure IsChosen (good : String → Prop) (walk : Nat → Option (String × Source)) (count i : Nat)
    (result : String × Source) : Prop where
  lt : i < count
  walk_eq : walk i = some result
  rejected : ∀ j < i, ∃ other, walk j = some other ∧ ¬ good other.1
  stops : good result.1 ∨ i + 1 = count

theorem acceptable_iff {check : Option (String → Bool)} {minLength : Nat} {text : String} :
    acceptable check minLength text = true ↔ IsGood check minLength text := by
  unfold acceptable IsGood
  rw [Bool.and_eq_true, decide_eq_true_iff]
  cases check <;> simp

section Walks

variable {tree : Construct} {s u : Source} {first : String}

/-- After the first walk the others are those from the source that it left. -/
theorem walkAt_succ (h : candidate tree s = some (first, u)) (i : Nat) :
    walkAt tree s (i + 1) = walkAt tree u i := by
  induction i with
  | zero =>
      calc
        walkAt tree s 1 = (candidate tree s).bind fun last => candidate tree last.2 := rfl
        _ = candidate tree u := by rw [h, Option.bind_some]
  | succ i ih =>
      calc
        walkAt tree s (i + 2) = (walkAt tree s (i + 1)).bind fun last => candidate tree last.2 :=
          rfl
        _ = walkAt tree u (i + 1) := by
          rw [ih]
          rfl

theorem exists_candidate_of_walkAt {i : Nat} {result : String × Source}
    (h : walkAt tree s i = some result) : ∃ u u', candidate tree u = some (result.1, u') := by
  cases i with
  | zero => exact ⟨s, result.2, h⟩
  | succ i =>
      obtain ⟨last, -, h⟩ := Option.bind_eq_some_iff.1 h
      exact ⟨last.2, result.2, h⟩

variable {good : String → Prop} {count i : Nat} {result : String × Source}

/-- The first walk is chosen if its text is good or if it is the only one. -/
theorem isChosen_zero (h : candidate tree s = some result) :
    IsChosen good (walkAt tree s) (count + 1) 0 result ↔ good result.1 ∨ count = 0 := by
  constructor
  · intro hchosen
    apply hchosen.stops.imp_right
    omega
  · intro hstops
    refine ⟨Nat.succ_pos count, h, fun j hj => absurd hj (Nat.not_lt_zero j), ?_⟩
    apply hstops.imp_right
    omega

/-- A later walk is chosen if the first is rejected and it is chosen among those that follow. -/
theorem isChosen_succ (h : candidate tree s = some (first, u)) :
    IsChosen good (walkAt tree s) (count + 1) (i + 1) result ↔
      ¬ good first ∧ IsChosen good (walkAt tree u) count i result := by
  constructor
  · intro hchosen
    have hfirst : ¬ good first := by
      obtain ⟨other, hother, hbad⟩ := hchosen.rejected 0 (Nat.succ_pos i)
      have hsame : some (first, u) = some other := h.symm.trans hother
      cases hsame
      exact hbad
    refine ⟨hfirst, Nat.lt_of_succ_lt_succ hchosen.lt, ?_, fun j hj => ?_, ?_⟩
    · rw [← walkAt_succ h]
      exact hchosen.walk_eq
    · rw [← walkAt_succ h]
      exact hchosen.rejected (j + 1) (Nat.succ_lt_succ hj)
    · apply hchosen.stops.imp_right
      omega
  · rintro ⟨hfirst, hchosen⟩
    refine ⟨Nat.succ_lt_succ hchosen.lt, ?_, fun j hj => ?_, ?_⟩
    · rw [walkAt_succ h]
      exact hchosen.walk_eq
    · cases j with
      | zero => exact ⟨(first, u), h, hfirst⟩
      | succ j =>
          rw [walkAt_succ h]
          exact hchosen.rejected j (Nat.lt_of_succ_lt_succ hj)
    · apply hchosen.stops.imp_right
      omega

/-- A search ends with the text of the chosen walk and leaves the
source where that walk left it. -/
theorem search_eq_some_iff {accept : String → Bool} {last : String} (hcount : 0 < count) :
    search accept tree count last s = some result ↔
      ∃ i, IsChosen (accept · = true) (walkAt tree s) count i result := by
  -- One walk is made and the rest is the search from the source after it; the text carried along
  -- is made only where no walk is left, so it may be any.
  induction count generalizing s last with
  | zero => omega
  | succ count ih =>
      have hsearch : search accept tree (count + 1) last s = some result ↔
          ∃ first u, candidate tree s = some (first, u) ∧
            (if accept first then pure first
              else search accept tree count first : Draw String) u =
              some result := Draw.bind_eq_some
      rw [hsearch]
      constructor
      · rintro ⟨first, u, hfirst, h⟩
        split at h
        · rename_i hgood
          obtain ⟨rfl, rfl⟩ := Draw.pure_eq_some.1 h
          exact ⟨0, (isChosen_zero hfirst).2 (.inl hgood)⟩
        · rename_i hbad
          rcases Nat.eq_zero_or_pos count with rfl | hpos
          · obtain ⟨rfl, rfl⟩ := Draw.pure_eq_some.1 h
            exact ⟨0, (isChosen_zero hfirst).2 (.inr rfl)⟩
          · obtain ⟨i, hi⟩ := (ih hpos).1 h
            exact ⟨i + 1, (isChosen_succ hfirst).2 ⟨hbad, hi⟩⟩
      · rintro ⟨i, hchosen⟩
        cases i with
        | zero =>
            have hfirst : candidate tree s = some result := hchosen.walk_eq
            refine ⟨result.1, result.2, hfirst, ?_⟩
            split
            · rfl
            · rename_i hbad
              obtain rfl := ((isChosen_zero hfirst).1 hchosen).resolve_left hbad
              rfl
        | succ i =>
            obtain ⟨⟨first, u⟩, hfirst, -⟩ := hchosen.rejected 0 (Nat.succ_pos i)
            have hfirst : candidate tree s = some (first, u) := hfirst
            obtain ⟨hbad, hi⟩ := (isChosen_succ hfirst).1 hchosen
            refine ⟨first, u, hfirst, ?_⟩
            rw [if_neg hbad]
            exact (ih (Nat.zero_lt_of_lt hi.lt)).2 ⟨i, hi⟩

end Walks

/-- A synthesis makes the first good text of two hundred walks through the tree of
the pattern, or the last text if none is good, and takes from the source what the
walks up to that one take. -/
theorem synthesize_eq_some_iff {pattern : String} {tree : Construct}
    (hparse : parse pattern = .ok tree) (check? : String → Option (String → Bool))
    (synthesizer : Synthesizer) (minLength : Nat) :
    ∃ draw, synthesizer.synthesize check? pattern minLength =
        .ok (draw, synthesizer.remember pattern) ∧
      (∀ s result, draw s = some result ↔
        ∃ i, IsChosen (IsGood (check? pattern) minLength) (walkAt tree s) 200 i result) ∧
      ∀ s text t, draw s = some (text, t) → ¬ IsGood (check? pattern) minLength text →
        ∀ i < 200, ∃ other, walkAt tree s i = some other ∧
          ¬ IsGood (check? pattern) minLength other.1 := by
  have hgood : (acceptable (check? pattern) minLength · = true) =
      IsGood (check? pattern) minLength := funext fun _ => propext acceptable_iff
  have hsearch : ∀ s result,
      search (acceptable (check? pattern) minLength) tree attempts "" s = some result ↔
        ∃ i, IsChosen (IsGood (check? pattern) minLength) (walkAt tree s) 200 i result := by
    intro s result
    rw [← hgood]
    exact search_eq_some_iff (by decide)
  refine ⟨_, by rw [Synthesizer.synthesize_eq, hparse]; rfl, hsearch, ?_⟩
  intro s text t h hbad i hi
  obtain ⟨last, hlast⟩ := (hsearch s _).1 h
  have hend : last + 1 = 200 := hlast.stops.resolve_left hbad
  rcases Nat.lt_or_ge i last with hlt | hge
  · exact hlast.rejected i hlt
  · obtain rfl : i = last := by omega
    exact ⟨_, hlast.walk_eq, hbad⟩

/-- The check wants the second letter, which the second of two words draws. -/
theorem synthesize_second :
    parse "[ab]" = .ok (.charClass false [.char 'a', .char 'b']) ∧
      walkAt (.charClass false [.char 'a', .char 'b']) (.tape [0, 0xffffffff]) 0 =
        some ("a", .tape [0xffffffff]) ∧
      ∃ draw, Synthesizer.synthesize (fun _ => some (· == "b")) {} "[ab]" 1 =
          .ok (draw, Synthesizer.remember {} "[ab]") ∧
        draw (.tape [0, 0xffffffff]) = some ("b", .tape []) := by
  have hparse : parse "[ab]" = .ok (.charClass false [.char 'a', .char 'b']) := rfl
  have hfirst : candidate (.charClass false [.char 'a', .char 'b']) (.tape [0, 0xffffffff]) =
      some ("a", .tape [0xffffffff]) := by
    rw [candidate, write, writeConstruct]
    rfl
  have hsecond : candidate (.charClass false [.char 'a', .char 'b']) (.tape [0xffffffff]) =
      some ("b", .tape []) := by
    rw [candidate, write, writeConstruct]
    rfl
  obtain ⟨draw, hdraw, hiff, -⟩ :=
    synthesize_eq_some_iff hparse (fun _ => some (· == "b")) {} 1
  have hwalk := (walkAt_succ hfirst 0).trans hsecond
  refine ⟨hparse, hfirst, draw, hdraw, (hiff _ _).2 ⟨1, by decide, hwalk, fun j hj => ?_, ?_⟩⟩
  · obtain rfl : j = 0 := by omega
    refine ⟨_, hfirst, fun hgood => ?_⟩
    have hpass := hgood.2 _ rfl
    simp at hpass
  · exact .inl ⟨by decide, by simp⟩

end Specimen.Regex
