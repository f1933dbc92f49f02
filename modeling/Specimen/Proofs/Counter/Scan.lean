import Mathlib.Data.List.Basic
import Specimen.Proofs.Counter.Spelling
/-!
# What a pattern formats to

A pattern is scanned from left to right: where a spelling of a conversion begins it is taken
as a whole, and any other character stands for itself (`Scan`). A counter can be formatted if
and only if just one of the spellings is not that of a percent sign, the counter is the code
of a character where that is asked for, and there are no more places after a point than can
be written; then this spelling is replaced by the text of the counter, the others by a
percent sign, and all else is left as it is (`formatting`). Text whose percent signs are
doubled is written as it was.
-/

namespace Specimen.Counter

/-- A piece of a pattern as it is written there. -/
inductive Segment where
  | char (c : Char)
  | spelled (k : Spelling)

/-- A scan of a text from left to right. -/
inductive Scan : List Char → List Segment → Prop
  | nil : Scan [] []
  | spelled (k : Spelling) {cs : List Char} {segments : List Segment} : Scan cs segments →
      Scan (k.text ++ cs) (.spelled k :: segments)
  | char {c : Char} {cs : List Char} {segments : List Segment} :
      (∀ k : Spelling, ¬ k.text <+: c :: cs) → Scan cs segments →
      Scan (c :: cs) (.char c :: segments)

namespace Segment

def piece : Segment → Piece
  | char c => .char c
  | spelled k => k.piece

/-- The conversion in a segment, if it is one and no percent sign. -/
def conversion? : Segment → Option Spelling
  | char _ => none
  | spelled k => if k.letter = '%' then none else some k

/-- What becomes of a segment where the counter has some text. -/
def filled (text : String) : Segment → String
  | char c => c.toString
  | spelled k => if k.letter = '%' then "%" else text

end Segment

/-- The conversions among some segments. -/
def conversions (segments : List Segment) : List Spelling := segments.filterMap (·.conversion?)

/-- The text of some segments where the counter has some text. -/
def filled (text : String) (segments : List Segment) : String :=
  String.join (segments.map (·.filled text))

/-! ## Scans -/

theorem piecesAfter_append (cs rest : List Char) :
    piecesAfter cs.length (cs ++ rest) = piecesAfter 0 rest := by
  induction cs with
  | nil => rfl
  | cons c cs ih =>
      rw [List.length_cons, List.cons_append, piecesAfter]
      exact ih

theorem piecesAfter_of_scan {cs : List Char} {segments : List Segment} (h : Scan cs segments) :
    piecesAfter 0 cs = segments.map (·.piece) := by
  induction h with
  | nil => rfl
  | @spelled k cs segments _ ih =>
      have hfound := k.conversionAt_tail cs
      rw [Spelling.text, List.cons_append, piecesAfter, if_pos rfl, hfound]
      dsimp only
      rw [piecesAfter_append, ih]
      rfl
  | @char c cs segments hnone _ ih =>
      rw [piecesAfter, ih]
      by_cases hc : c = '%'
      · subst hc
        rw [if_pos rfl, conversionAt_eq_none hnone]
        rfl
      · rw [if_neg hc]
        rfl

/-- Every text can be scanned. -/
theorem exists_scan (cs : List Char) : ∃ segments, Scan cs segments := by
  -- The induction is on the length because a spelling takes several characters at once.
  induction hn : cs.length using Nat.strongRecOn generalizing cs with
  | ind n ih =>
      cases cs with
      | nil => exact ⟨[], .nil⟩
      | cons c cs =>
          by_cases hfound : ∃ k : Spelling, k.text <+: c :: cs
          · obtain ⟨k, rest, hrest⟩ := hfound
            have hlt : rest.length < n := by
              have hlength := congrArg List.length hrest
              rw [List.length_append, Spelling.text, List.length_cons, hn] at hlength
              omega
            obtain ⟨segments, hscan⟩ := ih rest.length hlt rest rfl
            rw [← hrest]
            exact ⟨_, .spelled k hscan⟩
          · have hlt : cs.length < n := by
              rw [← hn, List.length_cons]
              omega
            obtain ⟨segments, hscan⟩ := ih cs.length hlt cs rfl
            exact ⟨_, .char (not_exists.1 hfound) hscan⟩

/-! ## Formatting -/

section Format

variable {segments : List Segment} {n : Nat}

theorem Spelling.piece_eq_percent {k : Spelling} (h : k.letter = '%') : k.piece = .percent := by
  unfold piece
  rw [h, ofLetter?_percent]

theorem Spelling.exists_piece_eq {k : Spelling} (h : k.letter ≠ '%') :
    ∃ conversion, k.piece = .conversion conversion ∧
      ∀ n, k.render? n = conversion.render? n := by
  obtain ⟨form, hform⟩ := exists_ofLetter? h
  refine ⟨k.conversion form, ?_, fun n => ?_⟩
  · unfold piece
    rw [hform]
  · unfold render?
    rw [hform]
    rfl

namespace Segment

variable {segment : Segment} {k : Spelling}

theorem conversion?_eq_some :
    segment.conversion? = some k ↔ segment = .spelled k ∧ k.letter ≠ '%' := by
  cases segment with
  | char c => simp [conversion?]
  | spelled k' =>
      by_cases hpercent : k'.letter = '%'
      · simp only [conversion?, hpercent, if_true, spelled.injEq]
        constructor
        · exact nofun
        · rintro ⟨rfl, hne⟩
          exact absurd hpercent hne
      · simp only [conversion?, hpercent, if_false, Option.some.injEq, spelled.injEq]
        constructor
        · rintro rfl
          exact ⟨rfl, hpercent⟩
        · exact And.left

theorem conversion?_eq_none :
    segment.conversion? = none ↔ ∀ k, segment = .spelled k → k.letter = '%' := by
  cases segment with
  | char c => simp [conversion?]
  | spelled k => simp [conversion?]

/-- A segment that is no conversion has the same text for every counter. -/
theorem render?_of_none (h : segment.conversion? = none) (n : Nat) (text : String) :
    segment.piece.render? n = some (segment.filled text) := by
  cases segment with
  | char c => rfl
  | spelled k =>
      have hpercent := conversion?_eq_none.1 h k rfl
      simp [piece, filled, hpercent, Spelling.piece_eq_percent, Piece.render?]

theorem render?_of_some (h : segment.conversion? = some k) (n : Nat) :
    segment.piece.render? n = k.render? n := by
  obtain ⟨rfl, hletter⟩ := conversion?_eq_some.1 h
  obtain ⟨conversion, hpiece, hrender⟩ := Spelling.exists_piece_eq hletter
  rw [piece, hpiece, hrender]
  rfl

theorem filled_of_some (h : segment.conversion? = some k) (text : String) :
    segment.filled text = text := by
  obtain ⟨rfl, hletter⟩ := conversion?_eq_some.1 h
  exact if_neg hletter

theorem isConversion_piece (segment : Segment) :
    segment.piece.isConversion = segment.conversion?.isSome := by
  cases hconversion : segment.conversion? with
  | none =>
      cases segment with
      | char c => rfl
      | spelled k =>
          rw [piece, Spelling.piece_eq_percent (conversion?_eq_none.1 hconversion k rfl)]
          rfl
  | some k =>
      obtain ⟨rfl, hletter⟩ := conversion?_eq_some.1 hconversion
      obtain ⟨conversion, hpiece, -⟩ := Spelling.exists_piece_eq hletter
      rw [piece, hpiece]
      rfl

end Segment

/-- The conversions among the segments are those that are counted. -/
theorem countP_isConversion (segments : List Segment) :
    (segments.map (·.piece)).countP Piece.isConversion = (conversions segments).length := by
  unfold conversions
  rw [List.countP_map, List.length_filterMap_eq_countP]
  apply List.countP_congr
  intro segment _
  rw [Function.comp_apply, segment.isConversion_piece]

/-- The first piece without a text is the first conversion without one. -/
theorem find?_piece (segments : List Segment) (n : Nat) :
    (segments.map (·.piece)).find? (fun p => (p.render? n).isNone) =
      ((conversions segments).find? fun k => (k.render? n).isNone).map (·.piece) := by
  induction segments with
  | nil => rfl
  | cons segment segments ih =>
      unfold conversions at ih ⊢
      rw [List.map_cons, List.find?_cons, List.filterMap_cons, ih]
      cases hconversion : segment.conversion? with
      | none => rw [Segment.render?_of_none hconversion n ""]; rfl
      | some k =>
          obtain ⟨rfl, -⟩ := Segment.conversion?_eq_some.1 hconversion
          rw [Segment.render?_of_some hconversion, List.find?_cons]
          cases (k.render? n).isNone <;> rfl

/-- The texts of the pieces where all the conversions have the same text. -/
theorem filterMap_render?_eq {text : String}
    (h : ∀ k ∈ conversions segments, k.render? n = some text) :
    (segments.map (·.piece)).filterMap (Piece.render? n) = segments.map (·.filled text) := by
  have heach : ∀ segment ∈ segments,
      (Piece.render? n ∘ Segment.piece) segment = some (segment.filled text) := by
    intro segment hsegment
    cases hconversion : segment.conversion? with
    | none => exact Segment.render?_of_none hconversion n text
    | some k =>
        rw [Segment.filled_of_some hconversion, ← h k (List.mem_filterMap.2
          ⟨segment, hsegment, hconversion⟩)]
        exact Segment.render?_of_some hconversion n
  rw [List.filterMap_map, List.filterMap_congr heach, List.filterMap_eq_map']

/-- Only a conversion to a character is complained about. -/
theorem Spelling.complaint?_piece {k : Spelling} (h : k.letter ≠ '%') (pattern : String)
    (n : Nat) : k.piece.complaint? pattern n =
      if k.letter = 'c' then some (.notCharacter pattern n) else none := by
  obtain ⟨form, hform⟩ := exists_ofLetter? h
  have hcharacter : form = .character ↔ k.letter = 'c' := by
    rw [← ofLetter?_eq_character, hform, Option.some.injEq]
  simp [piece, hform, Piece.complaint?, conversion, hcharacter]

theorem ne_percent_of_mem_conversions {k : Spelling} (h : k ∈ conversions segments) :
    k.letter ≠ '%' := by
  obtain ⟨segment, -, hsegment⟩ := List.mem_filterMap.1 h
  exact (Segment.conversion?_eq_some.1 hsegment).2

section Pattern

variable {pattern : String} (hscan : Scan pattern.toList segments)
include hscan

/-- Formatting in terms of what is spelled in the pattern. -/
theorem format_eq : format pattern n =
    ((conversions segments).find? fun k => (k.render? n).isNone).elim
      (some (if (conversions segments).length = 1 then
          .ok (String.join ((segments.map (·.piece)).filterMap (Piece.render? n)))
        else .error (.conversionCount pattern (conversions segments).length)))
      fun k => if k.letter = 'c' then some (.error (.notCharacter pattern n)) else none := by
  have hpieces : pieces pattern = segments.map (·.piece) := piecesAfter_of_scan hscan
  simp only [format, hpieces, countP_isConversion, find?_piece]
  cases hfind : (conversions segments).find? fun k => (k.render? n).isNone with
  | none => rfl
  | some k =>
      have hletter := ne_percent_of_mem_conversions (List.mem_of_find?_eq_some hfind)
      simp only [Option.map_some, Option.elim_some, Spelling.complaint?_piece hletter]
      split <;> rfl

/-- A pattern formats a counter if its one conversion has a text for it. -/
theorem format_eq_ok_iff {text : String} :
    format pattern n = some (.ok text) ↔
      ∃ k middle, conversions segments = [k] ∧ k.render? n = some middle ∧
        text = filled middle segments := by
  rw [format_eq hscan]
  constructor
  · intro h
    cases hfind : (conversions segments).find? fun k => (k.render? n).isNone with
    | some k =>
        rw [hfind, Option.elim_some] at h
        split at h <;> cases h
    | none =>
        rw [hfind, Option.elim_none] at h
        by_cases hone : (conversions segments).length = 1
        · obtain ⟨k, hk⟩ := List.length_eq_one_iff.1 hone
          have hsome : k.render? n ≠ none := by
            simpa using List.find?_eq_none.1 hfind k (by simp [hk])
          obtain ⟨middle, hmiddle⟩ := Option.ne_none_iff_exists'.1 hsome
          have hall : ∀ k' ∈ conversions segments, k'.render? n = some middle := by
            simpa [hk] using hmiddle
          rw [if_pos hone, filterMap_render?_eq hall] at h
          cases h
          exact ⟨k, middle, hk, hmiddle, rfl⟩
        · rw [if_neg hone] at h
          cases h
  · rintro ⟨k, middle, hk, hmiddle, rfl⟩
    have hall : ∀ k' ∈ conversions segments, k'.render? n = some middle := by
      simpa [hk] using hmiddle
    have hfind : (conversions segments).find? (fun k => (k.render? n).isNone) = none := by
      simp [hk, hmiddle]
    rw [hfind, Option.elim_none, filterMap_render?_eq hall, if_pos (by rw [hk]; rfl)]
    rfl

/-- There is no answer where the first conversion without a text asks for too many places. -/
theorem format_eq_none_iff :
    format pattern n = none ↔
      ∃ before k after, conversions segments = before ++ k :: after ∧
        (∀ b ∈ before, (b.render? n).isSome) ∧ (k.letter = 'f' ∨ k.letter = 'F') ∧
        maxPlaces < k.places := by
  rw [format_eq hscan]
  constructor
  · intro h
    cases hfind : (conversions segments).find? fun k => (k.render? n).isNone with
    | none => simp [hfind] at h
    | some k =>
        have hletter := ne_percent_of_mem_conversions (List.mem_of_find?_eq_some hfind)
        obtain ⟨hnone, before, after, hsplit, hbefore⟩ := List.find?_eq_some_iff_append.1 hfind
        have hsome := Spelling.isSome_render? hletter n
        simp only [hfind, Option.elim_some, ite_eq_right_iff, reduceCtorEq, imp_false] at h
        rw [← Option.not_isSome, Bool.not_eq_true'] at hnone
        simp only [hnone, Bool.false_eq_true, h, false_implies, true_and, false_iff,
          Classical.not_imp, Nat.not_le] at hsome
        exact ⟨before, k, after, hsplit, by simpa [Option.isSome_iff_ne_none] using hbefore,
          hsome⟩
  · rintro ⟨before, k, after, hsplit, hbefore, hletter, hplaces⟩
    have hne : k.letter ≠ '%' ∧ k.letter ≠ 'c' := by
      rcases hletter with hletter | hletter <;> rw [hletter] <;> decide
    have hnone : (k.render? n).isNone = true := by
      rw [← Option.not_isSome, Bool.not_eq_true', ← Bool.not_eq_true,
        Spelling.isSome_render? hne.1 n]
      exact fun h => Nat.not_lt.2 (h.2 hletter) hplaces
    have hfind : (conversions segments).find? (fun k => (k.render? n).isNone) = some k :=
      List.find?_eq_some_iff_append.2
        ⟨hnone, before, after, hsplit, by simpa [Option.isSome_iff_ne_none] using hbefore⟩
    rw [hfind, Option.elim_some, if_neg hne.2]

end Pattern

end Format

/-! ## Doubled percent signs -/

/-- A text with each percent sign written twice. -/
def doubled (cs : List Char) : List Char :=
  cs.flatMap fun c => if c = '%' then ['%', '%'] else [c]

/-- The spelling of a percent sign without anything between. -/
def percentSign : Spelling where
  flags := []
  width := []
  precision := none
  letter := '%'
  isFlag_flags := nofun
  isDigit_width := nofun
  isDigit_precision := nofun
  letter_mem := by decide

/-- The segment that a character is scanned as once its percent sign is doubled. -/
def segmentOf (c : Char) : Segment := if c = '%' then .spelled percentSign else .char c

theorem scan_doubled (cs : List Char) {rest : List Char} {segments : List Segment}
    (h : Scan rest segments) : Scan (doubled cs ++ rest) (cs.map segmentOf ++ segments) := by
  unfold doubled
  induction cs with
  | nil => exact h
  | cons c cs ih =>
      rw [List.flatMap_cons, List.map_cons, List.append_assoc, List.cons_append, segmentOf]
      by_cases hc : c = '%'
      · rw [if_pos hc, if_pos hc]
        exact .spelled percentSign ih
      · rw [if_neg hc, if_neg hc]
        refine .char (fun k hk => hc ?_) ih
        exact (List.cons_prefix_cons.1 hk).1.symm

theorem conversions_append (front back : List Segment) :
    conversions (front ++ back) = conversions front ++ conversions back :=
  List.filterMap_append

theorem filled_append (text : String) (front back : List Segment) :
    filled text (front ++ back) = filled text front ++ filled text back := by
  unfold filled
  rw [List.map_append, String.join_append]

theorem conversions_segmentOf (cs : List Char) : conversions (cs.map segmentOf) = [] := by
  unfold conversions
  rw [List.filterMap_eq_nil_iff]
  intro segment hsegment
  obtain ⟨c, -, rfl⟩ := List.mem_map.1 hsegment
  unfold segmentOf
  split <;> rfl

theorem filled_segmentOf (text s : String) : filled text (s.toList.map segmentOf) = s := by
  have hchar : ∀ c, (segmentOf c).filled text = c.toString := by
    intro c
    unfold segmentOf
    split
    · rename_i hc
      rw [hc]
      rfl
    · rfl
  apply String.toList_injective
  unfold filled
  rw [String.toList_join, List.map_map, List.flatMap_map]
  simp [hchar]

/-! ## Patterns -/

/-- Every pattern can be scanned, and it formats a counter if and only if it has one conversion,
the counter is a character where that is asked for, and there are not too many places after a
point. The conversion is replaced by the text of the counter, what is spelled with the letter of
a percent sign by one, and all else stays as it is. There is no answer if the first conversion
without a text asks for too many places, and an error in all other cases. Any text can stand
before and after a conversion once its percent signs are doubled. -/
theorem formatting (n : Nat) :
    (∀ pattern : String, ∃ segments, Scan pattern.toList segments) ∧
      (∀ (pattern : String) (segments : List Segment), Scan pattern.toList segments →
        ((∃ text, format pattern n = some (.ok text)) ↔
          ∃ k, conversions segments = [k] ∧ (k.letter = 'c' → n.isValidChar) ∧
            (k.letter = 'f' ∨ k.letter = 'F' → k.places ≤ maxPlaces)) ∧
        (∀ text, format pattern n = some (.ok text) →
          ∃ k middle, conversions segments = [k] ∧ k.render? n = some middle ∧
            text = filled middle segments) ∧
        (format pattern n = none ↔
          ∃ before k after, conversions segments = before ++ k :: after ∧
            (∀ b ∈ before, (b.render? n).isSome) ∧ (k.letter = 'f' ∨ k.letter = 'F') ∧
            maxPlaces < k.places)) ∧
      ∀ (s t : String) (k : Spelling) (middle : String), k.render? n = some middle →
        format (String.ofList (doubled s.toList ++ k.text ++ doubled t.toList)) n =
          some (.ok (s ++ middle ++ t)) := by
  refine ⟨fun pattern => exists_scan _, fun pattern segments hscan => ⟨⟨?_, ?_⟩, fun text h =>
    (format_eq_ok_iff hscan).1 h, format_eq_none_iff hscan⟩, ?_⟩
  · rintro ⟨text, h⟩
    obtain ⟨k, middle, hk, hmiddle, -⟩ := (format_eq_ok_iff hscan).1 h
    refine ⟨k, hk, (Spelling.isSome_render? (Spelling.ne_percent_of_render? hmiddle) n).1 ?_⟩
    rw [hmiddle]
    rfl
  · rintro ⟨k, hk, hrenders⟩
    have hmem : k ∈ conversions segments := by simp [hk]
    have hletter := ne_percent_of_mem_conversions hmem
    have hsome := (Spelling.isSome_render? hletter n).2 hrenders
    obtain ⟨middle, hmiddle⟩ := Option.isSome_iff_exists.1 hsome
    exact ⟨_, (format_eq_ok_iff hscan).2 ⟨k, middle, hk, hmiddle, rfl⟩⟩
  · intro s t k middle hmiddle
    have hletter := Spelling.ne_percent_of_render? hmiddle
    have hback := scan_doubled t.toList .nil
    have hscan := scan_doubled s.toList (.spelled k hback)
    rw [List.append_nil, List.append_nil, ← List.append_assoc] at hscan
    rw [← String.toList_ofList (l := doubled s.toList ++ k.text ++ doubled t.toList)] at hscan
    refine (format_eq_ok_iff hscan).2 ⟨k, middle, ?_, hmiddle, ?_⟩
    · rw [← List.singleton_append, conversions_append, conversions_append, conversions_segmentOf,
        conversions_segmentOf]
      simp [conversions, Segment.conversion?, hletter]
    · rw [← List.singleton_append, filled_append, filled_append, filled_segmentOf,
        filled_segmentOf, String.append_assoc]
      simp [filled, Segment.filled, hletter]

/-- A percent sign with a width. -/
def widePercent : Spelling where
  flags := []
  width := ['5']
  precision := none
  letter := '%'
  isFlag_flags := nofun
  isDigit_width := by simp [Text.isDecimalDigit]
  isDigit_precision := nofun
  letter_mem := by decide

/-- Digits of which there are at least three, after a blank instead of a sign. -/
def blankDecimal : Spelling where
  flags := [' ']
  width := []
  precision := some ['3']
  letter := 'd'
  isFlag_flags := by simp [isFlag]
  isDigit_width := nofun
  isDigit_precision := by simp [Text.isDecimalDigit]
  letter_mem := by decide

theorem formatting_blankDecimal :
    Scan "%5%é% .3d".toList [.spelled widePercent, .char 'é', .spelled blankDecimal] ∧
      format "%5%é% .3d" 7 = some (.ok "%é 007") ∧
      format "100%%% .3d%%d" 7 = some (.ok "100% 007%d") := by
  have hrender : blankDecimal.render? 7 = some " 007" := rfl
  have hscan : Scan "%5%é% .3d".toList
      [.spelled widePercent, .char 'é', .spelled blankDecimal] := by
    refine .spelled widePercent (.char (fun k hk => ?_) (.spelled blankDecimal .nil))
    exact absurd (List.cons_prefix_cons.1 hk).1 (by decide)
  obtain ⟨-, hscanned, hdoubled⟩ := formatting 7
  refine ⟨hscan, ?_, hdoubled "100%" "%d" blankDecimal " 007" hrender⟩
  obtain ⟨hsome, htext, -⟩ := hscanned _ _ hscan
  obtain ⟨text, h⟩ := hsome.2 ⟨blankDecimal, rfl, by decide, by decide⟩
  obtain ⟨k, middle, hk, hmiddle, rfl⟩ := htext text h
  obtain rfl : blankDecimal = k := (List.cons.inj hk).1
  cases hrender.symm.trans hmiddle
  exact h

/-- One place more after the point than can be written. -/
def finestFixed : Spelling where
  flags := []
  width := []
  precision := some ['6', '5', '5', '3', '6']
  letter := 'f'
  isFlag_flags := nofun
  isDigit_width := nofun
  isDigit_precision := by simp [Text.isDecimalDigit]
  letter_mem := by decide

/-- One conversion, and not to a character, is not enough for an answer. -/
theorem unanswered_finestFixed :
    Scan "%.65536f".toList [.spelled finestFixed] ∧
      (∃ k, conversions [.spelled finestFixed] = [k] ∧ (k.letter = 'c' → Nat.isValidChar 1)) ∧
      format "%.65536f" 1 = none ∧ ¬ ∃ text, format "%.65536f" 1 = some (.ok text) := by
  have hscan : Scan "%.65536f".toList [.spelled finestFixed] := .spelled finestFixed .nil
  have hnone : format "%.65536f" 1 = none :=
    (format_eq_none_iff hscan).2 ⟨[], finestFixed, [], rfl, by simp, .inl rfl, by decide⟩
  refine ⟨hscan, ⟨finestFixed, rfl, by decide⟩, hnone, ?_⟩
  rintro ⟨text, htext⟩
  rw [hnone] at htext
  cases htext

end Specimen.Counter
