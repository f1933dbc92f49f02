import Mathlib.Data.List.TakeWhile
import Specimen.Counter.Conversion
import Specimen.Proofs.Regex.Assembly
/-!
# How conversions are spelled

A conversion is spelled as a percent sign, some flags, the digits of a width, a point with the
digits of a precision, and a letter; all but the first and the last may be missing. A zero is
both a flag and a digit, and what stands before the width counts as a flag as far as it can.
`conversionAt` finds the spelling that begins at a place and what it stands for
(`conversionAt_tail`), and where it finds something a spelling begins (`exists_spelling`).
-/

namespace Specimen.Counter

open Regex (span_append_cons)

/-- The letters of conversions; the percent sign is the letter of a doubled percent sign. -/
def letters : List Char := ['d', 'i', 'o', 'u', 'x', 'X', 'f', 'F', 'c', 'r', 's', '%']

/-- A conversion as it is spelled. -/
structure Spelling where
  flags : List Char
  width : List Char
  /-- The digits after the point, if there is one. -/
  precision : Option (List Char)
  letter : Char
  isFlag_flags : ∀ c ∈ flags, isFlag c = true
  isDigit_width : ∀ c ∈ width, Text.isDecimalDigit c = true
  isDigit_precision : ∀ ds ∈ precision, ds ≠ [] ∧ ∀ c ∈ ds, Text.isDecimalDigit c = true
  letter_mem : letter ∈ letters

namespace Spelling

variable (k : Spelling)

/-- The point and the digits after it. -/
def fraction : List Char := k.precision.elim [] ('.' :: ·)

/-- What stands after the percent sign. -/
def tail : List Char := k.flags ++ k.width ++ k.fraction ++ [k.letter]

def text : List Char := '%' :: k.tail

/-- The flags and the zeros after them. -/
def allFlags : List Char := k.flags ++ k.width.takeWhile (· = '0')

/-- The digits of the width without the zeros before it. -/
def widthDigits : List Char := k.width.dropWhile (· = '0')

/-- The conversion of a form that is spelled so. -/
def conversion (form : Form) : Conversion where
  left := k.allFlags.contains '-'
  zero := k.allFlags.contains '0' && !k.allFlags.contains '-'
  alternate := k.allFlags.contains '#'
  plus := k.allFlags.contains '+'
  blank := k.allFlags.contains ' ' && !k.allFlags.contains '+'
  width := (digitsValue? k.widthDigits).getD 0
  precision := digitsValue? (k.precision.getD [])
  form := form

/-- How many places after a point are asked for. -/
def places : Nat := (digitsValue? (k.precision.getD [])).getD 6

/-- What is spelled: the conversion that its letter says, or else a percent sign. -/
def piece : Piece :=
  match Form.ofLetter? k.letter with
  | some form => .conversion (k.conversion form)
  | none => .percent

/-- The text of a counter in the form that is spelled; a percent sign has none. -/
def render? (n : Nat) : Option String :=
  (Form.ofLetter? k.letter).bind fun form => (k.conversion form).render? n

end Spelling

/-! ## Letters, flags and digits -/

theorem mem_letters {c : Char} : c ∈ letters ↔ c = '%' ∨ (Form.ofLetter? c).isSome := by
  constructor
  · intro h
    have hall : letters.all fun c => c = '%' || (Form.ofLetter? c).isSome := by decide
    simpa using List.all_eq_true.1 hall c h
  · rintro (rfl | h)
    · decide
    · unfold Form.ofLetter? at h
      split at h
      case h_12 => cases h
      all_goals decide

theorem ofLetter?_percent : Form.ofLetter? '%' = none := rfl

theorem Spelling.exists_ofLetter? {k : Spelling} (hletter : k.letter ≠ '%') :
    ∃ form, Form.ofLetter? k.letter = some form :=
  Option.isSome_iff_exists.1 ((mem_letters.1 k.letter_mem).resolve_left hletter)

/-- A letter is neither flag nor digit nor point. -/
theorem stops_of_mem_letters {c : Char} (h : c ∈ letters) :
    isFlag c = false ∧ Text.isDecimalDigit c = false ∧ c ≠ '.' := by
  have hall : letters.all fun c => !isFlag c && !Text.isDecimalDigit c && c ≠ '.' := by decide
  simpa [and_assoc] using List.all_eq_true.1 hall c h

theorem eq_zero_of_isFlag {c : Char} (hflag : isFlag c = true)
    (hdigit : Text.isDecimalDigit c = true) : c = '0' := by
  simp only [isFlag, Bool.decide_or, Bool.or_eq_true, decide_eq_true_eq] at hflag
  rcases hflag with rfl | rfl | rfl | rfl | rfl
  case inr.inr.inr.inl => rfl
  all_goals
    revert hdigit
    decide

namespace Spelling

variable (k : Spelling)

theorem tail_eq : k.tail = k.allFlags ++ k.widthDigits ++ k.fraction ++ [k.letter] := by
  have hwidth := List.takeWhile_append_dropWhile (p := (· = '0')) (l := k.width)
  unfold tail allFlags widthDigits
  rw [List.append_assoc k.flags (List.takeWhile _ _), hwidth]

theorem isFlag_allFlags : ∀ c ∈ k.allFlags, isFlag c = true := by
  intro c hc
  rcases List.mem_append.1 hc with hc | hc
  · exact k.isFlag_flags c hc
  · obtain rfl : c = '0' := by simpa using List.mem_takeWhile_imp hc
    decide

theorem isDigit_widthDigits : ∀ c ∈ k.widthDigits, Text.isDecimalDigit c = true :=
  fun c hc => k.isDigit_width c ((List.dropWhile_sublist _).subset hc)

/-- Behind the width there is a point or the letter. -/
theorem exists_fraction_append (rest : List Char) :
    ∃ c cs, k.fraction ++ k.letter :: rest = c :: cs ∧ isFlag c = false ∧
      Text.isDecimalDigit c = false := by
  unfold fraction
  cases k.precision with
  | none =>
      have hstop := stops_of_mem_letters k.letter_mem
      exact ⟨k.letter, rest, rfl, hstop.1, hstop.2.1⟩
  | some ds => exact ⟨'.', ds ++ k.letter :: rest, rfl, by decide, by decide⟩

/-- Behind the flags and the zeros after them there is no flag. -/
theorem exists_widthDigits_append (rest : List Char) :
    ∃ c cs, k.widthDigits ++ (k.fraction ++ k.letter :: rest) = c :: cs ∧ isFlag c = false := by
  cases hwidth : k.widthDigits with
  | nil =>
      obtain ⟨c, cs, hrest, hflag, -⟩ := k.exists_fraction_append rest
      exact ⟨c, cs, hrest, hflag⟩
  | cons c cs =>
      refine ⟨c, _, rfl, ?_⟩
      have hne : c ≠ '0' := by
        have hhead := List.head?_dropWhile_not (· = '0') k.width
        unfold widthDigits at hwidth
        rw [hwidth] at hhead
        simpa using hhead
      have hdigit : Text.isDecimalDigit c = true :=
        k.isDigit_widthDigits c (by simp [hwidth])
      apply Bool.eq_false_iff.2
      intro hflag
      exact hne (eq_zero_of_isFlag hflag hdigit)

theorem precisionOf_fraction (rest : List Char) :
    precisionOf (k.fraction ++ k.letter :: rest) = (k.precision.getD [], k.letter :: rest) := by
  obtain ⟨-, hdigit, hpoint⟩ := stops_of_mem_letters k.letter_mem
  have hprecision := k.isDigit_precision
  unfold fraction
  cases hcase : k.precision with
  | none =>
      show precisionOf (k.letter :: rest) = ([], k.letter :: rest)
      unfold precisionOf
      split
      · rename_i heq
        exact absurd (List.cons.inj heq).1 hpoint
      · rfl
  | some ds =>
      obtain ⟨hne, hds⟩ := hprecision ds hcase
      obtain ⟨htake, hdrop⟩ := span_append_cons (t := rest) hds hdigit
      show precisionOf ('.' :: (ds ++ k.letter :: rest)) = (ds, k.letter :: rest)
      unfold precisionOf
      simp only [htake, hdrop]
      rw [if_neg (by simpa using hne)]

/-- Where a spelling begins, what it stands for is found, with all of its characters. -/
theorem conversionAt_tail (rest : List Char) :
    conversionAt (k.tail ++ rest) = some (k.piece, k.tail.length) := by
  have htail : k.tail ++ rest =
      k.allFlags ++ (k.widthDigits ++ (k.fraction ++ k.letter :: rest)) := by
    rw [k.tail_eq]
    simp only [List.append_assoc, List.singleton_append]
  have hflags : (k.tail ++ rest).takeWhile isFlag = k.allFlags ∧
      (k.tail ++ rest).dropWhile isFlag = k.widthDigits ++ (k.fraction ++ k.letter :: rest) := by
    obtain ⟨c, cs, hrest, hflag⟩ := k.exists_widthDigits_append rest
    rw [htail, hrest]
    exact span_append_cons k.isFlag_allFlags hflag
  have hwidth :
      (k.widthDigits ++ (k.fraction ++ k.letter :: rest)).takeWhile Text.isDecimalDigit =
        k.widthDigits ∧
      (k.widthDigits ++ (k.fraction ++ k.letter :: rest)).dropWhile Text.isDecimalDigit =
        k.fraction ++ k.letter :: rest := by
    obtain ⟨c, cs, hrest, -, hdigit⟩ := k.exists_fraction_append rest
    rw [hrest]
    exact span_append_cons k.isDigit_widthDigits hdigit
  have hlength : (k.tail ++ rest).length - rest.length = k.tail.length := by
    rw [List.length_append]
    omega
  unfold conversionAt
  simp only [hflags.1, hflags.2, hwidth.1, hwidth.2, k.precisionOf_fraction, hlength]
  unfold piece
  by_cases hpercent : k.letter = '%'
  · rw [if_pos hpercent, hpercent, ofLetter?_percent]
  · obtain ⟨form, hform⟩ := exists_ofLetter? hpercent
    rw [if_neg hpercent, hform]
    rfl

end Spelling

/-! ## Finding a spelling -/

/-- The precision that is found after a width is none, or digits behind a point. -/
theorem exists_precision (cs : List Char) :
    ∃ precision : Option (List Char),
      cs = precision.elim [] ('.' :: ·) ++ (precisionOf cs).2 ∧
        ∀ ds ∈ precision, ds ≠ [] ∧ ∀ c ∈ ds, Text.isDecimalDigit c = true := by
  unfold precisionOf
  split
  · rename_i rest
    split
    · exact ⟨none, rfl, nofun⟩
    · rename_i hne
      refine ⟨some (rest.takeWhile Text.isDecimalDigit), ?_, ?_⟩
      · simp [List.takeWhile_append_dropWhile]
      · intro ds hds
        cases hds
        exact ⟨by simpa using hne, fun c hc => List.mem_takeWhile_imp hc⟩
  · exact ⟨none, rfl, nofun⟩

/-- What is found after a percent sign is spelled there. -/
theorem exists_spelling {cs : List Char} {piece : Piece} {used : Nat}
    (h : conversionAt cs = some (piece, used)) :
    ∃ (k : Spelling) (rest : List Char), cs = k.tail ++ rest := by
  have hflags := List.takeWhile_append_dropWhile (p := isFlag) (l := cs)
  have hwidth := List.takeWhile_append_dropWhile (p := Text.isDecimalDigit)
    (l := cs.dropWhile isFlag)
  unfold conversionAt at h
  dsimp only at h
  obtain ⟨precision, hfraction, hprecision⟩ :=
    exists_precision ((cs.dropWhile isFlag).dropWhile Text.isDecimalDigit)
  split at h
  · cases h
  · rename_i letter rest hletter
    have hmem : letter ∈ letters := by
      rw [mem_letters]
      split at h
      · rename_i hpercent
        exact .inl hpercent
      · obtain ⟨form, hform, -⟩ := Option.map_eq_some_iff.1 h
        exact .inr (by rw [hform]; rfl)
    refine ⟨{
      flags := cs.takeWhile isFlag
      width := (cs.dropWhile isFlag).takeWhile Text.isDecimalDigit
      precision := precision
      letter := letter
      isFlag_flags := fun c hc => List.mem_takeWhile_imp hc
      isDigit_width := fun c hc => List.mem_takeWhile_imp hc
      isDigit_precision := hprecision
      letter_mem := hmem }, rest, ?_⟩
    calc
      cs = cs.takeWhile isFlag ++ ((cs.dropWhile isFlag).takeWhile Text.isDecimalDigit ++
          (precision.elim [] ('.' :: ·) ++ letter :: rest)) := by
        rw [← hletter, ← hfraction, hwidth, hflags]
      _ = _ := by simp [Spelling.tail, Spelling.fraction]

/-- A percent sign that begins no spelling begins no conversion. -/
theorem conversionAt_eq_none {cs : List Char} (h : ∀ k : Spelling, ¬ k.text <+: '%' :: cs) :
    conversionAt cs = none := by
  cases hfound : conversionAt cs with
  | none => rfl
  | some found =>
      obtain ⟨k, rest, rfl⟩ := exists_spelling hfound
      exact absurd ⟨rest, rfl⟩ (h k)

/-! ## Rendering -/

theorem Conversion.isSome_render? (k : Conversion) (n : Nat) :
    (k.render? n).isSome ↔
      (k.form = .character → n.isValidChar) ∧ (k.form = .fixed → k.places ≤ maxPlaces) := by
  have hbody : (k.body? n).isSome ↔
      (k.form = .character → n.isValidChar) ∧ (k.form = .fixed → k.places ≤ maxPlaces) := by
    unfold body?
    cases k.form with
    | character =>
        unfold charOf? Nat.isValidChar
        split <;> simp_all
    | fixed => split <;> simp_all
    | text => cases k.precision <;> simp
    | _ => simp
  unfold render?
  rw [Option.isSome_map]
  exact hbody

theorem ofLetter?_eq_character {c : Char} : Form.ofLetter? c = some .character ↔ c = 'c' := by
  constructor
  · intro h
    unfold Form.ofLetter? at h
    split at h
    case h_9 => rfl
    all_goals cases h
  · rintro rfl
    rfl

theorem ofLetter?_eq_fixed {c : Char} : Form.ofLetter? c = some .fixed ↔ c = 'f' ∨ c = 'F' := by
  constructor
  · intro h
    unfold Form.ofLetter? at h
    split at h
    case h_7 => exact .inl rfl
    case h_8 => exact .inr rfl
    all_goals cases h
  · rintro (rfl | rfl) <;> rfl

/-- A spelled conversion has a text for each counter, but a letter for characters needs one, and
a letter for places after a point must not ask for too many. -/
theorem Spelling.isSome_render? {k : Spelling} (hletter : k.letter ≠ '%') (n : Nat) :
    (k.render? n).isSome ↔ (k.letter = 'c' → n.isValidChar) ∧
      (k.letter = 'f' ∨ k.letter = 'F' → k.places ≤ maxPlaces) := by
  obtain ⟨form, hform⟩ := exists_ofLetter? hletter
  unfold render?
  rw [← ofLetter?_eq_character, ← ofLetter?_eq_fixed, hform, Option.bind_some,
    Conversion.isSome_render?]
  simp [Spelling.conversion, Spelling.places, Conversion.places]

theorem Spelling.ne_percent_of_render? {k : Spelling} {n : Nat} {text : String}
    (h : k.render? n = some text) : k.letter ≠ '%' := by
  intro hpercent
  unfold render? at h
  rw [hpercent] at h
  cases h

end Specimen.Counter
