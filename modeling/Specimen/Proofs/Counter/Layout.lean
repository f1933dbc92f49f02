import Mathlib.Data.List.Basic
import Mathlib.Data.List.TakeWhile
import Specimen.Proofs.Counter.Numeral
import Specimen.Proofs.Counter.Scan
/-!
# How whole numbers are laid out

The text of a counter in a conversion that writes whole numbers: a sign, a radix and the digits,
with zeros up to the precision, make the core, and the width is filled up with blanks on one of
its sides or with zeros inside it (`Spelling.layout`). Without the filling, the sign and the
radix the text is a numeral again, which reads as the counter (`Spelling.readBack?`). So no
pattern with such a conversion formats two counters alike (`readable`).
-/

namespace Specimen.Counter

open Regex (hexDigit?)

/-- The letters of the conversions that write whole numbers. -/
def wholeLetters : List Char := ['d', 'i', 'u', 'o', 'x', 'X']

/-- The number that a numeral stands for; all of its characters have to be digits of the base. -/
def numeral? (base : Nat) (cs : List Char) : Option Nat :=
  if cs ≠ [] ∧ cs.all (fun c => (hexDigit? c).any (· < base)) then some (valueOf base cs)
  else none

namespace Spelling

variable (k : Spelling)

def base : Nat :=
  match k.letter with
  | 'o' => 8
  | 'x' | 'X' => 16
  | _ => 10

/-- The width that is asked for. -/
def fieldWidth : Nat := (digitsValue? k.widthDigits).getD 0

/-- The precision that is asked for. -/
def leastDigits : Nat := (digitsValue? (k.precision.getD [])).getD 0

/-! ## The parts of the text -/

def sign : List Char :=
  if '+' ∈ k.allFlags then ['+'] else if ' ' ∈ k.allFlags then [' '] else []

def radix : List Char :=
  if '#' ∈ k.allFlags then
    match k.letter with
    | 'o' => ['0', 'o']
    | 'x' => ['0', 'x']
    | 'X' => ['0', 'X']
    | _ => []
  else []

/-- The digits of a counter, in capitals if the letter is one. -/
def digits (n : Nat) : List Char :=
  (Nat.toDigits k.base n).map (if k.letter = 'X' then Char.toUpper else id)

/-- The digits, with zeros before them up to the precision. -/
def extended (n : Nat) : List Char :=
  List.replicate (k.leastDigits - (k.digits n).length) '0' ++ k.digits n

def core (n : Nat) : List Char := k.sign ++ k.radix ++ k.extended n

/-- How many characters are missing to the width. -/
def gap (n : Nat) : Nat := k.fieldWidth - (k.core n).length

/-- The text of a counter. -/
def layout (n : Nat) : List Char :=
  if '-' ∈ k.allFlags then k.core n ++ List.replicate (k.gap n) ' '
  else if '0' ∈ k.allFlags then
    k.sign ++ k.radix ++ List.replicate (k.gap n) '0' ++ k.extended n
  else List.replicate (k.gap n) ' ' ++ k.core n

/-- The sign and the radix, but for a blank instead of a sign. -/
def mark : List Char := k.sign.filter (· ≠ ' ') ++ k.radix

/-- The number in a text, without the blanks around it, the sign and the radix. -/
def readBack? (text : List Char) : Option Nat :=
  (((text.dropWhile (· = ' ')).takeWhile (· ≠ ' ')).dropPrefix? k.mark).bind (numeral? k.base)

variable {k}

/-! ## The layout of a rendering -/

theorem length_layout (n : Nat) : (k.layout n).length = max k.fieldWidth (k.core n).length := by
  have hgap : k.gap n + (k.core n).length = max k.fieldWidth (k.core n).length := by
    unfold gap
    omega
  unfold layout
  rw [← hgap]
  split
  · simp [Nat.add_comm]
  · split
    · simp only [core, List.length_append, List.length_replicate]
      omega
    · simp

/-- The form that a letter for whole numbers stands for, and what it writes. -/
theorem exists_form (hk : k.letter ∈ wholeLetters) :
    ∃ form, Form.ofLetter? k.letter = some form ∧ form.base? = some k.base ∧
      form.onDigit = (if k.letter = 'X' then Char.toUpper else id) ∧
      (k.conversion form).lead.toList = k.sign ++ k.radix := by
  have hsign : (if '+' ∈ k.allFlags then "+" else
      if ' ' ∈ k.allFlags ∧ '+' ∉ k.allFlags then " " else "").toList = k.sign := by
    unfold sign
    by_cases hplus : '+' ∈ k.allFlags <;> by_cases hblank : ' ' ∈ k.allFlags <;>
      simp [hplus, hblank]
  simp only [wholeLetters, List.mem_cons, List.not_mem_nil, or_false] at hk
  unfold base radix
  rcases hk with hk | hk | hk | hk | hk | hk <;> rw [hk] <;>
    refine ⟨_, rfl, rfl, rfl, ?_⟩ <;>
    by_cases halternate : '#' ∈ k.allFlags <;>
    simp [conversion, Conversion.lead, halternate, hsign]

theorem exists_body?_eq_extended {form : Form} (hbase : form.base? = some k.base)
    (hdigit : form.onDigit = if k.letter = 'X' then Char.toUpper else id) (n : Nat) :
    ∃ body, (k.conversion form).body? n = some body ∧ body.toList = k.extended n := by
  refine ⟨_, body?_eq (k := k.conversion form) hbase n, ?_⟩
  unfold extended digits
  rw [← hdigit, atLeast, Decimal.zeros, String.toList_append]
  simp [conversion, leastDigits]

theorem exists_render?_eq_layout (hk : k.letter ∈ wholeLetters) (n : Nat) :
    ∃ text, k.render? n = some text ∧ text.toList = k.layout n := by
  obtain ⟨form, hform, hbase, hdigit, hlead⟩ := exists_form hk
  obtain ⟨body, hbody, hextended⟩ := exists_body?_eq_extended hbase hdigit n
  have hnumeric : form.isNumeric = true := by
    cases form <;> first | rfl | cases hbase
  have hgap : (k.conversion form).width - ((k.conversion form).lead.length + body.length) =
      k.gap n := by
    rw [← String.length_toList, ← String.length_toList, hlead, hextended, ← List.length_append]
    rfl
  unfold render? layout core
  rw [hform, Option.bind_some, Conversion.render?, hbody, Option.map_some, hgap]
  refine ⟨_, rfl, ?_⟩
  by_cases hleft : '-' ∈ k.allFlags
  · rw [if_pos hleft, if_pos (by simpa [conversion] using hleft)]
    simp [hlead, hextended, blanks]
  · rw [if_neg hleft, if_neg (by simpa [conversion] using hleft)]
    by_cases hzero : '0' ∈ k.allFlags
    · rw [if_pos hzero, if_pos (by simpa [conversion, hleft, hnumeric] using hzero)]
      simp [hlead, hextended, Decimal.zeros]
    · rw [if_neg hzero, if_neg (by simpa [conversion, hleft, hnumeric] using hzero)]
      simp [hlead, hextended, blanks]

/-! ## Reading back -/

/-- A text is blanks, the sign and the radix, zeros and the digits, and blanks again. -/
theorem exists_layout_eq (n : Nat) :
    ∃ before fill after, k.layout n = List.replicate before ' ' ++
      (k.mark ++ (List.replicate fill '0' ++ k.digits n)) ++ List.replicate after ' ' := by
  have hmark : ∃ m, k.sign ++ k.radix = List.replicate m ' ' ++ k.mark := by
    unfold mark sign
    split
    · exact ⟨0, rfl⟩
    · split
      · exact ⟨1, rfl⟩
      · exact ⟨0, rfl⟩
  obtain ⟨m, hmark⟩ := hmark
  unfold layout core extended
  generalize k.gap n = gap
  generalize k.leastDigits - (k.digits n).length = fill
  rw [hmark]
  split
  · exact ⟨m, fill, gap, by simp only [List.append_assoc]⟩
  · split
    · refine ⟨m, gap + fill, 0, ?_⟩
      simp only [List.append_assoc, List.replicate_add, List.replicate_zero, List.append_nil]
    · refine ⟨gap + m, fill, 0, ?_⟩
      simp only [List.append_assoc, List.replicate_add, List.replicate_zero, List.append_nil]

/-- The blanks around a text without blanks are taken off. -/
theorem takeWhile_dropWhile_blanks {cs : List Char} (hne : cs ≠ []) (h : ∀ c ∈ cs, c ≠ ' ')
    (before after : Nat) :
    ((List.replicate before ' ' ++ cs ++ List.replicate after ' ').dropWhile (· = ' ')).takeWhile
      (· ≠ ' ') = cs := by
  obtain ⟨c, cs, rfl⟩ := List.exists_cons_of_ne_nil hne
  have hfront : ∀ b ∈ List.replicate before ' ', decide (b = ' ') = true :=
    fun b hb => decide_eq_true (List.eq_of_mem_replicate hb)
  have hstop : decide (c = ' ') = false := decide_eq_false (h c List.mem_cons_self)
  rw [List.append_assoc, List.dropWhile_append_of_pos hfront, List.cons_append,
    List.dropWhile_cons_of_neg (by rw [hstop]; decide), ← List.cons_append,
    List.takeWhile_append_of_pos (fun b hb => decide_eq_true (h b hb))]
  cases after <;> simp

theorem exists_digitChar_of_mem {base : Nat} (hlow : 1 < base) {n : Nat} {c : Char}
    (h : c ∈ Nat.toDigits base n) : ∃ d < base, c = d.digitChar := by
  induction n using Nat.strongRecOn with
  | ind n ih =>
      by_cases hn : n < base
      · rw [Nat.toDigits_of_lt_base hn, List.mem_singleton] at h
        exact ⟨n, hn, h⟩
      · have hle : base ≤ n := by omega
        rw [Nat.toDigits_of_base_le hlow hle, List.mem_append, List.mem_singleton] at h
        rcases h with h | h
        · exact ih (n / base) (Nat.div_lt_self (by omega) hlow) h
        · exact ⟨n % base, Nat.mod_lt _ (by omega), h⟩

/-- Zeros before the digits of a number make a numeral of the same value. -/
theorem numeral?_eq {base : Nat} (hlow : 1 < base) {f : Char → Char}
    (hf : ∀ d < base, hexDigit? (f d.digitChar) = some d) (fill n : Nat) :
    numeral? base (List.replicate fill '0' ++ (Nat.toDigits base n).map f) = some n := by
  have hdigits : ∀ c ∈ List.replicate fill '0' ++ (Nat.toDigits base n).map f,
      (hexDigit? c).any (· < base) = true := by
    intro c hc
    rcases List.mem_append.1 hc with hc | hc
    · rw [List.eq_of_mem_replicate hc]
      exact decide_eq_true (by omega)
    · obtain ⟨c', hc', rfl⟩ := List.mem_map.1 hc
      obtain ⟨d, hd, rfl⟩ := exists_digitChar_of_mem hlow hc'
      rw [hf d hd]
      exact decide_eq_true hd
  have hzeros : (List.replicate fill '0').all isPadding = true := by
    rw [List.all_eq_true]
    intro c hc
    rw [List.eq_of_mem_replicate hc]
    decide
  have hvalue :
      valueOf base (List.replicate fill '0' ++ (Nat.toDigits base n).map f ++ []) = _ :=
    valueOf_between base hzeros (by simp)
  rw [List.append_nil, valueOf_toDigits hlow hf] at hvalue
  unfold numeral?
  rw [if_pos ⟨by simp, List.all_eq_true.2 hdigits⟩, hvalue]

/-- There are no blanks in a numeral. -/
theorem ne_blank_of_numeral? {base n : Nat} {cs : List Char} (h : numeral? base cs = some n)
    {c : Char} (hc : c ∈ cs) : c ≠ ' ' := by
  unfold numeral? at h
  obtain ⟨⟨-, hdigits⟩, -⟩ := Option.ite_none_right_eq_some.1 h
  rintro rfl
  have hdigit := List.all_eq_true.1 hdigits ' ' hc
  have hnone : hexDigit? ' ' = none := by decide
  rw [hnone] at hdigit
  cases hdigit

theorem ne_blank_of_mem_mark {c : Char} (h : c ∈ k.mark) : c ≠ ' ' := by
  unfold mark at h
  rcases List.mem_append.1 h with h | h
  · simpa using (List.mem_filter.1 h).2
  · unfold radix at h
    rintro rfl
    split at h
    · split at h <;> simp at h
    · cases h

theorem readBack?_layout (hk : k.letter ∈ wholeLetters) (n : Nat) :
    k.readBack? (k.layout n) = some n := by
  obtain ⟨form, -, hbase, hdigit, -⟩ := exists_form hk
  have hf := Form.hexDigit?_onDigit hbase
  rw [hdigit] at hf
  obtain ⟨before, fill, after, hlayout⟩ := k.exists_layout_eq n
  have hnumeral := numeral?_eq (Form.one_lt_of_base? hbase) hf fill n
  have hblank : ∀ c ∈ k.mark ++ (List.replicate fill '0' ++ k.digits n), c ≠ ' ' := by
    intro c hc
    rcases List.mem_append.1 hc with hc | hc
    · exact ne_blank_of_mem_mark hc
    · exact ne_blank_of_numeral? hnumeral hc
  have hprefix : (k.mark ++ (List.replicate fill '0' ++ k.digits n)).dropPrefix? k.mark =
      some (List.replicate fill '0' ++ k.digits n) :=
    List.dropPrefix?_eq_some_iff.2 ⟨k.mark, rfl, BEq.rfl⟩
  unfold readBack?
  rw [hlayout, takeWhile_dropWhile_blanks (by simp [digits]) hblank, hprefix]
  exact hnumeral

end Spelling

/-! ## Patterns -/

/-- The conversions that a pattern is cut into are those of its scan. -/
theorem filter_isConversion (segments : List Segment) :
    (segments.map (·.piece)).filter Piece.isConversion =
      (conversions segments).map (·.piece) := by
  induction segments with
  | nil => rfl
  | cons segment segments ih =>
      unfold conversions at ih ⊢
      rw [List.map_cons, List.filter_cons, List.filterMap_cons, segment.isConversion_piece, ih]
      cases hconversion : segment.conversion? with
      | none => rfl
      | some k =>
          obtain ⟨rfl, -⟩ := Segment.conversion?_eq_some.1 hconversion
          rfl

/-- A conversion for whole numbers lays every counter out in its width, with the sign and the
radix before the digits, and the counter can be read back. A pattern with such a conversion
formats every counter, and no two of them alike. -/
theorem readable (k : Spelling) (hk : k.letter ∈ wholeLetters) :
    (∀ n, ∃ text, k.render? n = some text ∧
      text.length = max k.fieldWidth (k.core n).length ∧
      text.toList =
        (if '-' ∈ k.allFlags then k.core n ++ List.replicate (k.gap n) ' '
        else if '0' ∈ k.allFlags then
          k.sign ++ k.radix ++ List.replicate (k.gap n) '0' ++ k.extended n
        else List.replicate (k.gap n) ' ' ++ k.core n) ∧
      k.readBack? text.toList = some n) ∧
    ∀ (pattern : String) (segments : List Segment), Scan pattern.toList segments →
      conversions segments = [k] →
      (∀ n, ∃ text, format pattern n = some (.ok text)) ∧
        ∀ m n, format pattern m = format pattern n → m = n := by
  constructor
  · intro n
    obtain ⟨text, htext, hlayout⟩ := Spelling.exists_render?_eq_layout hk n
    refine ⟨text, htext, ?_, hlayout, ?_⟩
    · rw [← String.length_toList, hlayout, Spelling.length_layout]
    · rw [hlayout]
      exact Spelling.readBack?_layout hk n
  · intro pattern segments hscan hconversions
    obtain ⟨form, hform, hbase, -, -⟩ := Spelling.exists_form hk
    have hpiece : k.piece = .conversion (k.conversion form) := by
      unfold Spelling.piece
      rw [hform]
    have hpieces : (pieces pattern).filter Piece.isConversion =
        [.conversion (k.conversion form)] := by
      rw [show pieces pattern = _ from piecesAfter_of_scan hscan, filter_isConversion,
        hconversions, List.map_singleton, hpiece]
    obtain ⟨text, hinjective, htext⟩ := exists_injective_text hpieces hbase
    refine ⟨fun n => ⟨text n, htext n⟩, fun m n hsame => hinjective ?_⟩
    rw [htext m, htext n] at hsame
    exact Except.ok.inj (Option.some.inj hsame)

/-- At least four hexadecimal digits after a sign, filled up with zeros to eight characters. -/
def signedHex : Spelling where
  flags := ['#', '+', '0']
  width := ['8']
  precision := some ['4']
  letter := 'x'
  isFlag_flags := by simp [isFlag]
  isDigit_width := by simp [Text.isDecimalDigit]
  isDigit_precision := by simp [Text.isDecimalDigit]
  letter_mem := by decide

theorem readable_signedHex :
    signedHex.letter ∈ wholeLetters ∧ Scan "%#+08.4x".toList [.spelled signedHex] ∧
      signedHex.render? 255 = some "+0x000ff" ∧
      signedHex.readBack? "+0x000ff".toList = some 255 ∧
      ∀ m n, format "%#+08.4x" m = format "%#+08.4x" n → m = n := by
  have hscan : Scan "%#+08.4x".toList [.spelled signedHex] := .spelled signedHex .nil
  have hrender : signedHex.render? 255 = some "+0x000ff" := rfl
  obtain ⟨hlayout, hpattern⟩ := readable signedHex (by decide)
  obtain ⟨text, htext, -, -, hread⟩ := hlayout 255
  obtain rfl : "+0x000ff" = text := Option.some.inj (hrender.symm.trans htext)
  exact ⟨by decide, hscan, hrender, hread, (hpattern _ _ hscan rfl).2⟩

end Specimen.Counter
