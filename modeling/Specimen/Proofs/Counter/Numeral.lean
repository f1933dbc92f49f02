import Mathlib.Tactic.Choose
import Mathlib.Data.List.Basic
import Specimen.Counter.Conversion
import Specimen.Regex.Token
/-!
# Counters can be told from their texts

A conversion that writes whole numbers gives no two counters the same text, whatever its flags,
its width and its precision are. The digits of the text are read back: signs, radix letters and
blanks are no digits, and the zeros that fill up to the width or the precision come before all
others. A pattern writes the same around every counter, so its texts differ as those of its
conversion do (`Counter.exists_injective_text`).
-/

namespace Specimen.Counter

open Regex (hexDigit?)

/-! ## Reading digits back -/

/-- Takes one more character of a numeral into account, if it is a digit. -/
def push (base value : Nat) (c : Char) : Nat :=
  match hexDigit? c with
  | some d => value * base + d
  | none => value

/-- The number that the digits in some text stand for; all that is no digit is passed over. -/
def valueOf (base : Nat) (cs : List Char) : Nat := cs.foldl (push base) 0

/-- No digit, or a zero. -/
def isPadding (c : Char) : Bool := (hexDigit? c).all (· = 0)

theorem push_of_no_digit (base value : Nat) {c : Char} (h : hexDigit? c = none) :
    push base value c = value := by
  simp only [push, h]

theorem push_of_padding (base : Nat) {c : Char} (h : isPadding c = true) :
    push base 0 c = 0 := by
  unfold isPadding at h
  unfold push
  cases hc : hexDigit? c with
  | none => rfl
  | some d =>
      rw [hc] at h
      obtain rfl : d = 0 := of_decide_eq_true h
      show 0 * base + 0 = 0
      omega

/-- Characters that are no digits leave the number as it is. -/
theorem foldl_push_of_no_digit (base value : Nat) {cs : List Char}
    (h : ∀ c ∈ cs, hexDigit? c = none) : cs.foldl (push base) value = value := by
  induction cs with
  | nil => rfl
  | cons c cs ih =>
      rw [List.forall_mem_cons] at h
      rw [List.foldl_cons, push_of_no_digit base value h.1]
      exact ih h.2

/-- Padding alone is no number yet. -/
theorem valueOf_of_padding (base : Nat) {cs : List Char} (h : cs.all isPadding = true) :
    valueOf base cs = 0 := by
  unfold valueOf
  induction cs with
  | nil => rfl
  | cons c cs ih =>
      rw [List.all_cons, Bool.and_eq_true] at h
      rw [List.foldl_cons, push_of_padding base h.1]
      exact ih h.2

/-- The digits of a number are read back, also where they are written in another case. -/
theorem valueOf_toDigits {base : Nat} (hlow : 1 < base) {f : Char → Char}
    (hf : ∀ d < base, hexDigit? (f d.digitChar) = some d) (n : Nat) :
    valueOf base ((Nat.toDigits base n).map f) = n := by
  induction n using Nat.strongRecOn with
  | ind n ih =>
      by_cases hn : n < base
      · rw [Nat.toDigits_of_lt_base hn]
        show push base 0 (f n.digitChar) = n
        simp only [push, hf n hn]
        omega
      · have hle : base ≤ n := by omega
        have hdiv : n / base < n := Nat.div_lt_self (by omega) hlow
        have hmod : n % base < base := Nat.mod_lt _ (by omega)
        have hinit := ih (n / base) hdiv
        unfold valueOf at hinit ⊢
        rw [Nat.toDigits_of_base_le hlow hle, List.map_append, List.foldl_append, hinit]
        show push base (n / base) (f (n % base).digitChar) = n
        simp only [push, hf _ hmod]
        exact Nat.div_add_mod' n base

/-- Padding before the digits and what is no digit behind them leave the number as it is. -/
theorem valueOf_between (base : Nat) {front digits back : List Char}
    (hfront : front.all isPadding = true) (hback : ∀ c ∈ back, hexDigit? c = none) :
    valueOf base (front ++ digits ++ back) = valueOf base digits := by
  have hzero := valueOf_of_padding base hfront
  unfold valueOf at hzero ⊢
  rw [List.foldl_append, List.foldl_append, hzero]
  exact foldl_push_of_no_digit base _ hback

/-! ## Conversions -/

/-- The base in which a form writes whole numbers. -/
def Form.base? : Form → Option Nat
  | .decimal => some 10
  | .octal => some 8
  | .hexLower | .hexUpper => some 16
  | _ => none

/-- What a form makes of the digits, which are lower case otherwise. -/
def Form.onDigit : Form → Char → Char
  | .hexUpper => Char.toUpper
  | _ => id

theorem Form.one_lt_of_base? {form : Form} {base : Nat} (h : form.base? = some base) :
    1 < base := by
  cases form <;> cases h <;> decide

theorem Form.hexDigit?_onDigit {form : Form} {base : Nat} (h : form.base? = some base) :
    ∀ d < base, hexDigit? (form.onDigit d.digitChar) = some d := by
  cases form <;> cases h <;> decide

section Render

variable {k : Conversion} {base : Nat}

/-- The lead is a sign and a radix, each of which may be missing. -/
theorem all_padding_lead (hbase : k.form.base? = some base) :
    k.lead.toList.all isPadding = true := by
  have hsign : (if k.plus then "+" else if k.blank then " " else "").toList.all isPadding =
      true := by
    cases k.plus <;> cases k.blank <;> decide
  have hoctal : (if k.alternate then "0o" else "").toList.all isPadding = true := by
    cases k.alternate <;> decide
  have hlower : (if k.alternate then "0x" else "").toList.all isPadding = true := by
    cases k.alternate <;> decide
  have hupper : (if k.alternate then "0X" else "").toList.all isPadding = true := by
    cases k.alternate <;> decide
  unfold Conversion.lead
  cases hform : k.form <;> rw [hform] at hbase <;> cases hbase
  case decimal => exact hsign
  case octal => simp only [String.toList_append, List.all_append, hsign, hoctal, Bool.and_true]
  case hexLower => simp only [String.toList_append, List.all_append, hsign, hlower,
    Bool.and_true]
  case hexUpper => simp only [String.toList_append, List.all_append, hsign, hupper,
    Bool.and_true]

/-- The body is made of the digits, behind zeros up to the precision. -/
theorem body?_eq (hbase : k.form.base? = some base) (n : Nat) :
    k.body? n =
      some (atLeast k.precision (String.ofList ((Nat.toDigits base n).map k.form.onDigit))) := by
  have hupper : (radixText 16 n).toUpper =
      String.ofList ((Nat.toDigits 16 n).map Char.toUpper) := by
    apply String.toList_injective
    rw [String.toUpper, String.toList_map, radixText, String.toList_ofList, String.toList_ofList]
  unfold Conversion.body?
  cases hform : k.form <;> rw [hform] at hbase <;> cases hbase
  case hexUpper => simp only [hupper, Form.onDigit]
  all_goals simp only [radixText, Form.onDigit, List.map_id]

theorem no_digit_of_mem_blanks {n : Nat} {c : Char} (h : c ∈ (blanks n).toList) :
    hexDigit? c = none := by
  rw [blanks, String.toList_ofList] at h
  rw [List.eq_of_mem_replicate h]
  decide

theorem all_padding_blanks (n : Nat) : (blanks n).toList.all isPadding = true := by
  rw [List.all_eq_true]
  intro c hc
  rw [isPadding, no_digit_of_mem_blanks hc]
  rfl

theorem all_padding_zeros (n : Nat) : (Decimal.zeros n).toList.all isPadding = true := by
  rw [Decimal.zeros, String.toList_ofList, List.all_eq_true]
  intro c hc
  rw [List.eq_of_mem_replicate hc]
  decide

/-- The text is made of the digits, of padding before them and of blanks behind them. -/
theorem exists_render?_eq (hbase : k.form.base? = some base) (n : Nat) :
    ∃ text front back, k.render? n = some text ∧
      text.toList = front ++ (Nat.toDigits base n).map k.form.onDigit ++ back ∧
      front.all isPadding = true ∧ ∀ c ∈ back, hexDigit? c = none := by
  have hlead := all_padding_lead hbase
  have hbody : ∃ fill, k.body? n = some (Decimal.zeros fill ++
      String.ofList ((Nat.toDigits base n).map k.form.onDigit)) := ⟨_, body?_eq hbase n⟩
  obtain ⟨fill, hbody⟩ := hbody
  have hfill := all_padding_zeros fill
  unfold Conversion.render?
  rw [hbody, Option.map_some]
  dsimp only
  generalize k.width - _ = gap
  by_cases hleft : k.left
  · rw [if_pos hleft]
    refine ⟨_, k.lead.toList ++ (Decimal.zeros fill).toList, (blanks gap).toList, rfl, ?_, ?_,
      fun c => no_digit_of_mem_blanks⟩
    · simp only [String.toList_append, String.toList_ofList, List.append_assoc]
    · simp only [List.all_append, hlead, hfill, Bool.and_true]
  · rw [if_neg hleft]
    by_cases hzero : (k.zero && k.form.isNumeric) = true
    · rw [if_pos hzero]
      refine ⟨_, k.lead.toList ++ (Decimal.zeros gap).toList ++ (Decimal.zeros fill).toList,
        [], rfl,
        ?_, ?_, nofun⟩
      · simp only [String.toList_append, String.toList_ofList, List.append_assoc,
          List.append_nil]
      · simp only [List.all_append, hlead, all_padding_zeros gap, hfill, Bool.and_true]
    · rw [if_neg hzero]
      refine ⟨_, (blanks gap).toList ++ k.lead.toList ++ (Decimal.zeros fill).toList, [], rfl,
        ?_, ?_, nofun⟩
      · simp only [String.toList_append, String.toList_ofList, List.append_assoc,
          List.append_nil]
      · simp only [List.all_append, all_padding_blanks gap, hlead, hfill, Bool.and_true]

/-- The digits in the text of a counter stand for the counter. -/
theorem exists_valueOf_eq (hbase : k.form.base? = some base) (n : Nat) :
    ∃ text, k.render? n = some text ∧ valueOf base text.toList = n := by
  obtain ⟨text, front, back, htext, hlist, hfront, hback⟩ := exists_render?_eq hbase n
  refine ⟨text, htext, ?_⟩
  calc
    valueOf base text.toList = valueOf base ((Nat.toDigits base n).map k.form.onDigit) := by
      rw [hlist, valueOf_between base hfront hback]
    _ = n := valueOf_toDigits (Form.one_lt_of_base? hbase) (Form.hexDigit?_onDigit hbase) n

end Render

/-! ## Patterns -/

/-- A piece that is no conversion reads the same for every counter. -/
theorem Piece.render?_of_not_isConversion {p : Piece} (h : ¬ p.isConversion) (n : Nat) :
    (p.render? n).isSome ∧ p.render? n = p.render? 0 := by
  cases p with
  | char c => exact ⟨rfl, rfl⟩
  | percent => exact ⟨rfl, rfl⟩
  | conversion k => exact absurd rfl h

/-- A pattern whose one conversion writes whole numbers formats every counter, and no two of them
alike. -/
theorem exists_injective_text {pattern : String} {k : Conversion} {base : Nat}
    (hpattern : (pieces pattern).filter Piece.isConversion = [.conversion k])
    (hbase : k.form.base? = some base) :
    ∃ text : Nat → String, text.Injective ∧ ∀ n, format pattern n = some (.ok (text n)) := by
  obtain ⟨before, rest, hpieces, hbefore, -, hrest⟩ := List.filter_eq_cons_iff.1 hpattern
  replace hrest := List.filter_eq_nil_iff.1 hrest
  choose middle hmiddle hvalue using exists_valueOf_eq hbase
  refine ⟨fun n => String.join (before.filterMap (Piece.render? 0)) ++
    (middle n ++ String.join (rest.filterMap (Piece.render? 0))), fun m n hmn => ?_, fun n => ?_⟩
  · have hsame : middle m = middle n :=
      (String.append_left_inj _).1 ((String.append_right_inj _).1 hmn)
    calc
      m = valueOf base (middle m).toList := (hvalue m).symm
      _ = valueOf base (middle n).toList := by rw [hsame]
      _ = n := hvalue n
  · have hpiece : Piece.render? n (.conversion k) = some (middle n) := hmiddle n
    have hnone : (pieces pattern).find? (fun p => (p.render? n).isNone) = none := by
      rw [List.find?_eq_none, hpieces]
      intro p hp
      have hsome : (p.render? n).isSome := by
        rcases List.mem_append.1 hp with hp | hp
        · exact (Piece.render?_of_not_isConversion (hbefore p hp) n).1
        · rcases List.mem_cons.1 hp with rfl | hp
          · rw [hpiece]
            rfl
          · exact (Piece.render?_of_not_isConversion (hrest p hp) n).1
      simpa using Option.isSome_iff_ne_none.1 hsome
    have htexts : (pieces pattern).filterMap (Piece.render? n) =
        before.filterMap (Piece.render? 0) ++ middle n :: rest.filterMap (Piece.render? 0) := by
      rw [hpieces, List.filterMap_append, List.filterMap_cons, hpiece,
        List.filterMap_congr fun p hp => (Piece.render?_of_not_isConversion (hbefore p hp) n).2,
        List.filterMap_congr fun p hp => (Piece.render?_of_not_isConversion (hrest p hp) n).2]
    have hcount : (pieces pattern).countP Piece.isConversion = 1 := by
      rw [List.countP_eq_length_filter, hpattern, List.length_singleton]
    simp only [format, hnone, hcount, if_true, htexts, String.join_append, String.join_cons]

end Specimen.Counter
