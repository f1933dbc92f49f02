import Specimen.Text.Encoding
/-!
# Reading encoded text back

Readers for the two encodings of text, as their standards describe them. A reader of percent
encoding takes `%XX` for a byte and any other character but `%` for itself; a reader of base64
looks each character up in the alphabet of RFC 4648 and takes groups of four characters, the last
of them padded, with no bits set but those of bytes. Both accept only bytes that are UTF-8, and
both read back whatever is encoded.
-/

namespace Specimen.Text

/-! ## Bytes -/

/-- The text of some bytes, if they are UTF-8. -/
def ofUtf8? (bytes : List UInt8) : Option String := String.fromUTF8? ⟨bytes.toArray⟩

theorem toList_loop_eq (bytes : ByteArray) (i : Nat) (before : List UInt8) :
    ByteArray.toList.loop bytes i before = before.reverse ++ bytes.data.toList.drop i := by
  fun_induction ByteArray.toList.loop bytes i before with
  | case1 i before hlt ih =>
      have hi : i < bytes.data.toList.length := by simpa using hlt
      rw [ih, List.drop_eq_getElem_cons hi]
      simp [ByteArray.get!, hlt]
  | case2 i before hge =>
      rw [List.drop_eq_nil_of_le (by simpa using hge), List.append_nil]

theorem ofUtf8?_utf8 (s : String) : ofUtf8? (utf8 s) = some s := by
  have hbytes : utf8 s = s.toUTF8.data.toList := toList_loop_eq s.toUTF8 0 []
  rw [ofUtf8?, hbytes, Array.toArray_toList]
  exact dif_pos s.isValidUTF8

/-! ## Percent encoding -/

/-- The value of a hexadecimal digit. -/
def hexValue? (c : Char) : Option Nat :=
  if '0' ≤ c ∧ c ≤ '9' then some (c.toNat - '0'.toNat)
  else if 'A' ≤ c ∧ c ≤ 'F' then some (c.toNat - 'A'.toNat + 10)
  else if 'a' ≤ c ∧ c ≤ 'f' then some (c.toNat - 'a'.toNat + 10)
  else none

/-- The bytes that percent-encoded characters stand for. -/
def percentBytes? : List Char → Option (List UInt8)
  | [] => some []
  | '%' :: high :: low :: rest =>
    match hexValue? high, hexValue? low with
    | some h, some l => (percentBytes? rest).map (UInt8.ofNat (16 * h + l) :: ·)
    | _, _ => none
  | c :: rest =>
    if c = '%' then none else (percentBytes? rest).map (String.utf8EncodeChar c ++ ·)

/-- The text that is percent-encoded. -/
def percentDecode? (s : String) : Option String := (percentBytes? s.toList).bind ofUtf8?

theorem hexValue?_upperHexDigit : ∀ n < 16, hexValue? (upperHexDigit n) = some n := by decide

theorem percentBytes?_escaped (b : UInt8) (rest : List Char) :
    percentBytes? ('%' :: upperHexByte b ++ rest) = (percentBytes? rest).map (b :: ·) := by
  have hb := b.toNat_lt
  have hhigh := hexValue?_upperHexDigit (b.toNat / 16) (by omega)
  have hlow := hexValue?_upperHexDigit (b.toNat % 16) (by omega)
  have hvalue : UInt8.ofNat (16 * (b.toNat / 16) + b.toNat % 16) = b := by
    rw [Nat.div_add_mod, UInt8.ofNat_toNat]
  simp only [upperHexByte, List.cons_append, List.nil_append, percentBytes?, hhigh, hlow, hvalue]

/-- A byte that stands for itself is the UTF-8 form of a character
other than the percent sign. -/
theorem unreserved_of_lt : ∀ n < 128, isUnreserved (UInt8.ofNat n) →
    Char.ofNat n ≠ '%' ∧ String.utf8EncodeChar (Char.ofNat n) = [UInt8.ofNat n] := by
  decide

theorem percentBytes?_percentByte (b : UInt8) (rest : List Char) :
    percentBytes? (percentByte b ++ rest) = (percentBytes? rest).map (b :: ·) := by
  unfold percentByte
  by_cases hself : isUnreserved b
  · have hb : b.toNat < 128 := by
      simp only [isUnreserved, Bool.and_eq_true, decide_eq_true_eq] at hself
      exact UInt8.lt_iff_toNat_lt.1 hself.1
    obtain ⟨hne, hutf8⟩ := unreserved_of_lt b.toNat hb (by rwa [UInt8.ofNat_toNat])
    rw [UInt8.ofNat_toNat] at hutf8
    rw [if_pos hself, List.singleton_append, percentBytes?.eq_3 _ _ (by simp [hne]), if_neg hne,
      hutf8]
    rfl
  · rw [if_neg hself]
    exact percentBytes?_escaped b rest

theorem percentDecode?_percentEncode (s : String) :
    percentDecode? (percentEncode s) = some s := by
  have hbytes : ∀ bytes : List UInt8,
      percentBytes? (bytes.flatMap percentByte) = some bytes := by
    intro bytes
    induction bytes with
    | nil => rfl
    | cons b bytes ih => rw [List.flatMap_cons, percentBytes?_percentByte, ih, Option.map_some]
  rw [percentDecode?, percentEncode, String.toList_ofList, hbytes]
  exact ofUtf8?_utf8 s

/-! ## Base64 -/

/-- The alphabet of RFC 4648, in the order of the values. -/
def base64Alphabet : String := "ABCDEFGHIJKLMNOPQRSTUVWXYZabcdefghijklmnopqrstuvwxyz0123456789+/"

/-- The six bits of a character. -/
def base64Value? (c : Char) : Option Nat := base64Alphabet.toList.idxOf? c

/-- The number that some characters stand for, six bits each. -/
def base64Number? (cs : List Char) : Option Nat :=
  (cs.mapM base64Value?).map (·.foldl (fun n v => 64 * n + v) 0)

/-- The bytes of groups of four characters. A padded group has no bits set below its bytes. -/
def base64Bytes? : List Char → Option (List UInt8)
  | [] => some []
  | [a, b, '=', '='] =>
    match base64Number? [a, b] with
    | some n => if n % 16 = 0 then some [UInt8.ofNat (n / 16)] else none
    | none => none
  | [a, b, c, '='] =>
    match base64Number? [a, b, c] with
    | some n =>
      if n % 4 = 0 then some [UInt8.ofNat (n / 1024), UInt8.ofNat (n / 4)] else none
    | none => none
  | a :: b :: c :: d :: rest =>
    match base64Number? [a, b, c, d] with
    | some n => (base64Bytes? rest).map
        ([UInt8.ofNat (n / 65536), UInt8.ofNat (n / 256), UInt8.ofNat n] ++ ·)
    | none => none
  | _ => none

/-- The text that is encoded in base64. -/
def base64Decode? (s : String) : Option String := (base64Bytes? s.toList).bind ofUtf8?

theorem base64Value?_base64Digit : ∀ n < 64, base64Value? (base64Digit n) = some n := by decide

theorem base64Digit_ne_pad : ∀ n < 64, base64Digit n ≠ '=' := by decide

/-- Digits stand for the number that has their values as its digits to base 64. -/
theorem base64Number?_digits {values : List Nat} (h : ∀ v ∈ values, v < 64) :
    base64Number? (values.map base64Digit) = some (values.foldl (fun n v => 64 * n + v) 0) := by
  have hvalues : (values.map base64Digit).mapM base64Value? = some values := by
    induction values with
    | nil => rfl
    | cons v values ih =>
        obtain ⟨hv, hvalues⟩ := List.forall_mem_cons.1 h
        simp [List.mapM_cons, base64Value?_base64Digit v hv, ih hvalues]
  rw [base64Number?, hvalues, Option.map_some]

/-- A byte is read off a number that it is the low part of. -/
theorem ofNat_eq_of_mod {n : Nat} {b : UInt8} (h : n % 256 = b.toNat) : UInt8.ofNat n = b := by
  rw [← UInt8.toNat_inj, UInt8.toNat_ofNat', ← h]

/-- What is read from the digits of a number of 24 bits, from two of them on. -/
theorem base64Number?_group {n : Nat} (h : n < 16777216) :
    base64Number? [base64Digit (n / 262144), base64Digit (n / 4096 % 64)] = some (n / 4096) ∧
      base64Number? [base64Digit (n / 262144), base64Digit (n / 4096 % 64),
        base64Digit (n / 64 % 64)] = some (n / 64) ∧
      base64Number? [base64Digit (n / 262144), base64Digit (n / 4096 % 64),
        base64Digit (n / 64 % 64), base64Digit (n % 64)] = some n := by
  have htwo : 64 * (64 * 0 + n / 262144) + n / 4096 % 64 = n / 4096 := by omega
  have hthree : 64 * (n / 4096) + n / 64 % 64 = n / 64 := by omega
  have hfour : 64 * (n / 64) + n % 64 = n := by omega
  have hfirst : n / 262144 < 64 := by omega
  have hdigits : ∀ v ∈ [n / 262144, n / 4096 % 64, n / 64 % 64, n % 64], v < 64 := by
    simp [hfirst, Nat.mod_lt]
  have htaken : ∀ k, base64Number?
      (([n / 262144, n / 4096 % 64, n / 64 % 64, n % 64].take k).map base64Digit) = _ := fun k =>
    base64Number?_digits fun v hv => hdigits v (List.mem_of_mem_take hv)
  refine ⟨(htaken 2).trans ?_, (htaken 3).trans ?_, (htaken 4).trans ?_⟩ <;>
    simp only [List.take, List.foldl, htwo, hthree, hfour]

theorem base64Bytes?_base64Groups (bytes : List UInt8) :
    base64Bytes? (base64Groups bytes) = some bytes := by
  fun_induction base64Groups bytes with
  | case1 a b c rest n ih =>
      have hn : n = a.toNat * 65536 + b.toNat * 256 + c.toNat := rfl
      clear_value n
      have ha := a.toNat_lt
      have hb := b.toNat_lt
      have hc := c.toNat_lt
      rw [base64Bytes?.eq_4 _ _ _ _ _ (fun _ h => absurd h (base64Digit_ne_pad _ (by omega)))
        (fun h => absurd h (base64Digit_ne_pad _ (by omega))),
        (base64Number?_group (n := n) (by omega)).2.2, ih]
      simp only [ofNat_eq_of_mod (show n / 65536 % 256 = a.toNat by omega),
        ofNat_eq_of_mod (show n / 256 % 256 = b.toNat by omega),
        ofNat_eq_of_mod (show n % 256 = c.toNat by omega), Option.map_some, List.cons_append,
        List.nil_append]
  | case2 a b n =>
      have hn : n = a.toNat * 65536 + b.toNat * 256 := rfl
      clear_value n
      have ha := a.toNat_lt
      have hb := b.toNat_lt
      rw [base64Bytes?.eq_3 _ _ _ (base64Digit_ne_pad _ (by omega)),
        (base64Number?_group (n := n) (by omega)).2.1]
      simp only [ofNat_eq_of_mod (show n / 64 / 1024 % 256 = a.toNat by omega),
        ofNat_eq_of_mod (show n / 64 / 4 % 256 = b.toNat by omega),
        if_pos (show n / 64 % 4 = 0 by omega)]
  | case3 a n =>
      have hn : n = a.toNat * 65536 := rfl
      clear_value n
      have ha := a.toNat_lt
      rw [base64Bytes?, (base64Number?_group (n := n) (by omega)).1]
      simp only [ofNat_eq_of_mod (show n / 4096 / 16 % 256 = a.toNat by omega),
        if_pos (show n / 4096 % 16 = 0 by omega)]
  | case4 => rfl

theorem base64Decode?_base64Encode (s : String) : base64Decode? (base64Encode s) = some s := by
  rw [base64Decode?, base64Encode, String.toList_ofList, base64Bytes?_base64Groups]
  exact ofUtf8?_utf8 s

end Specimen.Text
