import Specimen.Proofs.Regex.Rendering
/-!
# Reading the pieces of canonical texts

What the readers of escapes, classes, quantifiers and references make of the canonical text of a
piece, whatever text comes after it.
-/

namespace Specimen.Regex

/-! ## Characters -/

theorem hexDigit?_of_isDigit {c : Char} (h : c.isDigit = true) :
    hexDigit? c = some (c.toNat - '0'.toNat) := by
  rw [hexDigit?, if_pos h]

theorem toNat_of_isDigit {c : Char} (h : c.isDigit = true) : 48 ≤ c.toNat ∧ c.toNat ≤ 57 := by
  simpa [Char.isDigit, UInt32.le_iff_toNat_le] using h

theorem hexChar_of_isDigit {c : Char} (h : c.isDigit = true) (position : Nat)
    (rest : List Char) :
    hexChar position 2 ('3' :: c :: rest) = .ok ⟨c, 3⟩ := by
  obtain ⟨hlow, hhigh⟩ := toNat_of_isDigit h
  have hvalue : hexValue position 2 0 ('3' :: c :: rest) = .ok c.toNat := by
    simp only [hexValue, hexDigit?_of_isDigit h, hexDigit?_of_isDigit (c := '3') rfl]
    rw [show (0 * 16 + ('3'.toNat - '0'.toNat)) * 16 + (c.toNat - '0'.toNat) = c.toNat by
      simp only [Char.reduceToNat]
      omega]
  have hcode : isCodePoint c.toNat = true := by
    simp [isCodePoint]
    omega
  rw [hexChar, hvalue]
  simp only [bind, Except.bind, hcode, if_true, Char.ofNat_toNat]

theorem category?_eq_none {c : Char} (h : c.isAlphanum = false) : category? c = none := by
  unfold category?
  split <;> first | rfl | cases h

theorem anchor?_eq_none {c : Char} (h : c.isAlphanum = false) : anchor? c = none := by
  unfold anchor?
  split <;> first | rfl | cases h

theorem escapedChar_of_symbol {c : Char} (h : c.isAlphanum = false) (position : Nat)
    (rest : List Char) : escapedChar position (c :: rest) = .ok ⟨c, 1⟩ := by
  simp only [escapedChar]
  split
  case h_12 => rw [if_neg (by simp [h])]
  all_goals cases h

theorem not_digit_of_symbol {c : Char} (h : c.isAlphanum = false) : ¬ ('1' ≤ c ∧ c ≤ '9') := by
  rintro ⟨hlow, hhigh⟩
  have hdigit : c.isDigit = true := by
    simp only [Char.isDigit, Bool.and_eq_true, decide_eq_true_eq]
    exact ⟨Nat.le_trans (by decide) hlow, hhigh⟩
  simp [Char.isAlphanum, hdigit] at h

/-- A text of a character with a backslash is an escape of that character. -/
theorem escapedChar_of_charText {c : Char} {t : List Char} (h : charText c = '\\' :: t)
    (position : Nat) (rest : List Char) :
    escapedChar position (t ++ rest) = .ok ⟨c, t.length⟩ := by
  rcases charText_cases c with ⟨-, hsign, htext⟩ | ⟨hdigit, htext⟩ | ⟨hsymbol, htext⟩ <;>
    rw [htext] at h <;> cases h
  · exact absurd (by decide) hsign
  · exact hexChar_of_isDigit hdigit _ rest
  · exact escapedChar_of_symbol hsymbol position rest

/-- An escape of a character is no class, no anchor and no reference. -/
theorem head_of_charText {c : Char} {t : List Char} (h : charText c = '\\' :: t) :
    ∃ d t', t = d :: t' ∧ category? d = none ∧ anchor? d = none ∧ ¬ ('1' ≤ d ∧ d ≤ '9') := by
  rcases charText_cases c with ⟨-, hsign, htext⟩ | ⟨-, htext⟩ | ⟨hsymbol, htext⟩ <;>
    rw [htext] at h <;> cases h
  · exact absurd (by decide) hsign
  · exact ⟨'x', _, rfl, rfl, rfl, by decide⟩
  · exact ⟨c, _, rfl, category?_eq_none hsymbol, anchor?_eq_none hsymbol,
      not_digit_of_symbol hsymbol⟩

/-! ## Classes -/

section Classes

variable {position used : Nat} {c : Char} {more : List Char}

theorem rangeFrom_of_char (h : more.head? ≠ some '-') :
    rangeFrom c used position more = .ok ⟨.char c, used⟩ := by
  unfold rangeFrom
  split
  · exact absurd rfl h
  · rfl

theorem rangeEndChar_of_charText (position : Nat) (c : Char) (more : List Char) :
    rangeEndChar position (charText c ++ more) = .ok ⟨c, (charText c).length⟩ := by
  rcases charText_cases c with ⟨-, hsign, htext⟩ | ⟨-, htext⟩ | ⟨-, htext⟩
  · rw [htext, List.singleton_append]
    unfold rangeEndChar
    split
    · cases ‹_ = []›
    · rename_i hcons
      cases hcons
      exact absurd (by decide) hsign
    · rename_i hcons
      cases hcons
      rfl
  all_goals
    have hescape := escapedChar_of_charText htext (position + 1) more
    rw [htext, List.cons_append, rangeEndChar, hescape]
    rfl

theorem head_charText (c : Char) :
    ∃ d t, charText c = d :: t ∧ (d = '\\' ∨ (d = c ∧ t = [] ∧ c ∉ signs)) := by
  rcases charText_cases c with ⟨-, hsign, h⟩ | ⟨-, h⟩ | ⟨-, h⟩
  · exact ⟨c, [], h, .inr ⟨rfl, rfl, hsign⟩⟩
  · exact ⟨_, _, h, .inl rfl⟩
  · exact ⟨_, _, h, .inl rfl⟩

theorem ne_of_head {c d e : Char} {t : List Char} (h : d = '\\' ∨ (d = c ∧ t = [] ∧ c ∉ signs))
    (he : e ∈ signs) (hne : e ≠ '\\') : d ≠ e := by
  rintro rfl
  rcases h with h | ⟨rfl, -, h⟩
  · exact hne h
  · exact h he

theorem rangeFrom_of_range {first last : Char} (hle : first ≤ last) :
    rangeFrom first used position ('-' :: (charText last ++ more)) =
      .ok ⟨.range first last, used + 1 + (charText last).length⟩ := by
  obtain ⟨d, t, htext, hd⟩ := head_charText last
  have hend := rangeEndChar_of_charText (position + 1) last more
  rw [htext, List.cons_append] at hend ⊢
  have hbracket : d ≠ ']' := ne_of_head hd (by decide) (by decide)
  simp only [rangeFrom, if_neg hbracket, rangeEnd, hend, bind, Except.bind,
    if_neg (Char.not_lt.2 hle)]

/-- A character at the start of a member is read and then perhaps the end of a range. -/
theorem classItem_of_charText {d : Char} {t : List Char} (h : charText c = d :: t)
    (hd : d = '\\' ∨ (d = c ∧ t = [] ∧ c ∉ signs)) (position : Nat) (more : List Char) :
    ∃ position',
      classItem position d (t ++ more) = rangeFrom c (t.length + 1) position' more := by
  rcases hd with rfl | ⟨rfl, rfl, hsign⟩
  · obtain ⟨e, t', rfl, hcategory, -⟩ := head_of_charText h
    have hescape := escapedChar_of_charText h (position + 1) more
    refine ⟨position + (t'.length + 1) + 1, ?_⟩
    rw [classItem, if_pos rfl]
    simp only [List.cons_append, List.head?_cons, Option.bind_some, hcategory] at hescape ⊢
    rw [hescape]
    simp only [bind, Except.bind]
    rw [← List.cons_append, List.drop_left, List.length_cons]
  · have hescape : d ≠ '\\' := by
      rintro rfl
      exact hsign (by decide)
    exact ⟨_, by rw [classItem, if_neg hescape]; rfl⟩

/-- What a member of a class begins with does not close the class, nor negate it. -/
theorem classItem_of_text (i : ClassItem) (hi : i.IsOrdered) :
    ∃ d t, i.text = d :: t ∧ d ≠ ']' ∧ d ≠ '^' ∧ d ≠ '-' ∧
      ∀ position (more : List Char), more.head? ≠ some '-' →
        classItem position d (t ++ more) = .ok ⟨i, t.length + 1⟩ := by
  cases i with
  | char c =>
      obtain ⟨d, t, htext, hd⟩ := head_charText c
      refine ⟨d, t, htext, ne_of_head hd (by decide) (by decide),
        ne_of_head hd (by decide) (by decide), ne_of_head hd (by decide) (by decide),
        fun position more hmore => ?_⟩
      obtain ⟨position', hitem⟩ := classItem_of_charText htext hd position more
      rw [hitem, rangeFrom_of_char hmore]
  | range first last =>
      obtain ⟨d, t, htext, hd⟩ := head_charText first
      refine ⟨d, t ++ '-' :: charText last, by rw [ClassItem.text, htext, List.cons_append],
        ne_of_head hd (by decide) (by decide), ne_of_head hd (by decide) (by decide),
        ne_of_head hd (by decide) (by decide), fun position more _ => ?_⟩
      obtain ⟨position', hitem⟩ :=
        classItem_of_charText htext hd position ('-' :: (charText last ++ more))
      rw [List.append_assoc, List.cons_append, hitem, rangeFrom_of_range hi]
      simp only [List.length_append, List.length_cons, Except.ok.injEq, Piece.mk.injEq, true_and]
      omega
  | category k =>
      refine ⟨'\\', [k.letter], rfl, by decide, by decide, by decide, fun position more _ => ?_⟩
      cases k <;> rfl

theorem classItems_skip (first : Bool) (items : List ClassItem) (used position : Nat)
    (t more : List Char) :
    classItems first items used t.length position (t ++ more) =
      classItems first items (used + t.length) 0 (position + t.length) more := by
  induction t generalizing used position with
  | nil => rfl
  | cons c t ih =>
      rw [List.length_cons, List.cons_append, classItems, ih]
      congr 1 <;> omega

theorem head_flatMap_text {items : List ClassItem} (h : ∀ i ∈ items, i.IsOrdered)
    (rest : List Char) (d : Char) (hd : d = '-' ∨ d = '^') :
    (items.flatMap ClassItem.text ++ ']' :: rest).head? ≠ some d := by
  cases items with
  | nil => rcases hd with rfl | rfl <;> simp
  | cons i items =>
      obtain ⟨e, t, htext, -, hcaret, hhyphen, -⟩ := classItem_of_text i (h i List.mem_cons_self)
      rw [List.flatMap_cons, htext, List.cons_append, List.cons_append, List.head?_cons]
      rintro hsame
      cases hsame
      rcases hd with rfl | rfl
      · exact hhyphen rfl
      · exact hcaret rfl

theorem classItems_of_text {items : List ClassItem} (h : ∀ i ∈ items, i.IsOrdered)
    (rest : List Char) (first : Bool) (hfirst : first = true → items ≠ [])
    (read : List ClassItem) (used position : Nat) :
    classItems first read used 0 position (items.flatMap ClassItem.text ++ ']' :: rest) =
      .ok ⟨read.reverse ++ items, used + (items.flatMap ClassItem.text).length + 1⟩ := by
  induction items generalizing first read used position with
  | nil =>
      have hnot : first = false := by simpa using hfirst
      simp [classItems, hnot]
  | cons i items ih =>
      rw [List.forall_mem_cons] at h
      obtain ⟨d, t, htext, hbracket, -, -, hitem⟩ := classItem_of_text i h.1
      have hhead := head_flatMap_text h.2 rest '-' (.inl rfl)
      rw [List.flatMap_cons, htext, List.append_assoc, List.cons_append, classItems,
        if_neg (fun hand => hbracket hand.1), hitem _ _ hhead]
      simp only [Nat.add_sub_cancel]
      rw [classItems_skip, ih h.2 false (by simp)]
      simp only [List.reverse_cons, List.append_assoc, List.nil_append, List.cons_append,
        List.length_cons, List.length_append, Except.ok.injEq, Piece.mk.injEq, true_and]
      omega

/-- The construct of a class, where excluding one character has a form of its own. -/
def classConstruct (negated : Bool) (items : List ClassItem) : Construct :=
  match negated, items with
  | true, [.char c] => .notLiteral c
  | _, _ => .charClass negated items

theorem charClass_eq (position : Nat) (negated : Bool) {cs : List Char}
    (h : negated = (cs.head? == some '^')) :
    charClass position cs =
      (classItems true [] (if negated then 1 else 0) 0 (position + if negated then 1 else 0)
        (cs.drop (if negated then 1 else 0))).map
          fun p => ⟨classConstruct negated p.value, p.used⟩ := by
  subst h
  simp only [charClass]
  cases classItems true [] _ 0 _ _ with
  | error e => rfl
  | ok p =>
      simp only [bind, Except.bind, Except.map, classConstruct]
      split <;> simp_all

theorem charClass_of_text (negated : Bool) {items : List ClassItem} (hne : items ≠ [])
    (h : ∀ i ∈ items, i.IsOrdered) :
    ∃ t, classText negated items = '[' :: t ∧ ∀ position rest,
      charClass position (t ++ rest) = .ok ⟨classConstruct negated items, t.length⟩ := by
  refine ⟨_, rfl, fun position rest => ?_⟩
  have hclose :
      (if negated then ['^'] else []) ++ items.flatMap ClassItem.text ++ [']'] ++ rest =
      (if negated then ['^'] else []) ++ (items.flatMap ClassItem.text ++ ']' :: rest) := by
    simp only [List.append_assoc, List.singleton_append]
  have hitems := fun used position =>
    classItems_of_text h rest true (fun _ => hne) [] used position
  have hsign : negated = (((if negated then ['^'] else []) ++
      (items.flatMap ClassItem.text ++ ']' :: rest)).head? == some '^') := by
    cases negated with
    | true => rfl
    | false => simpa using head_flatMap_text h rest '^' (.inr rfl)
  rw [hclose, charClass_eq position negated hsign]
  cases negated with
  | true =>
      simp only [if_true, List.singleton_append, List.drop_succ_cons, List.drop_zero, hitems,
        Except.map, List.reverse_nil, List.nil_append, List.length_append, List.length_cons,
        List.length_nil, Except.ok.injEq, Piece.mk.injEq, true_and]
      omega
  | false =>
      simp only [Bool.false_eq_true, if_false, List.nil_append, List.drop_zero, hitems,
        Except.map, List.reverse_nil, List.length_append, List.length_cons, List.length_nil,
        Nat.zero_add]

end Classes

/-! ## Numbers -/

theorem isDigit_of_mem_digits {n : Nat} {c : Char} (h : c ∈ digits n) : c.isDigit = true :=
  Nat.isDigit_of_mem_toDigits (by decide) (by decide) h

theorem takeWhile_digits (n : Nat) {c : Char} (hc : c.isDigit = false) (rest : List Char) :
    (digits n ++ c :: rest).takeWhile Char.isDigit = digits n ∧
      (digits n ++ c :: rest).dropWhile Char.isDigit = c :: rest :=
  span_append_cons (fun _ => isDigit_of_mem_digits) hc

theorem number?_digits {n : Nat} (h : n < UInt64.size) : number? (digits n) = some n := by
  have hvalue : (digits n).foldl (fun n c => n * 10 + (c.toNat - '0'.toNat)) 0 = n := by
    have hdigits := Nat.ofDigitChars_toDigits (b := 10) (n := n) (by decide) (by decide)
    simpa only [digits, Nat.ofDigitChars, Nat.mul_comm] using hdigits
  have hne : (digits n).isEmpty = false := by
    simp [digits, Nat.toDigits_ne_nil]
  simp only [number?, hne, hvalue, if_pos h, Bool.false_eq_true, if_false]

theorem bounds?_of_text {least : Nat} {most : Option Nat} (hleast : least < UInt64.size)
    (hmost : ∀ m ∈ most, m < UInt64.size) (rest : List Char) :
    bounds? (digits least ++ ',' :: ((most.map digits).getD [] ++ '\x7d' :: rest)) =
      some ((least, most), (digits least).length + ((most.map digits).getD []).length + 2) := by
  obtain ⟨hlow, hafter⟩ := takeWhile_digits least (c := ',') rfl
    ((most.map digits).getD [] ++ '\x7d' :: rest)
  simp only [bounds?, hlow, hafter, number?_digits hleast, Option.getD_some]
  cases most with
  | none => simp [number?]
  | some m =>
      obtain ⟨hhigh, hclose⟩ := takeWhile_digits m (c := '\x7d') rfl rest
      simp only [Option.map_some, Option.getD_some, hhigh, hclose, number?_digits (hmost m rfl)]

theorem suffix_of_follows {cs : List Char} (h : Follows cs) : suffix cs = 0 := by
  unfold suffix
  split
  · exact absurd rfl (h '?' rfl).2.1
  · exact absurd rfl (h '+' rfl).2.2
  · rfl

theorem braces_of_text {least : Nat} {most : Option Nat} (hleast : least < UInt64.size)
    (hmost : ∀ m ∈ most, least ≤ m ∧ m < UInt64.size) (position : Nat) {rest : List Char}
    (hrest : Follows rest) :
    ∃ t blame, boundsText least most = '\x7b' :: t ∧
      braces position (t ++ rest) = .ok ⟨.quantifier least most blame, t.length⟩ := by
  have hbounds := bounds?_of_text hleast (fun m hm => (hmost m hm).2) rest
  refine
    ⟨_, position + 1 + ((digits least).length + ((most.map digits).getD []).length + 2), rfl, ?_⟩
  have hlength : (digits least ++ ',' :: ((most.map digits).getD [] ++ ['\x7d'])).length =
      (digits least).length + ((most.map digits).getD []).length + 2 := by
    simp only [List.length_append, List.length_cons, List.length_nil]
    omega
  have hsame : digits least ++ ',' :: ((most.map digits).getD [] ++ ['\x7d']) ++ rest =
      digits least ++ ',' :: ((most.map digits).getD [] ++ '\x7d' :: rest) := by
    simp only [List.append_assoc, List.cons_append, List.nil_append]
  have hsuffix : suffix ((digits least ++
      ',' :: ((most.map digits).getD [] ++ '\x7d' :: rest)).drop
        ((digits least).length + ((most.map digits).getD []).length + 2)) = 0 := by
    rw [← hsame, ← hlength, List.drop_left]
    exact suffix_of_follows hrest
  rw [braces, hsame, hbounds, hlength]
  cases most with
  | none => simp only [hsuffix, Nat.add_zero]
  | some m => simp only [if_neg (Nat.not_lt.2 (hmost m rfl).1), hsuffix, Nat.add_zero]

theorem digits_of_lt {n : Nat} (h : n < 10) : digits n = [n.digitChar] :=
  Nat.toDigits_of_lt_base h

theorem digits_of_le {n : Nat} (h : 10 ≤ n) (hlt : n < 100) :
    digits n = [(n / 10).digitChar, (n % 10).digitChar] := by
  have hfirst : digits (n / 10) = [(n / 10).digitChar] := digits_of_lt (by omega)
  rw [digits, Nat.toDigits_of_base_le (by decide) h, ← digits, hfirst, List.singleton_append]

theorem digitChar_escape : ∀ n < 10, category? n.digitChar = none ∧ anchor? n.digitChar = none ∧
    (1 ≤ n → '1' ≤ n.digitChar ∧ n.digitChar ≤ '9') := by
  decide

/-- A reference by number, before a text that does not make a second digit of it. -/
theorem escape_of_digits {groups : Groups} {i : Nat} (hpos : 1 ≤ i) (hlt : i ≤ 99)
    (position : Nat) {rest : List Char} (hrest : i < 10 → ∀ c ∈ rest.head?, c.isDigit = false) :
    escape groups position (digits i ++ rest) =
      if groups.count < i then .error (.unknownGroup (toString i))
      else .ok ⟨.backref i, (digits i).length⟩ := by
  rcases Nat.lt_or_ge i 10 with hone | htwo
  · obtain ⟨hcategory, hanchor, hrange⟩ := digitChar_escape i hone
    have hfirst : i.digitChar.toNat - '0'.toNat = i := by
      rw [Nat.toNat_digitChar_of_lt_ten hone]
      exact Nat.add_sub_cancel_left 48 i
    rw [digits_of_lt hone, List.singleton_append, escape]
    simp only [hcategory, hanchor, if_pos (hrange hpos), backref, hfirst]
    cases rest with
    | nil => rfl
    | cons c rest =>
        have hc : c.isDigit = false := hrest hone c rfl
        simp only [hc, Bool.false_eq_true, if_false, List.length_cons, List.length_nil]
  · obtain ⟨hcategory, hanchor, hrange⟩ := digitChar_escape (i / 10) (by omega)
    have hvalue : ((i / 10).digitChar.toNat - '0'.toNat) * 10 +
        ((i % 10).digitChar.toNat - '0'.toNat) = i := by
      rw [Nat.toNat_digitChar_of_lt_ten (by omega), Nat.toNat_digitChar_of_lt_ten (by omega)]
      simp only [Char.reduceToNat]
      omega
    have hsecond : (i % 10).digitChar.isDigit = true := by
      rw [Nat.isDigit_digitChar]
      exact decide_eq_true (by omega)
    rw [digits_of_le htwo (by omega), List.cons_append, List.singleton_append, escape]
    simp only [hcategory, hanchor, if_pos (hrange (by omega)), backref, hsecond, if_true, hvalue,
      List.length_cons, List.length_nil]

theorem escape_of_backref {groups : Groups} {i : Nat} (hpos : 1 ≤ i) (hlt : i ≤ 99)
    (hopen : i ≤ groups.count) (position : Nat) {rest : List Char} (hrest : Follows rest) :
    escape groups position (digits i ++ rest) = .ok ⟨.backref i, (digits i).length⟩ := by
  rw [escape_of_digits hpos hlt position fun _ c hc => (hrest c hc).1, if_neg (by omega)]

end Specimen.Regex
