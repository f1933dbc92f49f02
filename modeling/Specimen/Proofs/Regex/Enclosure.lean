import Specimen.Proofs.Regex.Complaints
import Specimen.Proofs.Regex.Conditionals
/-!
# Patterns in a group

A pattern with a tree has the same tree inside a group that does not capture (`parse_enclosed`).
A reader may look behind its piece for a second digit, the end of a range, bounds or a suffix.
None of these begins with a closing parenthesis, so a reader that comes to its end where the
pattern stops comes to it where such a parenthesis follows, too (`Persists`).
-/

namespace Specimen.Regex

variable {α β : Type}

/-- What the first one results in the second one does; they may fail in different ways. -/
def Persists (x y : Except PatternError α) : Prop := ∀ a, x = .ok a → y = .ok a

namespace Persists

variable {x y : Except PatternError α}

theorem refl (x : Except PatternError α) : Persists x x := fun _ h => h

theorem fail {i : Nat} {f : Fault} : Persists (Regex.fail i f) y := nofun

theorem bind {f g : α → Except PatternError β} (hx : Persists x y)
    (hf : ∀ a, x = .ok a → Persists (f a) (g a)) : Persists (x >>= f) (y >>= g) := by
  intro b h
  obtain ⟨a, ha, hb⟩ := bind_eq_ok.1 h
  exact bind_eq_ok.2 ⟨a, hx a ha, hf a ha b hb⟩

theorem map {f : α → β} (hx : Persists x y) : Persists (x.map f) (y.map f) := by
  intro b h
  obtain ⟨a, ha, hb⟩ := map_eq_ok.1 h
  exact map_eq_ok.2 ⟨a, hx a ha, hb⟩

end Persists

section Readers

variable {i j used : Nat} {cs t : List Char}

/-! ## Escapes -/

theorem persists_hexValue (digits value : Nat) :
    Persists (hexValue i digits value cs) (hexValue j digits value (cs ++ t)) := by
  induction digits generalizing i j value cs with
  | zero => exact .refl _
  | succ digits ih =>
      cases cs with
      | nil => exact .fail
      | cons c cs =>
          rw [List.cons_append, hexValue, hexValue]
          cases hexDigit? c with
          | none => exact .fail
          | some d => exact ih _

theorem persists_hexChar (digits : Nat) :
    Persists (hexChar i digits cs) (hexChar j digits (cs ++ t)) := by
  refine (persists_hexValue digits 0).bind fun code _ => ?_
  by_cases hcode : isCodePoint code
  · rw [if_pos hcode, if_pos hcode]
    exact .refl _
  · rw [if_neg hcode]
    exact .fail

theorem persists_escapedChar : Persists (escapedChar i cs) (escapedChar j (cs ++ t)) := by
  cases cs with
  | nil => exact .fail
  | cons c cs =>
      rw [List.cons_append]
      simp only [escapedChar]
      split
      case h_9 => exact persists_hexChar 2
      case h_10 => exact persists_hexChar 4
      case h_11 => exact persists_hexChar 8
      case h_12 =>
        by_cases hword : c.isAlphanum
        · rw [if_pos hword]
          exact .fail
        · rw [if_neg hword, if_neg hword]
          exact .refl _
      all_goals exact .refl _

theorem persists_backref {groups : Groups} {c : Char} :
    Persists (backref groups c cs) (backref groups c (cs ++ ')' :: t)) := by
  cases cs with
  | nil => exact .refl _
  | cons d cs => exact .refl _

theorem persists_escape {groups : Groups} :
    Persists (escape groups i cs) (escape groups j (cs ++ ')' :: t)) := by
  cases cs with
  | nil => exact .fail
  | cons c cs =>
      rw [List.cons_append, escape, escape]
      cases category? c with
      | some k => exact .refl _
      | none =>
          cases anchor? c with
          | some a => exact .refl _
          | none =>
              by_cases hdigit : '1' ≤ c ∧ c ≤ '9'
              · rw [if_pos hdigit, if_pos hdigit]
                exact persists_backref
              · rw [if_neg hdigit, if_neg hdigit]
                exact persists_escapedChar.bind fun _ _ => .refl _

/-! ## Classes -/

theorem persists_rangeEndChar : Persists (rangeEndChar i cs) (rangeEndChar j (cs ++ t)) := by
  cases cs with
  | nil => exact .fail
  | cons c cs =>
      rw [List.cons_append]
      by_cases hescape : c = '\\'
      · subst hescape
        exact persists_escapedChar.bind fun _ _ => .refl _
      · have hplain : ∀ i cs, rangeEndChar i (c :: cs) = .ok ⟨c, 1⟩ := fun i cs => by
          rw [rangeEndChar]
          exact hescape
        rw [hplain, hplain]
        exact .refl _

theorem persists_rangeEnd (first : Char) :
    Persists (rangeEnd first i cs) (rangeEnd first j (cs ++ t)) := by
  refine persists_rangeEndChar.bind fun q _ => ?_
  dsimp only
  by_cases horder : q.value < first
  · rw [if_pos horder]
    exact .fail
  · rw [if_neg horder, if_neg horder]
    exact .refl _

/-- A hyphen at the end is no range, but it would be one before the parenthesis. -/
theorem rangeFrom_append {first : Char} {q : Piece ClassItem}
    (h : rangeFrom first used i cs = .ok q) (hhyphen : cs.drop (q.used - used) ≠ ['-']) :
    rangeFrom first used j (cs ++ ')' :: t) = .ok q := by
  unfold rangeFrom at h
  split at h
  · rename_i d rest
    rw [List.cons_append, List.cons_append, rangeFrom]
    by_cases hclose : d = ']'
    · rw [if_pos hclose] at h ⊢
      exact h
    · rw [if_neg hclose] at h ⊢
      exact (persists_rangeEnd first).bind (fun _ _ => .refl _) q h
  · rename_i hrange
    cases h
    rw [Nat.sub_self, List.drop_zero] at hhyphen
    rw [rangeFrom]
    intro d rest hcs
    rcases cs with _ | ⟨c, _ | ⟨e, cs⟩⟩
    · cases hcs
    · cases hcs
      exact hhyphen rfl
    · cases hcs
      exact hrange _ _ rfl

theorem classItem_append {c : Char} {q : Piece ClassItem} (h : classItem i c cs = .ok q)
    (hhyphen : cs.drop (q.used - 1) ≠ ['-']) : classItem j c (cs ++ ')' :: t) = .ok q := by
  unfold classItem at h ⊢
  by_cases hescape : c = '\\'
  · rw [if_pos hescape] at h ⊢
    cases cs with
    | nil => cases h
    | cons d cs =>
        rw [List.cons_append]
        rw [show (d :: cs).head?.bind category? = category? d from rfl] at h
        rw [show (d :: (cs ++ ')' :: t)).head?.bind category? = category? d from rfl]
        cases hk : category? d with
        | some k =>
            rw [hk] at h
            exact h
        | none =>
            rw [hk] at h
            obtain ⟨e, he, h⟩ := bind_eq_ok.1 h
            have hused := used_le_of_escapedChar he
            refine bind_eq_ok.2 ⟨e, persists_escapedChar (t := ')' :: t) e he, ?_⟩
            dsimp only at h ⊢
            rw [← List.cons_append, List.drop_append_of_le_length hused]
            obtain ⟨n, hn, -⟩ := takes_of_rangeFrom h
            refine rangeFrom_append h ?_
            rwa [List.drop_drop, show e.used + (q.used - (e.used + 1)) = q.used - 1 by omega]
  · rw [if_neg hescape] at h ⊢
    exact rangeFrom_append h hhyphen

/-- No member of a class is a hyphen with nothing behind it, since the bracket is. -/
theorem ne_hyphen_of_classItems {items : List ClassItem} {skip : Nat}
    {q : Piece (List ClassItem)} (h : classItems false items used skip i cs = .ok q) :
    cs.drop skip ≠ ['-'] := by
  intro hdrop
  induction cs generalizing used skip i with
  | nil =>
      rw [List.drop_nil] at hdrop
      cases hdrop
  | cons c cs ih =>
      cases skip with
      | succ skip => exact ih h hdrop
      | zero =>
          cases hdrop
          cases h

theorem persists_classItems {first : Bool} {items : List ClassItem} {skip : Nat} :
    Persists (classItems first items used skip i cs)
      (classItems first items used skip j (cs ++ ')' :: t)) := by
  intro q h
  induction cs generalizing first items used skip i j with
  | nil => cases skip <;> cases h
  | cons c cs ih =>
      rw [List.cons_append]
      cases skip with
      | succ skip => exact ih h
      | zero =>
          unfold classItems at h ⊢
          by_cases hclose : c = ']' ∧ ¬ first
          · rw [if_pos hclose] at h ⊢
            exact h
          · rw [if_neg hclose] at h ⊢
            cases hitem : classItem i c cs with
            | error e =>
                rw [hitem] at h
                cases h
            | ok item =>
                rw [hitem] at h
                rw [classItem_append hitem (ne_hyphen_of_classItems h)]
                exact ih h

theorem persists_charClass : Persists (charClass i cs) (charClass j (cs ++ ')' :: t)) := by
  cases cs with
  | nil => exact nofun
  | cons c cs =>
      have hsign : ((c :: cs).head? == some '^') = ((c :: cs ++ ')' :: t).head? == some '^') :=
        rfl
      rw [charClass_eq i _ rfl, charClass_eq j _ hsign]
      refine Persists.map ?_
      cases (c :: cs).head? == some '^' <;> exact persists_classItems

/-! ## Quantifiers -/

theorem span_append : (cs ++ ')' :: t).takeWhile Char.isDigit = cs.takeWhile Char.isDigit ∧
    (cs ++ ')' :: t).dropWhile Char.isDigit = cs.dropWhile Char.isDigit ++ ')' :: t := by
  induction cs with
  | nil => exact ⟨rfl, rfl⟩
  | cons c cs ih =>
      cases hc : c.isDigit <;> simp [hc, ih]

theorem bounds?_append (cs t : List Char) : bounds? (cs ++ ')' :: t) = bounds? cs := by
  unfold bounds?
  rw [span_append.1, span_append.2]
  cases cs.dropWhile Char.isDigit with
  | nil => rfl
  | cons c rest =>
      rw [List.cons_append]
      by_cases hcomma : c = ','
      · subst hcomma
        simp only [span_append]
        cases rest.dropWhile Char.isDigit with
        | nil => rfl
        | cons d more =>
            rw [List.cons_append]
            split <;> split <;> simp_all
      · split <;> simp_all

theorem suffix_append (cs t : List Char) : suffix (cs ++ ')' :: t) = suffix cs := by
  cases cs with
  | nil => rfl
  | cons c cs =>
    unfold suffix
    split <;> simp_all

/-- A token that takes the machine where another takes it; they may stand at different places. -/
def Token.Replaces (k k' : Token) : Prop := ∀ r : Reader, Persists (r.step k) (r.step k')

theorem Token.Replaces.refl (k : Token) : k.Replaces k := fun _ => .refl _

theorem replaces_quantifier {least : Nat} {most : Option Nat} :
    Token.Replaces (.quantifier least most i) (.quantifier least most j) := by
  intro r
  rw [Reader.step, Reader.step]
  cases r.level.items with
  | nil => exact .fail
  | cons c items => exact .refl _

theorem replaces_closing : Token.Replaces (.closing i) (.closing j) := by
  intro r
  rw [Reader.step, Reader.step]
  cases r.stack with
  | nil => exact .fail
  | cons top stack => exact .refl _

theorem exists_braces {q : Piece Token} (h : braces i cs = .ok q) :
    ∃ k, braces j (cs ++ ')' :: t) = .ok ⟨k, q.used⟩ ∧ q.value.Replaces k := by
  unfold braces at h ⊢
  rw [bounds?_append]
  cases hbounds : bounds? cs with
  | none =>
      rw [hbounds] at h
      cases h
      exact ⟨_, rfl, .refl _⟩
  | some bounds =>
      obtain ⟨⟨least, most⟩, n⟩ := bounds
      rw [hbounds] at h
      have hsuffix : suffix ((cs ++ ')' :: t).drop n) = suffix (cs.drop n) := by
        rw [List.drop_append_of_le_length (takes_of_bounds hbounds).le, suffix_append]
      dsimp only at h ⊢
      rw [hsuffix]
      split at h
      · split at h
        · cases h
        · rename_i horder
          cases h
          exact ⟨_, if_neg horder, replaces_quantifier⟩
      · cases h
        exact ⟨_, rfl, replaces_quantifier⟩

/-! ## Groups -/

theorem persists_name {terminator : Char} {acc : List Char} :
    Persists (name terminator acc used i cs) (name terminator acc used j (cs ++ t)) := by
  induction cs generalizing acc used i j with
  | nil => exact .fail
  | cons c cs ih =>
      rw [List.cons_append, name, name]
      by_cases hend : c = terminator
      · rw [if_pos hend, if_pos hend]
        by_cases hempty : acc.isEmpty
        · rw [if_pos hempty]
          exact .fail
        · rw [if_neg hempty, if_neg hempty]
          exact .refl _
      · rw [if_neg hend, if_neg hend]
        by_cases hword : Text.isAlphanumeric c ∨ c = '_'
        · rw [if_pos hword, if_pos hword]
          exact ih
        · rw [if_neg hword]
          exact .fail

theorem persists_comment : Persists (comment used i cs) (comment used j (cs ++ t)) := by
  induction cs generalizing used i j with
  | nil => exact .fail
  | cons c cs ih =>
      rw [List.cons_append, comment, comment]
      by_cases hclose : c = ')'
      · rw [if_pos hclose, if_pos hclose]
        exact .refl _
      · rw [if_neg hclose, if_neg hclose]
        exact ih

theorem persists_nested {depth : Nat} :
    Persists (nested (depth + 1) used i cs) (nested (depth + 1) used j (cs ++ t)) := by
  intro q h
  obtain ⟨u, more, rfl, hused, hu⟩ := exists_of_nested h
  obtain ⟨⟨⟩, n⟩ := q
  rw [List.append_assoc, List.cons_append, nested_of_depthAfter hu]
  rw [show n = used + u.length + 1 from hused]

theorem persists_namedGroup {groups : Groups} :
    Persists (namedGroup groups used i cs) (namedGroup groups used j (cs ++ t)) :=
  persists_name.bind fun _ _ => .refl _

theorem persists_inlineFlags {groups : Groups} :
    Persists (inlineFlags groups i cs) (inlineFlags groups j (cs ++ t)) := by
  intro q h
  obtain ⟨flags, c, more, rfl, hflags, hq⟩ := exists_of_inlineFlags h
  have hc : isFlag c = false := by rcases hq with ⟨rfl, -⟩ | ⟨rfl, -⟩ <;> decide
  obtain ⟨htake, hdrop⟩ := span_append_cons (t := more ++ t) hflags hc
  rw [List.append_assoc, List.cons_append]
  rcases hq with ⟨rfl, rfl⟩ | ⟨rfl, rfl⟩ <;> simp only [inlineFlags, htake, hdrop]

theorem persists_groupStart {groups : Groups} :
    Persists (groupStart groups i cs) (groupStart groups j (cs ++ ')' :: t)) := by
  intro q h
  -- The text after the parenthesis is long enough to tell which case
  -- this is, or nothing is read.
  unfold groupStart at h
  split at h
  · exact h
  · exact persists_namedGroup q h
  · refine persists_name.bind (fun n _ => ?_) q h
    exact .refl _
  · exact h
  · exact h
  · rename_i rest hequals hbang
    cases rest with
    | nil => cases h
    | cons d rest =>
        rw [List.cons_append, List.cons_append, groupStart]
        · exact persists_namedGroup q h
        all_goals rintro _ ⟨⟩
        · exact hequals _ rfl
        · exact hbang _ rfl
  · exact h
  · exact h
  · exact persists_comment.bind (fun _ _ => .refl _) q h
  · exact persists_nested.bind (fun _ _ => .refl _) q h
  · rename_i rest hcolon _ _ _ _ hbracket hequals hbang hhash hopening
    cases rest with
    | nil => cases h
    | cons d rest =>
        have hname : d ≠ 'P' := by
          rintro rfl
          cases h
        rw [List.cons_append, List.cons_append, groupStart]
        · exact persists_inlineFlags q h
        all_goals
          intro u hu
          obtain rfl := (List.cons.inj hu).1
        · exact hcolon _ rfl
        · exact hname rfl
        · exact hname rfl
        · exact hbracket _ rfl
        · exact hbracket _ rfl
        · exact hbracket _ rfl
        · exact hequals _ rfl
        · exact hbang _ rfl
        · exact hhash _ rfl
        · exact hopening _ rfl
  · rename_i hplain
    have hquestion : ∀ rest, cs ++ ')' :: t = '?' :: rest → False := by
      intro rest hcs
      cases cs with
      | nil => cases hcs
      | cons c cs =>
          cases hcs
          exact hplain _ rfl
    rw [groupStart]
    · exact h
    all_goals exact fun rest => hquestion _

/-! ## Tokens -/

theorem exists_token {groups : Groups} {c : Char} {q : Piece (Token × Groups)}
    (h : token groups i c cs = .ok q) :
    ∃ k, token groups j c (cs ++ ')' :: t) = .ok ⟨(k, q.value.2), q.used⟩ ∧
      q.value.1.Replaces k := by
  unfold token at h
  dsimp only at h
  split at h
  · cases h
    exact ⟨_, rfl, .refl _⟩
  · cases h
    exact ⟨_, rfl, replaces_closing⟩
  · exact ⟨_, persists_groupStart q h, .refl _⟩
  · exact ⟨_, persists_charClass.map q h, .refl _⟩
  · cases h
    exact ⟨_, rfl, .refl _⟩
  · cases h
    exact ⟨_, rfl, .refl _⟩
  · cases h
    exact ⟨_, rfl, .refl _⟩
  · exact ⟨_, persists_escape.map q h, .refl _⟩
  · cases h
    exact ⟨.quantifier 0 none j, by rw [token, suffix_append], replaces_quantifier⟩
  · cases h
    exact ⟨.quantifier 1 none j, by rw [token, suffix_append], replaces_quantifier⟩
  · cases h
    exact ⟨.quantifier 0 (some 1) j, by rw [token, suffix_append], replaces_quantifier⟩
  · obtain ⟨a, ha, rfl⟩ := map_eq_ok.1 h
    obtain ⟨k, hk, hreplaces⟩ := exists_braces ha (j := j) (t := t)
    exact ⟨k, by rw [token, hk]; rfl, hreplaces⟩
  · cases h
    refine ⟨_, ?_, .refl _⟩
    rw [token] <;> assumption

/-- Where a parenthesis follows a text, the machine is in the same state before it as at the
end of the text without it. -/
theorem exists_steps_append {groups : Groups} {skip : Nat} {r r' : Reader}
    (hskip : skip ≤ cs.length)
    (h : (tokensFrom skip i groups cs).foldlM Reader.step r = .ok r') :
    ∃ groups', (tokensFrom skip j groups (cs ++ ')' :: t)).foldlM Reader.step r =
      (tokensFrom 0 (j + cs.length) groups' (')' :: t)).foldlM Reader.step r' := by
  induction cs generalizing skip i j groups r with
  | nil =>
      cases Nat.le_zero.1 hskip
      cases h
      exact ⟨groups, rfl⟩
  | cons c cs ih =>
      rw [List.length_cons] at hskip ⊢
      rw [List.cons_append, show j + (cs.length + 1) = j + 1 + cs.length by omega]
      cases skip with
      | succ skip => exact ih (Nat.le_of_succ_le_succ hskip) h
      | zero =>
          rw [tokensFrom] at h ⊢
          cases htoken : token groups i c cs with
          | error e =>
              rw [htoken] at h
              cases h
          | ok q =>
              obtain ⟨k, hk, hreplaces⟩ := exists_token htoken (j := j) (t := t)
              rw [htoken] at h
              rw [hk]
              obtain ⟨m, hm, h⟩ := bind_eq_ok.1 h
              obtain ⟨groups', hrest⟩ := ih (j := j + 1) (weighs_of_token htoken).used_le h
              refine ⟨groups', ?_⟩
              rw [← hrest, List.foldlM_cons, hreplaces r m hm]
              rfl

end Readers

/-! ## Groups around a pattern -/

/-- The reader with more groups open around all that are. -/
def Reader.inside (r : Reader) (outer : List (Opening × Level)) : Reader :=
  { r with stack := r.stack ++ outer }

namespace Reader

variable {r r' : Reader} {outer : List (Opening × Level)}

theorem step_inside {k : Token} (h : r.step k = .ok r') :
    (r.inside outer).step k = .ok (r'.inside outer) := by
  cases k with
  | quantifier least most blame =>
      simp only [step, inside] at h ⊢
      split at h <;> cases h
      rfl
  | closing position =>
      simp only [step, inside] at h ⊢
      split at h <;> cases h
      rename_i hstack
      rw [hstack]
      rfl
  | fault e => cases h
  | _ =>
      cases h
      rfl

theorem steps_inside (outer : List (Opening × Level)) {ts : List Token}
    (h : ts.foldlM step r = .ok r') :
    ts.foldlM step (r.inside outer) = .ok (r'.inside outer) := by
  induction ts generalizing r with
  | nil =>
      cases h
      rfl
  | cons k ts ih =>
      rw [List.foldlM_cons] at h
      obtain ⟨m, hm, h⟩ := bind_eq_ok.1 h
      rw [List.foldlM_cons, step_inside hm]
      exact ih h

end Reader

/-- A pattern in a group that does not capture. -/
def enclosed (pattern : String) : String := "(?:" ++ pattern ++ ")"

/-- A pattern with a tree cannot close a group around it, and its tree is the same inside one. -/
theorem parse_enclosed {pattern : String} {tree : Construct} (h : parse pattern = .ok tree) :
    parse (enclosed pattern) = .ok (.group none tree) := by
  obtain ⟨l, hsteps, rfl⟩ := parse_eq_ok.1 h
  let outer : List (Opening × Level) := [(.group none, {})]
  obtain ⟨groups, hread⟩ := exists_steps_append (j := 3) (t := []) (Nat.zero_le _)
    (Reader.steps_inside outer hsteps)
  have htext : (enclosed pattern).toList = '(' :: '?' :: ':' :: (pattern.toList ++ [')']) := by
    simp [enclosed]
  refine parse_eq_ok.2 ⟨{ items := [.group none l.construct] }, ?_, rfl⟩
  calc
    (tokens (enclosed pattern)).foldlM Reader.step {} =
        (tokensFrom 0 3 {} (pattern.toList ++ [')'])).foldlM Reader.step
          (Reader.inside {} outer) := by
      rw [tokens, htext]
      rfl
    _ = [.closing (3 + pattern.toList.length)].foldlM Reader.step
          (Reader.inside ⟨l, []⟩ outer) :=
      hread
    _ = .ok ⟨{ items := [.group none l.construct] }, []⟩ := rfl

/-- A class and a comment with parentheses, a reference by number and a brace without its end. -/
theorem parse_enclosed_unended :
    parse (enclosed "([)-])(?#()\\1\x7b2") = .ok (.group none (.concat [
      .group (some 1) (.charClass false [.char ')', .char '-']), .skipped .comment, .backref 1,
      .literal '\x7b', .literal '2'])) :=
  parse_enclosed (by cbv)

end Specimen.Regex
