import Mathlib
import Specimen.Proofs.Regex.Assembly
import Specimen.Proofs.Regex.Captures
/-!
# How far the readers of a pattern go

Each reader of a piece ends where the scan for captures is in the pattern again, and there is no
capture in the piece but its first character (`agrees_of_token`).
-/

namespace Specimen.Regex

/-! ## Escapes -/

section Pieces

variable {position used : Nat} {cs : List Char}

theorem isAlphanum_of_hexDigit? {c : Char} {n : Nat} (h : hexDigit? c = some n) :
    c.isAlphanum = true := by
  unfold hexDigit? at h
  split at h
  · rename_i hdigit
    simp [Char.isAlphanum, hdigit]
  · split at h
    · rename_i hrange
      have hlower : c.isLower = true := by
        simp only [Char.isLower, Bool.and_eq_true, decide_eq_true_eq]
        exact ⟨hrange.1, Nat.le_trans hrange.2 (by decide)⟩
      simp [Char.isAlphanum, Char.isAlpha, hlower]
    · split at h
      · rename_i hrange
        have hupper : c.isUpper = true := by
          simp only [Char.isUpper, decide_eq_true_eq]
          exact ⟨hrange.1, Nat.le_trans hrange.2 (by decide)⟩
        simp [Char.isAlphanum, Char.isAlpha, hupper]
      · cases h

theorem ne_of_isAlphanum {c d : Char} (h : c.isAlphanum = true) (hd : d.isAlphanum = false) :
    c ≠ d := by
  rintro rfl
  rw [h] at hd
  cases hd

theorem exists_of_hexValue {digits value n : Nat}
    (h : hexValue position digits value cs = .ok n) :
    ∃ t more, cs = t ++ more ∧ t.length = digits ∧ ∀ c ∈ t, c.isAlphanum = true := by
  induction digits generalizing position value cs with
  | zero => exact ⟨[], cs, rfl, rfl, by simp⟩
  | succ digits ih =>
      cases cs with
      | nil => cases h
      | cons c cs =>
          unfold hexValue at h
          split at h
          · rename_i d hd
            obtain ⟨t, more, rfl, hlength, ht⟩ := ih h
            refine ⟨c :: t, more, rfl, by simp [hlength], ?_⟩
            exact List.forall_mem_cons.2 ⟨isAlphanum_of_hexDigit? hd, ht⟩
          · cases h

theorem exists_of_hexChar {digits : Nat} {q : Piece Char}
    (h : hexChar position digits cs = .ok q) :
    ∃ t more, cs = t ++ more ∧ q.used = t.length + 1 ∧ ∀ c ∈ t, c.isAlphanum = true := by
  obtain ⟨code, hcode, hchar⟩ := bind_eq_ok.1 h
  obtain ⟨t, more, rfl, hlength, ht⟩ := exists_of_hexValue hcode
  split at hchar <;> cases hchar
  exact ⟨t, more, rfl, by rw [hlength], ht⟩

/-- An escape takes one character and, if that asks for them, hexadecimal digits. -/
theorem exists_of_escapedChar {q : Piece Char} (h : escapedChar position cs = .ok q) :
    ∃ d t more, cs = d :: (t ++ more) ∧ q.used = t.length + 1 ∧
      ∀ c ∈ t, c.isAlphanum = true := by
  cases cs with
  | nil => cases h
  | cons d cs =>
      have htail : ∃ t more, cs = t ++ more ∧ q.used = t.length + 1 ∧
          ∀ c ∈ t, c.isAlphanum = true := by
        simp only [escapedChar] at h
        split at h
        case h_9 => exact exists_of_hexChar h
        case h_10 => exact exists_of_hexChar h
        case h_11 => exact exists_of_hexChar h
        case h_12 =>
          split at h <;> cases h
          exact ⟨[], cs, rfl, rfl, by simp⟩
        all_goals
          cases h
          exact ⟨[], cs, rfl, rfl, by simp⟩
      obtain ⟨t, more, hcs, hused, ht⟩ := htail
      exact ⟨d, t, more, by rw [hcs], hused, ht⟩

theorem skips_of_isAlphanum {t more : List Char} (h : ∀ c ∈ t, c.isAlphanum = true) :
    Skips .pattern .pattern t more :=
  .plain fun c hc => ⟨ne_of_isAlphanum (h c hc) rfl, ne_of_isAlphanum (h c hc) rfl,
    ne_of_isAlphanum (h c hc) rfl⟩

theorem skips_members_of_isAlphanum {t more : List Char} (h : ∀ c ∈ t, c.isAlphanum = true) :
    Skips (.members false) (.members false) t more :=
  .members fun c hc => ⟨ne_of_isAlphanum (h c hc) rfl, ne_of_isAlphanum (h c hc) rfl⟩

/-! ## Classes -/

theorem takes_of_rangeEndChar {d : Char} {q : Piece Char} (hd : d ≠ ']')
    (h : rangeEndChar position (d :: cs) = .ok q) :
    Takes (.members false) (.members false) (d :: cs) q.used := by
  unfold rangeEndChar at h
  split at h
  · cases ‹d :: cs = []›
  · rename_i cs' hcons
    cases hcons
    obtain ⟨⟨c, used⟩, hescape, h⟩ := bind_eq_ok.1 h
    cases h
    obtain ⟨e, t, more, rfl, hused, ht⟩ := exists_of_escapedChar hescape
    refine ⟨'\\' :: e :: t, more, rfl, ?_, .memberEscape (skips_members_of_isAlphanum ht)⟩
    simp only [List.length_cons] at hused ⊢
    omega
  · rename_i hcons
    cases hcons
    cases h
    rename_i hescape
    refine ⟨[d], cs, rfl, rfl, .members (List.forall_mem_singleton.2 ⟨?_, hd⟩)⟩
    rintro rfl
    exact hescape rfl

theorem takes_of_rangeFrom {first : Char} {q : Piece ClassItem}
    (h : rangeFrom first used position cs = .ok q) :
    ∃ n, q.used = used + n ∧ Takes (.members false) (.members false) cs n := by
  unfold rangeFrom at h
  split at h
  · rename_i d rest
    split at h
    · cases h
      exact ⟨0, rfl, .zero _ _⟩
    · rename_i hd
      obtain ⟨⟨item, more⟩, hend, h⟩ := bind_eq_ok.1 h
      cases h
      obtain ⟨⟨last, n⟩, hlast, hitem⟩ := bind_eq_ok.1 hend
      dsimp only at hitem
      split at hitem <;> cases hitem
      refine ⟨more + 1, ?_, .cons (fun _ => rfl) rfl (takes_of_rangeEndChar hd hlast)⟩
      exact Nat.add_right_comm used 1 more
  · cases h
    exact ⟨0, rfl, .zero _ _⟩

theorem takes_of_classItem {first : Bool} {c : Char} {q : Piece ClassItem}
    (hclose : ¬ (c = ']' ∧ ¬ first)) (h : classItem position c cs = .ok q) :
    ∃ n, q.used = n + 1 ∧ Takes (.members first) (.members false) (c :: cs) (n + 1) := by
  unfold classItem at h
  split at h
  · rename_i hescape
    subst hescape
    split at h
    · rename_i k hk
      cases h
      cases cs with
      | nil => cases hk
      | cons d cs => exact ⟨1, rfl, ['\\', d], cs, rfl, rfl, .memberEscape .nil⟩
    · obtain ⟨⟨e, used⟩, he, h⟩ := bind_eq_ok.1 h
      obtain ⟨d, t, more, rfl, rfl, ht⟩ := exists_of_escapedChar he
      obtain ⟨n, hused, hrange⟩ := takes_of_rangeFrom h
      have hescaped : Takes (.members first) (.members false) ('\\' :: d :: (t ++ more))
          (t.length + 2) :=
        ⟨'\\' :: d :: t, more, rfl, rfl, .memberEscape (skips_members_of_isAlphanum ht)⟩
      refine ⟨t.length + 1 + n, by omega, ?_⟩
      rw [show t.length + 1 + n + 1 = t.length + 2 + n by omega]
      exact hescaped.append hrange
  · rename_i hescape
    obtain ⟨n, hused, hrange⟩ := takes_of_rangeFrom h
    refine ⟨n, by omega, .cons (fun _ => rfl) ?_ hrange⟩
    simp only [Zone.next, Zone.nextMember, if_neg hescape, if_neg hclose]

theorem takes_of_classItems {first : Bool} {items : List ClassItem} {skip : Nat}
    {q : Piece (List ClassItem)} (h : classItems first items used skip position cs = .ok q) :
    ∃ n, q.used = used + skip + n ∧ Takes (.members first) .pattern (cs.drop skip) n := by
  induction cs generalizing first items used skip position with
  | nil => cases skip <;> cases h
  | cons c cs ih =>
      cases skip with
      | succ skip =>
          obtain ⟨n, hused, htakes⟩ := ih h
          exact ⟨n, by omega, htakes⟩
      | zero =>
          unfold classItems at h
          split at h
          · rename_i hclose
            cases h
            refine ⟨1, rfl, .cons (fun _ => rfl) ?_ (.zero _ _)⟩
            simp [Zone.next, Zone.nextMember, hclose.1, hclose.2]
          · rename_i hclose
            split at h
            · cases h
            · rename_i item n hitem
              obtain ⟨m, hm, hfirst⟩ := takes_of_classItem hclose hitem
              obtain ⟨k, hk, hrest⟩ := ih h
              obtain rfl : n = m + 1 := hm
              refine ⟨m + 1 + k, by omega, ?_⟩
              exact hfirst.append hrest

theorem capturesFrom_opened (h : cs.head? ≠ some '^') (position : Nat) :
    capturesFrom .opened position cs = capturesFrom (.members true) position cs := by
  cases cs with
  | nil => rfl
  | cons c cs =>
      have hc : c ≠ '^' := by simpa using h
      simp only [capturesFrom, Zone.capture?, Zone.next, if_neg hc]

theorem takes_of_charClass {q : Piece Construct} (h : charClass position cs = .ok q) :
    Takes .opened .pattern cs q.used := by
  obtain ⟨⟨items, used⟩, hitems, h⟩ := bind_eq_ok.1 h
  obtain ⟨n, hused, htakes⟩ := takes_of_classItems hitems
  have hq : q.used = used := by
    dsimp only at h
    split at h <;> cases h <;> rfl
  rw [hq, show used = _ from hused]
  by_cases hsign : cs.head? = some '^'
  · cases cs with
    | nil => cases hsign
    | cons c cs =>
        cases hsign
        rw [Nat.add_zero, Nat.add_comm]
        exact .cons (fun _ => rfl) rfl htakes
  · have hplain : (cs.head? == some '^') = false := by simpa using hsign
    simp only [hplain, Bool.false_eq_true, if_false, List.drop_zero, Nat.zero_add] at htakes ⊢
    obtain ⟨t, more, rfl, hlength, ht⟩ := htakes
    refine ⟨t, more, rfl, hlength, fun position => ?_⟩
    rw [capturesFrom_opened hsign, ht]

/-! ## Escapes in the pattern, quantifiers and names -/

/-- A reference takes one digit or two. -/
theorem exists_of_backref {groups : Groups} {c : Char} {q : Piece Construct}
    (h : backref groups c cs = .ok q) :
    ∃ t more, cs = t ++ more ∧ q.used = t.length + 1 ∧ ∀ c ∈ t, c.isAlphanum = true := by
  unfold backref at h
  cases cs with
  | nil =>
      dsimp only at h
      split at h <;> cases h
      exact ⟨[], [], rfl, rfl, by simp⟩
  | cons d cs =>
      cases hd : d.isDigit <;> simp only [hd, if_true, Bool.false_eq_true, if_false] at h <;>
        split at h <;> cases h
      · exact ⟨[], d :: cs, rfl, rfl, by simp⟩
      · have hdigit : d.isAlphanum = true := by simp [Char.isAlphanum, hd]
        exact ⟨[d], cs, rfl, rfl, List.forall_mem_singleton.2 hdigit⟩

/-- An escape takes the character after the backslash, and hexadecimal digits or the
second digit of a reference. -/
theorem exists_of_escape {groups : Groups} {q : Piece Construct}
    (h : escape groups position cs = .ok q) :
    ∃ d t more, cs = d :: (t ++ more) ∧ q.used = t.length + 1 ∧
      ∀ c ∈ t, c.isAlphanum = true := by
  unfold escape at h
  split at h
  · cases h
  · rename_i c rest
    split at h
    · cases h
      exact ⟨c, [], rest, rfl, rfl, by simp⟩
    · cases h
      exact ⟨c, [], rest, rfl, rfl, by simp⟩
    · split at h
      · obtain ⟨t, more, rfl, hused, ht⟩ := exists_of_backref h
        exact ⟨c, t, more, rfl, hused, ht⟩
      · obtain ⟨⟨d, used⟩, hescaped, h⟩ := bind_eq_ok.1 h
        cases h
        exact exists_of_escapedChar hescaped

/-- The character after a backslash is in a zone of its own; the digits behind it are not. -/
theorem takes_of_escape {groups : Groups} {q : Piece Construct}
    (h : escape groups position cs = .ok q) : Takes .escape .pattern cs q.used := by
  obtain ⟨d, t, more, rfl, hused, ht⟩ := exists_of_escape h
  rw [hused]
  exact .cons (fun _ => rfl) rfl ⟨t, more, rfl, rfl, skips_of_isAlphanum ht⟩

theorem takes_of_suffix (cs : List Char) : Takes .pattern .pattern cs (suffix cs) := by
  unfold suffix
  split
  · exact .cons (fun _ => rfl) rfl (.zero _ _)
  · exact .cons (fun _ => rfl) rfl (.zero _ _)
  · exact .zero _ _

/-- The text of bounds consists of digits, at most one comma, and the closing brace. -/
theorem exists_of_bounds {bounds : Nat × Option Nat} (h : bounds? cs = some (bounds, used)) :
    ∃ t more, cs = t ++ more ∧ used = t.length ∧
      ∀ c ∈ t, c.isDigit = true ∨ c = ',' ∨ c = '\x7d' := by
  have hdigits : ∀ ds : List Char, ∀ c ∈ ds.takeWhile Char.isDigit, c.isDigit = true :=
    fun ds c hc => List.all_eq_true.1 List.all_takeWhile c hc
  have hsplit : ∀ ds : List Char,
      ds = ds.takeWhile Char.isDigit ++ ds.dropWhile Char.isDigit := fun ds =>
    List.takeWhile_append_dropWhile.symm
  unfold bounds? at h
  dsimp only at h
  split at h
  · rename_i rest hcomma
    split at h
    · rename_i more hclose
      cases h
      refine ⟨cs.takeWhile Char.isDigit ++ ',' :: (rest.takeWhile Char.isDigit ++ ['\x7d']),
        more,
        ?_, by simp; omega, ?_⟩
      · calc
          cs = cs.takeWhile Char.isDigit ++ ',' :: rest := by rw [← hcomma, ← hsplit cs]
          _ = cs.takeWhile Char.isDigit ++
                ',' :: (rest.takeWhile Char.isDigit ++ '\x7d' :: more) :=
            by rw [← hclose, ← hsplit rest]
          _ = _ := by simp
      · intro c hc
        simp only [List.mem_append, List.mem_cons, List.not_mem_nil, or_false] at hc
        rcases hc with hc | hc | hc | hc
        · exact .inl (hdigits cs c hc)
        · exact .inr (.inl hc)
        · exact .inl (hdigits rest c hc)
        · exact .inr (.inr hc)
    · cases h
  · rename_i more hclose
    obtain ⟨k, -, h⟩ := Option.map_eq_some_iff.1 h
    cases h
    refine ⟨cs.takeWhile Char.isDigit ++ ['\x7d'], more, ?_, by simp, ?_⟩
    · rw [List.append_assoc, List.singleton_append, ← hclose, ← hsplit cs]
    · intro c hc
      rcases List.mem_append.1 hc with hc | hc
      · exact .inl (hdigits cs c hc)
      · exact .inr (.inr (List.mem_singleton.1 hc))
  · cases h

theorem takes_of_bounds {bounds : Nat × Option Nat} (h : bounds? cs = some (bounds, used)) :
    Takes .pattern .pattern cs used := by
  obtain ⟨t, more, rfl, rfl, ht⟩ := exists_of_bounds h
  refine ⟨t, more, rfl, rfl, .plain fun c hc => ?_⟩
  rcases ht c hc with hdigit | rfl | rfl
  · have hword : c.isAlphanum = true := by simp [Char.isAlphanum, hdigit]
    exact ⟨ne_of_isAlphanum hword rfl, ne_of_isAlphanum hword rfl, ne_of_isAlphanum hword rfl⟩
  · decide
  · decide

theorem takes_of_braces {q : Piece Token} (h : braces position cs = .ok q) :
    Takes .pattern .pattern cs q.used := by
  unfold braces at h
  split at h
  · cases h
    exact .zero _ _
  · rename_i least most n hbounds
    have htakes := (takes_of_bounds hbounds).append (takes_of_suffix _)
    split at h
    · split at h <;> cases h
      exact htakes
    · cases h
      exact htakes

theorem opening_ne_of_braces {q : Piece Token} (h : braces position cs = .ok q) (o : Opening) :
    q.value ≠ .opening o := by
  unfold braces at h
  split at h
  · cases h
    simp
  · split at h
    · split at h <;> cases h
      simp
    · cases h
      simp

theorem exists_of_name {terminator : Char} {acc : List Char} {q : Piece String}
    (h : name terminator acc used position cs = .ok q) :
    ∃ w more, cs = w ++ terminator :: more ∧ q.value = String.ofList (acc.reverse ++ w) ∧
      q.used = used + w.length + 1 ∧
      ∀ c ∈ w, c ≠ terminator ∧ (Text.isAlphanumeric c = true ∨ c = '_') := by
  induction cs generalizing acc used position with
  | nil => cases h
  | cons c cs ih =>
      unfold name at h
      split at h
      · rename_i hterminator
        split at h <;> cases h
        exact ⟨[], cs, by rw [hterminator]; rfl, by simp, rfl, by simp⟩
      · rename_i hterminator
        split at h
        · rename_i hword
          obtain ⟨w, more, rfl, hvalue, hused, hw⟩ := ih h
          refine ⟨c :: w, more, rfl, by simp [hvalue], ?_, ?_⟩
          · rw [hused, List.length_cons, Nat.add_right_comm used]
            rfl
          · exact List.forall_mem_cons.2 ⟨⟨hterminator, hword⟩, hw⟩
        · cases h

theorem takes_of_name {terminator : Char} {q : Piece String}
    (hsign : terminator ≠ '\\' ∧ terminator ≠ '[' ∧ terminator ≠ '(')
    (h : name terminator [] 0 position cs = .ok q) : Takes .pattern .pattern cs q.used := by
  obtain ⟨w, more, rfl, -, hused, hw⟩ := exists_of_name h
  have hplain : ∀ c ∈ w, c ≠ '\\' ∧ c ≠ '[' ∧ c ≠ '(' := by
    intro c hc
    have hword := (hw c hc).2
    refine ⟨?_, ?_, ?_⟩ <;> rintro rfl <;> revert hword <;> decide +kernel
  have hlast : Skips .pattern .pattern [terminator] more :=
    .plain (List.forall_mem_singleton.2 hsign)
  refine ⟨w ++ [terminator], more, by simp, ?_, (Skips.plain hplain).append hlast⟩
  rw [hused, List.length_append, Nat.zero_add]
  rfl

theorem takes_of_comment {q : Piece Unit} (h : comment used position cs = .ok q) :
    ∃ n, q.used = used + n ∧ Takes .comment .pattern cs n := by
  induction cs generalizing used position with
  | nil => cases h
  | cons c cs ih =>
      unfold comment at h
      split at h
      · rename_i hclose
        cases h
        exact ⟨1, rfl, .cons (fun _ => rfl) (by simp [Zone.next, hclose]) (.zero _ _)⟩
      · rename_i hclose
        obtain ⟨n, hused, htakes⟩ := ih h
        exact ⟨n + 1, by omega, .cons (fun _ => rfl) (by simp [Zone.next, hclose]) htakes⟩

/-! ## Parentheses and all other tokens -/

/-- The groups that are open after one more capture. -/
def Groups.add (groups : Groups) (c : Capture) : Groups :=
  ⟨groups.count + 1, (c.name.map fun n => (n, groups.count + 1)).toList ++ groups.names⟩

/-- The token read at a character agrees with the scan: the captures in it are the groups it
opens, which is at most one, and the scan goes on behind it. -/
structure Agrees (groups : Groups) (position : Nat) (c : Char) (cs : List Char)
    (q : Piece (Token × Groups)) : Prop where
  behind : capturesFrom (Zone.pattern.next c cs) (position + 1) cs =
    capturesFrom .pattern (position + 1 + q.used) (cs.drop q.used)
  after : q.value.2 = (Zone.pattern.capture? position c cs).toList.foldl Groups.add groups
  opening : ∀ i, q.value.1 = .opening (.group (some i)) ↔
    (Zone.pattern.capture? position c cs).isSome ∧ i = groups.count + 1

section Token

variable {groups : Groups} {c : Char} {q : Piece (Token × Groups)}

/-- The token of a character other than a parenthesis. -/
theorem Agrees.of_ne {t : Token} (hc : c ≠ '(') (ht : ∀ i, t ≠ .opening (.group (some i)))
    (h : Takes (Zone.pattern.next c cs) .pattern cs used) :
    Agrees groups position c cs ⟨(t, groups), used⟩ where
  behind := h.capturesFrom_eq _
  after := by simp [Zone.capture?, hc]
  opening i := by simp [Zone.capture?, hc, ht i]

/-- The token of a parenthesis that does not capture. -/
theorem Agrees.of_none {t : Token} (hname : captureName? cs = none)
    (ht : ∀ i, t ≠ .opening (.group (some i)))
    (hbehind : capturesFrom (Zone.afterParenthesis cs) (position + 1) cs =
      capturesFrom .pattern (position + 1 + used) (cs.drop used)) :
    Agrees groups position '(' cs ⟨(t, groups), used⟩ where
  behind := hbehind
  after := by simp [Zone.capture?, hname]
  opening i := by simp [Zone.capture?, hname, ht i]

theorem Agrees.of_skip {t : Token} (hname : captureName? cs = none)
    (ht : ∀ i, t ≠ .opening (.group (some i)))
    (h : Takes (Zone.afterParenthesis cs) .pattern cs used) :
    Agrees groups position '(' cs ⟨(t, groups), used⟩ :=
  .of_none hname ht (h.capturesFrom_eq _)

theorem Agrees.of_some {n : Option String} (hname : captureName? cs = some n)
    (h : Takes (Zone.afterParenthesis cs) .pattern cs used) :
    Agrees groups position '(' cs
      ⟨(.opening (.group (some (groups.count + 1))), groups.add ⟨position, n⟩), used⟩ where
  behind := h.capturesFrom_eq _
  after := by simp [Zone.capture?, hname]
  opening i := by simp [Zone.capture?, hname, eq_comm]

theorem agrees_of_namedGroup {rest : List Char} {n : Nat}
    (hname : captureName? cs = some (some (groupName rest)))
    (hlead : ∀ m, Takes .pattern .pattern rest m →
      Takes (Zone.afterParenthesis cs) .pattern cs (n + m))
    (h : namedGroup groups n (position + 1 + n) rest = .ok q) :
    Agrees groups position '(' cs q := by
  obtain ⟨⟨w, m⟩, hw, h⟩ := bind_eq_ok.1 h
  cases h
  have htakes : Takes .pattern .pattern rest m := takes_of_name (by decide) hw
  have hgroup : groupName rest = w := by
    obtain ⟨w', more, rfl, rfl, -, hw'⟩ := exists_of_name hw
    rw [groupName, List.takeWhile_append_of_pos (fun c hc => by simpa using (hw' c hc).1)]
    simp
  rw [hgroup] at hname
  exact .of_some hname (hlead m htakes)

/-- Inline flags end with a colon, which opens a group, or with a parenthesis. -/
theorem exists_of_inlineFlags (h : inlineFlags groups position cs = .ok q) :
    ∃ flags c more, cs = flags ++ c :: more ∧ (∀ d ∈ flags, isFlag d = true) ∧
      ((c = ':' ∧ q = ⟨(.opening (.group none), groups), flags.length + 2⟩) ∨
        (c = ')' ∧ q = ⟨(.atom (.skipped .inlineFlags), groups), flags.length + 2⟩)) := by
  have hflags : ∀ d ∈ cs.takeWhile isFlag, isFlag d = true := fun d hd =>
    List.all_eq_true.1 List.all_takeWhile d hd
  have hsplit : cs = cs.takeWhile isFlag ++ cs.dropWhile isFlag :=
    List.takeWhile_append_dropWhile.symm
  unfold inlineFlags at h
  dsimp only at h
  split at h
  · rename_i more hdrop
    cases h
    rw [hdrop] at hsplit
    exact ⟨_, _, more, hsplit, hflags, .inl ⟨rfl, rfl⟩⟩
  · rename_i more hdrop
    cases h
    rw [hdrop] at hsplit
    exact ⟨_, _, more, hsplit, hflags, .inr ⟨rfl, rfl⟩⟩
  · cases h

theorem agrees_of_inlineFlags {rest : List Char} (hname : captureName? ('?' :: rest) = none)
    (hplain : Zone.afterParenthesis ('?' :: rest) = .pattern)
    (h : inlineFlags groups (position + 2) rest = .ok q) :
    Agrees groups position '(' ('?' :: rest) q := by
  obtain ⟨flags, c, more, rfl, hflags, hq⟩ := exists_of_inlineFlags h
  have hsigns : ∀ d ∈ flags, d ≠ '\\' ∧ d ≠ '[' ∧ d ≠ '(' := by
    intro d hd
    refine ⟨?_, ?_, ?_⟩ <;> rintro rfl <;> exact absurd (hflags _ hd) (by decide)
  have htakes : (c ≠ '\\' ∧ c ≠ '[' ∧ c ≠ '(') →
      Takes .pattern .pattern ('?' :: (flags ++ c :: more)) (flags.length + 2) := by
    intro hc
    have hlast : Takes .pattern .pattern (c :: more) 1 :=
      .plain [c] (List.forall_mem_singleton.2 hc) (.zero _ _)
    exact .cons (fun _ => rfl) rfl (hlast.plain _ hsigns)
  rcases hq with ⟨rfl, rfl⟩ | ⟨rfl, rfl⟩
  · exact .of_skip hname (by simp) (hplain ▸ htakes (by decide))
  · exact .of_skip hname (by simp) (hplain ▸ htakes (by decide))

theorem agrees_of_groupStart
    (hconditional : q.value.1 = .atom (.skipped .conditional) →
      capturesFrom (Zone.afterParenthesis cs) (position + 1) cs =
        capturesFrom .pattern (position + 1 + q.used) (cs.drop q.used))
    (h : groupStart groups (position + 1) cs = .ok q) : Agrees groups position '(' cs q := by
  -- One case for each way in which a group can begin; only the comment, the conditional and the
  -- group without a question mark have more to them than a few plain characters and a name.
  unfold groupStart at h
  split at h
  · cases h
    exact .of_skip rfl (by simp) (.plain ['?', ':'] (by simp) (.zero _ _))
  · exact agrees_of_namedGroup (n := 3) rfl (fun m hm => .plain ['?', 'P', '<'] (by simp) hm) h
  · obtain ⟨⟨w, m⟩, hw, h⟩ := bind_eq_ok.1 h
    dsimp only at h
    split at h <;> cases h
    have hm : Takes .pattern .pattern _ m := takes_of_name (by decide) hw
    rw [Nat.add_comm]
    exact .of_skip rfl (by simp) (.plain ['?', 'P', '='] (by simp) hm)
  · cases h
    exact .of_skip rfl (by simp) (.plain ['?', '<', '='] (by simp) (.zero _ _))
  · cases h
    exact .of_skip rfl (by simp) (.plain ['?', '<', '!'] (by simp) (.zero _ _))
  · refine agrees_of_namedGroup (n := 2) ?_ (fun m hm => .plain ['?', '<'] (by simp) hm) h
    rw [captureName?] <;> assumption
  · cases h
    exact .of_skip rfl (by simp) (.plain ['?', '='] (by simp) (.zero _ _))
  · cases h
    exact .of_skip rfl (by simp) (.plain ['?', '!'] (by simp) (.zero _ _))
  · obtain ⟨⟨⟨⟩, m⟩, hcomment, h⟩ := bind_eq_ok.1 h
    cases h
    obtain ⟨n, hn, htakes⟩ := takes_of_comment hcomment
    rw [Nat.zero_add] at hn
    obtain rfl : m = n := hn
    exact .of_skip rfl (by simp) (.cons (fun _ => rfl) rfl (.cons (fun _ => rfl) rfl htakes))
  · obtain ⟨⟨⟨⟩, m⟩, -, h⟩ := bind_eq_ok.1 h
    cases h
    exact .of_none rfl (by simp) (hconditional rfl)
  · refine agrees_of_inlineFlags ?_ ?_ h
    · rw [captureName?] <;> assumption
    · rw [Zone.afterParenthesis] <;> simpa
  · rename_i hquestion
    cases h
    have hname : captureName? cs = some none := by
      rw [captureName?] <;> exact fun _ => hquestion _
    have hplain : Zone.afterParenthesis cs = .pattern := by
      rw [Zone.afterParenthesis] <;> exact fun _ => hquestion _
    exact .of_some hname (hplain ▸ .zero _ _)

/-- Every token agrees with the scan for captures, a conditional if the scan finds none in it. -/
theorem agrees_of_token
    (hconditional : q.value.1 = .atom (.skipped .conditional) →
      capturesFrom (Zone.pattern.next c cs) (position + 1) cs =
        capturesFrom .pattern (position + 1 + q.used) (cs.drop q.used))
    (h : token groups position c cs = .ok q) : Agrees groups position c cs q := by
  cases readAs_of_token h with
  | bar => exact .of_ne (by decide) (by simp) (.zero _ _)
  | closing => exact .of_ne (by decide) (by simp) (.zero _ _)
  | group hgroup => exact agrees_of_groupStart hconditional hgroup
  | charClass hitems => exact .of_ne (by decide) (by simp) (takes_of_charClass hitems)
  | escape hescape => exact .of_ne (by decide) (by simp) (takes_of_escape hescape)
  | quantifier hc =>
      rcases hc with rfl | rfl | rfl <;>
        exact .of_ne (by decide) (by simp) (takes_of_suffix cs)
  | braces hbraces =>
      exact .of_ne (by decide) (fun _ => opening_ne_of_braces hbraces _)
        (takes_of_braces hbraces)
  | single hc =>
      obtain ⟨hescape, hclass, hopening, -⟩ := hc
      have hnext : Zone.pattern.next c cs = .pattern := by
        simp only [Zone.next, if_neg hescape, if_neg hclass, if_neg hopening]
      refine .of_ne hopening (by simp) ?_
      rw [hnext]
      exact .zero _ _

end Token

end Pieces

end Specimen.Regex
