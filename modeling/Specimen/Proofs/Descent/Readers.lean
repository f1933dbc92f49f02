import Specimen.Proofs.Descent.Gives
import Specimen.Proofs.Regex.Pieces
/-!
# Escapes, classes, quantifiers and names that are read by descent

Every procedure that reads no group gives what the reader of the same piece gives.
-/

namespace Specimen.Regex.Descent

variable {chars cs : List Char} {p q n : Nat} {g : Groups}

theorem ends_eat {c : Char} (hat : At chars p cs) :
    Ends chars (eat c) p g (Gives p p g
      (.ok ⟨cs.head? == some c, if cs.head? == some c then 1 else 0⟩)) := by
  refine .call_piece (by decide) (.peek hat ?_)
  by_cases hc : cs.head? = some c
  · obtain ⟨rest, rfl⟩ := List.head?_eq_some_iff.1 hc
    rw [if_pos hc, beq_iff_eq.2 hc, if_pos rfl]
    exact .advance hat.le_of_cons (.pure (.ok rfl (Nat.le_succ p)))
  · rw [if_neg hc, beq_eq_false_iff_ne.2 hc]
    exact .pure (.ok rfl (Nat.le_refl p))

/-! ## Escapes -/

theorem ends_hexDigits {digits value n start : Nat} (hat : At chars q cs) (hle : start ≤ q)
    (hn : q + digits = p + n) :
    Ends chars (hexDigits digits value) q g
      (Gives p start g ((hexValue q digits value cs).map (⟨·, n⟩))) := by
  induction digits generalizing q value cs with
  | zero => exact .pure (.ok hn hle)
  | succ digits ih =>
      rw [hexDigits]
      cases cs with
      | nil => exact .bump_nil hat (.complain (.error hle))
      | cons c cs =>
          refine .bump_cons hat ?_
          rw [hexValue, Option.bind_some]
          cases hexDigit? c with
          | none => exact .complain (.error (Nat.le_succ_of_le hle))
          | some d => exact ih hat.next (Nat.le_succ_of_le hle) (by omega)

theorem ends_hex {digits : Nat} (hat : At chars (p + 1) cs) :
    Ends chars (hex digits) (p + 1) g (Gives p (p + 1) g (hexChar (p + 1) digits cs)) := by
  have hdigits : Ends chars (hexDigits digits 0) (p + 1) g
      (Gives p (p + 1) g ((hexValue (p + 1) digits 0 cs).map (⟨·, digits + 1⟩))) :=
    ends_hexDigits hat (Nat.le_refl _) (by omega)
  refine .call_piece (by decide) ?_
  rw [hexChar]
  cases hvalue : hexValue (p + 1) digits 0 cs with
  | error e =>
      rw [hvalue] at hdigits
      exact hdigits.fault fun _ hle => .error hle
  | ok code =>
      rw [hvalue] at hdigits
      refine hdigits.value fun hle _ => ?_
      change Ends _ _ _ _ (Gives _ _ _ (if isCodePoint code then _ else _))
      split
      · exact .pure (.ok rfl hle)
      · refine .complain ?_
        rw [show p + 1 + digits = p + (digits + 1) by omega]
        exact .error hle

theorem ends_escapedChar (hat : At chars p cs) :
    Ends chars escapedChar p g (Gives p p g (Regex.escapedChar p cs)) := by
  refine .call_piece (by decide) ?_
  have hplain (d : Char) : Ends chars (pure d) (p + 1) g (Gives p p g (.ok ⟨d, 1⟩)) :=
    .pure (.ok rfl (Nat.le_succ p))
  have hhex {rest : List Char} (digits : Nat) (hrest : At chars (p + 1) rest) :
      Ends chars (hex digits) (p + 1) g (Gives p p g (hexChar (p + 1) digits rest)) :=
    (ends_hex hrest).start_le (Nat.le_succ p)
  -- Letters for one character, hexadecimal codes, a bad letter and a symbol.
  fun_cases Regex.escapedChar p cs
  case case1 => exact .bump_nil hat (.complain (.error (Nat.le_refl p)))
  case case10 => exact .bump_cons hat (hhex 2 hat.next)
  case case11 => exact .bump_cons hat (hhex 4 hat.next)
  case case12 => exact .bump_cons hat (hhex 8 hat.next)
  case case13 =>
    refine .bump_cons hat ?_
    simp only [*]
    exact .back (.complain (.error (Nat.le_refl p)))
  case case14 =>
    refine .bump_cons hat ?_
    simp only [*]
    exact hplain _
  all_goals exact .bump_cons hat (hplain _)

theorem ends_referTo {index n : Nat} :
    Ends chars (referTo index) (p + n) g
      (Gives p p g (if g.count < index then .error (.unknownGroup (toString index))
        else .ok ⟨.backref index, n⟩)) := by
  refine .groups ?_
  split
  · exact .unknownGroup (.error (Nat.le_add_right p n))
  · exact .pure (.ok rfl (Nat.le_add_right p n))

theorem ends_backref {c : Char} (hat : At chars (p + 1) cs) :
    Ends chars (backref c) (p + 1) g (Gives p p g (Regex.backref g c cs)) := by
  refine .peek hat ?_
  cases cs with
  | nil => exact ends_referTo
  | cons d cs =>
      rw [List.head?_cons, Regex.backref]
      cases hd : d.isDigit <;>
        simp only [Option.filter, hd, if_true, Bool.false_eq_true, if_false]
      · exact ends_referTo
      · exact .advance hat.le_of_cons (ends_referTo (p := p) (n := 2))

theorem ends_escape (hat : At chars p cs) :
    Ends chars escape p g (Gives p p g (Regex.escape g p cs)) := by
  refine .call_piece (by decide) ?_
  cases cs with
  | nil => exact .bump_nil hat (.complain (.error (Nat.le_refl p)))
  | cons c cs =>
      refine .bump_cons hat ?_
      rw [Regex.escape]
      dsimp only
      cases category? c with
      | some k => exact .pure (.ok rfl (Nat.le_succ p))
      | none =>
          cases anchor? c with
          | some a => exact .pure (.ok rfl (Nat.le_succ p))
          | none =>
              dsimp only
              split
              · exact ends_backref hat.next
              · exact .back ((ends_escapedChar hat).bind_piece (Nat.le_refl p)
                  fun d n _ hle _ => .pure (.ok rfl hle))

/-! ## Classes -/

theorem ends_classCategory (hat : At chars p cs) :
    Ends chars classCategory p g (Gives p p g
      (.ok ⟨cs.head?.bind category?, if (cs.head?.bind category?).isSome then 1 else 0⟩)) := by
  refine .call_piece (by decide) (.peek hat ?_)
  cases cs with
  | nil => exact .pure (.ok rfl (Nat.le_refl p))
  | cons c cs =>
      rw [List.head?_cons, Option.bind_some]
      cases category? c with
      | none => exact .pure (.ok rfl (Nat.le_refl p))
      | some k => exact .advance hat.le_of_cons (.pure (.ok rfl (Nat.le_succ p)))

theorem ends_rangeEnd (hat : At chars p cs) :
    Ends chars rangeEnd p g (Gives p p g (rangeEndChar p cs)) := by
  cases cs with
  | nil => exact .bump_nil hat (.complain (.error (Nat.le_refl p)))
  | cons c cs =>
      refine .bump_cons hat ?_
      by_cases hescape : c = '\\'
      · subst hescape
        exact ((ends_escapedChar hat.next).start_le (Nat.le_succ p)).shift
      · rw [rangeEndChar]
        · dsimp only
          rw [if_neg hescape]
          exact .pure (.ok rfl (Nat.le_succ p))
        · exact hescape

theorem rangeFrom_of_not_range {first : Char} {used : Nat}
    (h : ¬ (cs.head? = some '-' ∧ (cs[1]?).any (· ≠ ']') = true)) :
    rangeFrom first used p cs = .ok ⟨.char first, used⟩ := by
  unfold rangeFrom
  split
  · rename_i d rest
    rw [if_pos (by simpa using h)]
  · rfl

theorem ends_ranged {first : Char} {used start : Nat} (hat : At chars (p + used) cs)
    (hle : start ≤ p + used) :
    Ends chars (ranged (.char first)) (p + used) g
      (Gives p start g (rangeFrom first used (p + used) cs)) := by
  refine .peek hat (.peekAt hat ?_)
  split
  · rename_i hrange
    obtain ⟨d, rest, rfl, hd⟩ : ∃ d rest, cs = '-' :: d :: rest ∧ d ≠ ']' := by
      rcases cs with _ | ⟨c, _ | ⟨d, rest⟩⟩ <;> simp_all
    rw [rangeFrom, if_neg hd]
    refine .advance hat.le_of_cons ((ends_rangeEnd hat.next).piece ?_ ?_)
    · intro last n hlast hforward _
      rw [Regex.rangeEnd, hlast]
      change Ends _ (if last < first then _ else _) _ _
        (Gives _ _ _ ((if last < first then _ else _) >>= _))
      split
      · exact .complain (.error (by omega))
      · exact .pure (.ok (by omega) (by omega))
    · intro e p' he hforward
      rw [Regex.rangeEnd, he]
      exact .error (by omega)
  · rename_i hrange
    rw [rangeFrom_of_not_range hrange]
    exact .pure (.ok rfl hle)

theorem ends_member {c : Char} (hat : At chars (p + 1) cs) :
    Ends chars (member c) (p + 1) g (Gives p (p + 1) g (classItem p c cs)) := by
  rw [member, single, classItem]
  by_cases hescape : c = '\\'
  · rw [if_pos hescape, if_pos hescape, bind_assoc]
    refine (ends_classCategory hat).value fun _ hle => ?_
    cases hk : cs.head?.bind category? with
    | some k =>
        rw [hk] at hle
        exact .pure (.ok rfl (Nat.le_succ _))
    | none =>
        change Ends chars ((escapedChar >>= _) >>= _) (p + 1) g _
        rw [bind_assoc]
        refine (ends_escapedChar hat).bind_piece (Nat.le_refl _) fun d n _ _ hle' => ?_
        have hbehind := hat.add hle'
        rw [Nat.add_right_comm, Nat.add_assoc] at hbehind ⊢
        exact ends_ranged hbehind (by omega)
  · rw [if_neg hescape, if_neg hescape]
    exact ends_ranged hat (Nat.le_refl _)

theorem classItems_drop {first : Bool} {items : List ClassItem} {used n : Nat}
    (h : n ≤ cs.length) :
    classItems first items used n p cs =
      classItems first items (used + n) 0 (p + n) (cs.drop n) := by
  have hskip := classItems_skip first items used p (cs.take n) (cs.drop n)
  rwa [List.take_append_drop, List.length_take, Nat.min_eq_left h] at hskip

/-- The members of a class from where the cursor is, with those before it in reverse. -/
theorem ends_members {fuel sign : Nat} (hfuel : chars.length < fuel)
    (hat : At chars (p + sign) cs) :
    Ends chars (loop .members (fun (first, items) => do
      match ← bump with
      | none => complain .unterminatedSet
      | some c =>
        if c = ']' ∧ ¬ first then return .inr items.reverse
        else
          let item ← member c
          return .inl (false, item :: items)) fuel (true, [])) (p + sign) g
      (Gives p (p + sign) g (classItems true [] sign 0 (p + sign) cs)) := by
  refine .recursion (V := fun _ => True) (P := Gives p (p + sign) g)
    (R := fun (s : Bool × List ClassItem) used q rest => classItems s.1 s.2 used 0 q rest)
    ?_ hfuel trivial hat
  rintro ⟨first, items⟩ used rest - hused hrest
  dsimp only
  cases rest with
  | nil => exact .bump_nil hrest (.complain (.error (by omega)))
  | cons c rest =>
      refine .bump_cons hrest ?_
      dsimp only
      rw [classItems]
      by_cases hclose : c = ']' ∧ ¬ first
      · rw [if_pos hclose, if_pos hclose]
        exact .pure (.ok rfl (by omega))
      · rw [if_neg hclose, if_neg hclose]
        refine (ends_member hrest.next).piece ?_ ?_
        · intro item n hitem hforward hle
          -- The recursion skips the characters of a member that the cursor is already behind.
          obtain ⟨m, rfl⟩ : ∃ m, n = m + 1 := ⟨n - 1, by omega⟩
          have hbehind : At chars (p + used + (m + 1)) (rest.drop m) := by
            rw [Nat.add_comm m 1, ← Nat.add_assoc]
            exact hrest.next.add (by omega)
          refine .pure ⟨by omega, rfl, trivial, used + (m + 1), rest.drop m, by omega, by omega,
            hbehind, ?_⟩
          have hlength := hrest.next.length_add
          rw [hitem]
          dsimp only
          rw [Nat.add_sub_cancel, classItems_drop (n := m) (by omega),
            show used + 1 + m = used + (m + 1) by omega,
            show p + used + 1 + m = p + used + (m + 1) by omega]
        · intro e p' he hforward
          rw [he]
          exact .error (by omega)

theorem ends_charClass {fuel : Nat} (hfuel : chars.length < fuel) (hat : At chars p cs) :
    Ends chars (charClass fuel) p g (Gives p p g (Regex.charClass p cs)) := by
  refine .call_piece (by decide) ((ends_eat hat).value fun _ hle => ?_)
  refine .bind_piece (ends_members hfuel (hat.add hle)) (Nat.le_add_right _ _) ?_
  intro items n _ _ _
  have hle : p ≤ p + n := Nat.le_add_right p n
  dsimp only
  generalize (cs.head? == some '^') = negated
  cases negated with
  | false => exact .pure (.ok rfl hle)
  | true => rcases items with _ | ⟨_ | _ | _, _ | _⟩ <;> exact .pure (.ok rfl hle)

/-! ## Quantifiers -/

theorem takeWhile_of_ne {f : Char → Bool} (h : (cs.head?.any f) = false) :
    cs.takeWhile f = [] := by
  cases cs with
  | nil => rfl
  | cons c cs => exact List.takeWhile_cons_of_neg (by simpa using h)

theorem ends_skipWhile {l : Loop} {f : Char → Bool} {fuel : Nat} (hfuel : chars.length < fuel)
    (hat : At chars p cs) :
    Ends chars (skipWhile l f fuel) p g (Gives p p g (.ok ⟨(), (cs.takeWhile f).length⟩)) := by
  have hall : Ends chars (skipWhile l f fuel) p g
      (Gives p p g (.ok ⟨(), 0 + (cs.takeWhile f).length⟩)) := by
    refine .recursion (V := fun _ => True) (P := Gives p p g) (n := 0)
      (R := fun _ used _ rest => .ok ⟨(), used + (rest.takeWhile f).length⟩) ?_ hfuel trivial hat
    rintro ⟨⟩ used rest - hused hrest
    refine .peek hrest ?_
    split
    · rename_i hf
      cases rest with
      | nil => cases hf
      | cons c rest =>
          rw [List.takeWhile_cons_of_pos (by simpa using hf)]
          exact .advance hrest.le_of_cons (.pure ⟨Nat.lt_succ_self _, .next trivial hused hrest
            (by rw [List.length_cons, Nat.add_assoc, Nat.add_comm 1])⟩)
    · rename_i hf
      rw [takeWhile_of_ne (Bool.eq_false_iff.2 hf)]
      exact .pure (.ok rfl (Nat.le_add_right p used))
  rwa [Nat.zero_add] at hall

theorem take_length_takeWhile (f : Char → Bool) (cs : List Char) :
    cs.take (cs.takeWhile f).length = cs.takeWhile f :=
  (List.prefix_iff_eq_take.1 (List.takeWhile_prefix f)).symm

theorem ends_number {fuel : Nat} (hfuel : chars.length < fuel) (hat : At chars p cs) :
    Ends chars (number fuel) p g (Gives p p g
      (.ok ⟨number? (cs.takeWhile Char.isDigit), (cs.takeWhile Char.isDigit).length⟩)) := by
  refine .call_piece (by decide)
    (.position ((ends_skipWhile hfuel hat).value fun hle hle' => ?_))
  refine .position ?_
  split
  · rename_i hnone
    rw [List.eq_nil_of_length_eq_zero (l := cs.takeWhile Char.isDigit) (by omega)]
    exact .pure (.ok rfl (Nat.le_refl p))
  · refine .slice hle hle' (.pure ?_)
    rw [List.drop_take, Nat.add_sub_cancel_left, hat.drop, take_length_takeWhile]
    exact .ok rfl hle

theorem At.dropWhile {f : Char → Bool} (hat : At chars p cs) :
    At chars (p + (cs.takeWhile f).length) (cs.dropWhile f) :=
  At.append (by rwa [List.takeWhile_append_dropWhile])

/-- What the braces at `p` give: nothing if the first one stands for itself. -/
def boundsAt (p : Nat) :
    Option ((Nat × Option Nat) × Nat) → Except PatternError (Piece (Option (Nat × Option Nat)))
  | none => .ok ⟨none, 0⟩
  | some (b, used) =>
    if b.2.any (· < b.1) then fail (p + 1 + used) .leastAboveMost else .ok ⟨some b, 1 + used⟩

theorem bounds?_of_comma {rest : List Char} (h : cs.dropWhile Char.isDigit = ',' :: rest) :
    bounds? cs =
      if (rest.dropWhile Char.isDigit).head? = some '\x7d' then
        some (((number? (cs.takeWhile Char.isDigit)).getD 0,
            number? (rest.takeWhile Char.isDigit)),
          (cs.takeWhile Char.isDigit).length + (rest.takeWhile Char.isDigit).length + 2)
      else none := by
  simp only [bounds?, h]
  split
  · rename_i hclose
    rw [hclose, List.head?_cons, if_pos rfl]
  · rename_i hother
    rw [if_neg]
    rintro hclose
    obtain ⟨more, hmore⟩ := List.head?_eq_some_iff.1 hclose
    exact hother more hmore

theorem bounds?_of_ne_comma (h : (cs.dropWhile Char.isDigit).head? ≠ some ',') :
    bounds? cs =
      if (cs.dropWhile Char.isDigit).head? = some '\x7d' then
        (number? (cs.takeWhile Char.isDigit)).map fun n =>
          ((n, some n), (cs.takeWhile Char.isDigit).length + 1)
      else none := by
  simp only [bounds?]
  split
  · rename_i hcomma
    exact absurd (by rw [hcomma]; rfl) h
  · rename_i hclose
    rw [hclose, List.head?_cons, if_pos rfl]
  · rename_i hother
    rw [if_neg]
    rintro hclose
    obtain ⟨more, hmore⟩ := List.head?_eq_some_iff.1 hclose
    exact hother more hmore

theorem ends_closeBraces_none (hle : p ≤ chars.length) :
    Ends chars (closeBraces p none) q g (Gives p p g (boundsAt p none)) :=
  .moveTo hle (.pure (.ok rfl (Nat.le_refl p)))

theorem ends_closeBraces_some {b : Nat × Option Nat} (hat : At chars q cs) (hq : q = p + 1 + n) :
    Ends chars (closeBraces p (some b)) q g
      (Gives p p g (boundsAt p (if cs.head? = some '\x7d' then some (b, n + 1) else none))) := by
  subst hq
  by_cases hclose : cs.head? = some '\x7d'
  · obtain ⟨rest, rfl⟩ := List.head?_eq_some_iff.1 hclose
    rw [if_pos hclose, boundsAt]
    refine .eat_cons hat ?_
    rw [if_pos rfl]
    split
    · exact .complain (.error (by omega))
    · exact .pure (.ok (by omega) (by omega))
  · rw [if_neg hclose]
    exact .eat_ne hat hclose (ends_closeBraces_none (by have := hat.le; omega))

theorem ends_braces {fuel : Nat} (hfuel : chars.length < fuel)
    (hat : At chars p ('\x7b' :: cs)) :
    Ends chars (braces fuel) p g (Gives p p g (boundsAt p (bounds? cs))) := by
  refine .call_piece (by decide) (.position (.advance hat.le_of_cons ?_))
  rw [bounds, bind_assoc]
  refine (ends_number hfuel hat.next).value fun _ _ => ?_
  have hbehind := hat.next.dropWhile (f := Char.isDigit)
  rw [bind_assoc]
  by_cases hcomma : (cs.dropWhile Char.isDigit).head? = some ','
  · obtain ⟨rest, hrest⟩ := List.head?_eq_some_iff.1 hcomma
    rw [hrest] at hbehind
    refine .eat_cons hbehind ?_
    rw [if_pos rfl, bind_assoc, bounds?_of_comma hrest]
    refine (ends_number hfuel hbehind.next).value fun _ _ => ?_
    rw [pure_bind]
    refine ends_closeBraces_some (hbehind.next.dropWhile (f := Char.isDigit)) ?_
    omega
  · refine .eat_ne hbehind hcomma ?_
    rw [bounds?_of_ne_comma hcomma, if_neg Bool.false_ne_true, pure_bind]
    cases number? (cs.takeWhile Char.isDigit) with
    | none =>
        simp only [Option.map_none, ite_self]
        exact ends_closeBraces_none hat.le
    | some m => exact ends_closeBraces_some hbehind rfl

theorem suffix_of_ne {c : Char} (hlazy : c ≠ '?') (hpossessive : c ≠ '+') :
    Regex.suffix (c :: cs) = 0 := by
  unfold Regex.suffix
  split <;> simp_all

theorem ends_suffix (hat : At chars p cs) :
    Ends chars suffix p g (Gives p p g (.ok ⟨(), Regex.suffix cs⟩)) := by
  cases cs with
  | nil => exact .eat_ne hat nofun (.eat_ne hat nofun (.pure (.ok rfl (Nat.le_refl p))))
  | cons c cs =>
      by_cases hlazy : c = '?'
      · subst hlazy
        exact .eat_cons hat (.pure (.ok rfl (Nat.le_succ p)))
      · refine .eat_ne hat (by simpa using hlazy) ?_
        by_cases hpossessive : c = '+'
        · subst hpossessive
          exact .eat_cons hat (.pure (.ok rfl (Nat.le_succ p)))
        · rw [suffix_of_ne hlazy hpossessive]
          exact .eat_ne hat (by simpa using hpossessive) (.pure (.ok rfl (Nat.le_refl p)))

/-! ## Names, comments and what is skipped -/

theorem ends_name {terminator : Char} {fuel : Nat} (hfuel : chars.length < fuel)
    (hat : At chars p cs) :
    Ends chars (name terminator fuel) p g (Gives p p g (Regex.name terminator [] 0 p cs)) := by
  -- After the loop the terminator is taken, and only an empty name is still at fault.
  let P (b : Except PatternError (Piece String)) : Post (List Char) := fun r q g' =>
    g' = g ∧ p ≤ q ∧ match r with
    | .ok word =>
        b = if word.isEmpty then fail q .missingName else .ok ⟨String.ofList word.reverse, q - p⟩
    | .error e => b = .error e
  refine .call_piece (by decide) (.bind (P := P (Regex.name terminator [] 0 p cs)) ?_ ?_ ?_)
  · refine .recursion (V := fun _ => True) (P := P) (n := 0)
      (R := fun word used q rest => Regex.name terminator word used q rest) ?_ hfuel trivial hat
    rintro word used rest - hused hrest
    cases rest with
    | nil => exact .bump_nil hrest (.complain ⟨rfl, Nat.le_add_right p used, rfl⟩)
    | cons c rest =>
        refine .bump_cons hrest ?_
        dsimp only
        rw [Regex.name]
        by_cases hend : c = terminator
        · rw [if_pos hend, if_pos hend]
          refine .pure ⟨rfl, by omega, ?_⟩
          rw [show p + used + 1 - p = used + 1 by omega]
        · rw [if_neg hend, if_neg hend]
          by_cases hword : Text.isAlphanumeric c ∨ c = '_'
          · rw [if_pos hword, if_pos hword]
            exact .pure ⟨Nat.lt_succ_self _, .next trivial hused hrest rfl⟩
          · rw [if_neg hword, if_neg hword]
            exact .complain ⟨rfl, by omega, rfl⟩
  · rintro word q g' - ⟨rfl, hle, hsame⟩
    rw [hsame]
    split
    · exact .complain (.error hle)
    · exact .pure (.ok (by omega) hle)
  · rintro e q g' ⟨rfl, hle, hsame⟩
    rw [hsame]
    exact .error hle

theorem ends_comment {fuel : Nat} (hfuel : chars.length < fuel) (hat : At chars p cs) :
    Ends chars (comment fuel) p g (Gives p p g (Regex.comment 0 p cs)) := by
  refine .recursion (V := fun _ => True) (P := Gives p p g) (n := 0)
    (R := fun _ used q rest => Regex.comment used q rest) ?_ hfuel trivial hat
  rintro ⟨⟩ used rest - hused hrest
  cases rest with
  | nil => exact .bump_nil hrest (.complain (.error (Nat.le_add_right p used)))
  | cons c rest =>
      refine .bump_cons hrest ?_
      dsimp only
      rw [Regex.comment]
      by_cases hend : c = ')'
      · rw [if_pos hend, if_pos hend]
        exact .pure (.ok rfl (by omega))
      · rw [if_neg hend, if_neg hend]
        exact .pure ⟨Nat.lt_succ_self _, .next trivial hused hrest rfl⟩

/-- At least one group is open at every turn, so that the last one closes it. -/
theorem ends_skipGroups {depth fuel : Nat} (hfuel : chars.length < fuel) (hdepth : 0 < depth)
    (hat : At chars p cs) :
    Ends chars (skipGroups depth fuel) p g (Gives p p g (nested depth 0 p cs)) := by
  refine .call_piece (by decide) (.recursion (V := (0 < ·)) (P := Gives p p g) (n := 0)
    (R := fun depth used q rest => nested depth used q rest) ?_ hfuel hdepth hat)
  rintro depth used rest hdepth hused hrest
  cases rest with
  | nil => exact .bump_nil hrest (.complain (.error (Nat.le_add_right p used)))
  | cons c rest =>
      refine .bump_cons hrest ?_
      dsimp only
      have hforward := Nat.lt_succ_self (p + used)
      by_cases hescape : c = '\\'
      · subst hescape
        rw [if_pos rfl]
        cases rest with
        | nil => exact .bump_nil hrest.next (.pure ⟨hforward, .next hdepth hused hrest rfl⟩)
        | cons c rest =>
            exact .bump_cons hrest.next (.pure ⟨by omega, rfl, hdepth, used + 2, rest, rfl,
              Nat.zero_le _, hrest.next.next, rfl⟩)
      · rw [if_neg hescape, nested]
        · by_cases hopening : c = '('
          · rw [if_pos hopening, if_pos hopening]
            exact .pure ⟨hforward, .next (Nat.succ_pos depth) hused hrest rfl⟩
          rw [if_neg hopening, if_neg hopening]
          by_cases hclosing : c = ')'
          · rw [if_pos hclosing, if_pos hclosing]
            refine .note hdepth ?_
            by_cases hlast : depth - 1 = 0
            · rw [if_pos hlast, if_pos (by omega)]
              exact .pure (.ok rfl (by omega))
            · rw [if_neg hlast, if_neg (by omega)]
              exact .pure ⟨hforward, .next (Nat.pos_of_ne_zero hlast) hused hrest rfl⟩
          · rw [if_neg hclosing, if_neg hclosing]
            exact .pure ⟨hforward, .next hdepth hused hrest rfl⟩
        · simp [hescape]
        · simp [hescape]

end Specimen.Regex.Descent
