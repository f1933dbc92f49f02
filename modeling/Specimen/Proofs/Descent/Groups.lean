import Specimen.Proofs.Descent.Resume
/-!
# Groups that are read by descent

The reader puts a group aside on its stack and takes it back at its parenthesis, where a descent
calls itself for what is in the group. So what is said of this call (`Fills`) leaves the stack
open, and is assumed for all positions behind the group's first character (`FillsBehind`).
-/

namespace Specimen.Regex.Descent

variable {chars cs : List Char} {p q n : Nat} {g g' : Groups} {c : Char} {e : PatternError}

theorem head?_ne (h : ∀ more, cs = c :: more → False) : cs.head? ≠ some c := fun hc =>
  (List.head?_eq_some_iff.1 hc).elim h

/-- The construct that is read comes after those read before, whatever these are. -/
def Pushes (chars : List Char) (p : Nat) (g : Groups) (q : Nat) : Post Construct
  | .ok a, p', g' => q ≤ p' ∧ ∀ r : Reader, resume chars p g r = resume chars p' g' (r.push a)
  | .error e, p', _ => q ≤ p' ∧ ∀ r : Reader, resume chars p g r = .error e

/-- The branches that are read fill a level, up to a parenthesis or the end. -/
def Fills (chars : List Char) (p : Nat) (g : Groups) : Post Construct
  | .ok a, p', g' => p ≤ p' ∧ (∀ c ∈ (chars.drop p').head?, c = ')') ∧
      ∃ l : Level, l.construct = a ∧
        ∀ stack, resume chars p g ⟨{}, stack⟩ = resume chars p' g' ⟨l, stack⟩
  | .error e, p', _ => p ≤ p' ∧ ∀ stack, resume chars p g ⟨{}, stack⟩ = .error e

/-- From every position behind this one on, branches are read. -/
def FillsBehind (chars : List Char) (p : Nat) (inner : Descent Construct) : Prop :=
  ∀ q g, p < q → Ends chars inner q g (Fills chars q g)

theorem Pushes.le {x : Except PatternError Construct} {p' : Nat}
    (h : Pushes chars p g q x p' g') : q ≤ p' := by
  cases x <;> exact h.1

theorem Fills.le {x : Except PatternError Construct} {p' : Nat}
    (h : Fills chars p g x p' g') : p ≤ p' := by
  cases x <;> exact h.1

theorem Gives.pushes {a : Except PatternError (Piece Construct)}
    {x : Except PatternError Construct} {p' : Nat} (hat : At chars p (c :: cs))
    (ht : token g p c cs = a.map (·.map fun a => (.atom a, g))) (hle : p' ≤ chars.length)
    (h : Gives (p + 1) q g a x p' g') : Pushes chars p g q x p' g' := by
  cases h with
  | ok hp hle' =>
      subst hp
      exact ⟨hle', fun r => resume_of_token hat ht hle⟩
  | error hle' => exact ⟨hle', fun r => resume_of_fault hat ht⟩

theorem Pushes.of_atom {a : Construct} {p' : Nat} (hat : At chars p (c :: cs))
    (ht : token g p c cs = .ok ⟨(.atom a, g), n⟩) (hp : p' = p + 1 + n) (hle : p' ≤ chars.length)
    (hforward : q ≤ p') : Pushes chars p g q (.ok a) p' g := by
  subst hp
  exact ⟨hforward, fun r => resume_of_token hat ht hle⟩

theorem Pushes.of_fault {p' : Nat} (hat : At chars p (c :: cs)) (ht : token g p c cs = .error e)
    (hforward : q ≤ p') : Pushes chars p g q (.error e) p' g' :=
  ⟨hforward, fun _ => resume_of_fault hat ht⟩

theorem token_parenthesis : token g p '(' cs = groupStart g (p + 1) cs := rfl

theorem resume_of_opening {o : Opening} (hat : At chars p ('(' :: cs))
    (ht : groupStart g (p + 1) cs = .ok ⟨(.opening o, g'), n⟩) (hle : p + 1 + n ≤ chars.length) :
    resume chars p g r = resume chars (p + 1 + n) g' ⟨{}, (o, r.level) :: r.stack⟩ :=
  resume_of_token hat ht hle

variable {inner : Descent Construct} {o : Opening} {index : Option Nat} {fuel : Nat}

/-- The body of a group and what its parenthesis makes of it. -/
theorem ends_groupBody (hinner : Ends chars inner q g' (Fills chars q g'))
    (hopening : ∀ r : Reader,
      resume chars p g r = resume chars q g' ⟨{}, (o, r.level) :: r.stack⟩) :
    Ends chars (groupBody inner index) q g' (fun x p' g' => q ≤ p' ∧ match x with
      | .ok a => ∃ body, a = .group index body ∧ ∀ r : Reader,
          resume chars p g r = resume chars p' g' (r.push (Reader.grouped o body))
      | .error e => ∀ r : Reader, resume chars p g r = .error e) := by
  refine .call_of_ne (by decide) (hinner.bind ?_ ?_) fun _ _ _ h => h.1
  · rintro _ p' g'' hle ⟨hforward, hclose, l, rfl, hfills⟩
    have hat : At chars p' (chars.drop p') := .of_le hle
    cases htext : chars.drop p' with
    | nil =>
        rw [htext] at hat
        refine .expect_ne hat (by simp) ⟨hforward, fun r => ?_⟩
        rw [hopening, hfills, resume_end hat, ← hat.length_add]
        rfl
    | cons d ds =>
        rw [htext] at hat hclose
        obtain rfl := hclose d rfl
        have ht : token g'' p' ')' ds = .ok ⟨(.closing p', g''), 0⟩ := rfl
        refine .expect_cons hat (.pure ⟨by omega, l.construct, rfl, fun r => ?_⟩)
        rw [hopening, hfills, resume_of_token hat ht hat.le_of_cons]
        rfl
  · rintro e p' g'' ⟨hforward, hfault⟩
    exact ⟨hforward, fun r => (hopening r).trans (hfault _)⟩

theorem ends_body (hat : At chars p ('(' :: cs)) (hinner : FillsBehind chars p inner)
    (ht : groupStart g (p + 1) cs = .ok ⟨(.opening (.group index), g'), n⟩) :
    Ends chars (groupBody inner index) (p + 1 + n) g' (Pushes chars p g (p + 1)) := by
  refine .of_le fun hle => ?_
  refine (ends_groupBody (hinner _ _ (by omega)) fun r => resume_of_opening hat ht hle).mono ?_
  rintro (e | a) p' g'' - ⟨hforward, h⟩
  · exact ⟨by omega, h⟩
  · obtain ⟨body, rfl, hpush⟩ := h
    exact ⟨by omega, hpush⟩

theorem ends_look {k : Skipped} (hat : At chars p ('(' :: cs))
    (hinner : FillsBehind chars p inner)
    (ht : groupStart g (p + 1) cs = .ok ⟨(.opening (.look k), g'), n⟩) :
    Ends chars (groupBody inner none >>= fun _ => pure (.skipped k)) (p + 1 + n) g'
      (Pushes chars p g (p + 1)) := by
  refine .of_le fun hle => ?_
  refine (ends_groupBody (hinner _ _ (by omega))
    fun r => resume_of_opening hat ht hle).bind ?_ ?_
  · rintro a p' g'' - ⟨hforward, body, -, hpush⟩
    exact .pure ⟨by omega, hpush⟩
  · rintro e p' g'' ⟨hforward, hfault⟩
    exact ⟨by omega, hfault⟩

theorem ends_named {rest : List Char} (hfuel : chars.length < fuel)
    (hat : At chars p ('(' :: cs))
    (hinner : FillsBehind chars p inner) (hrest : At chars (p + 1 + n) rest)
    (hstart : groupStart g (p + 1) cs = Regex.namedGroup g n (p + 1 + n) rest) :
    Ends chars (named inner fuel) (p + 1 + n) g (Pushes chars p g (p + 1)) := by
  refine (ends_name hfuel hrest).piece (fun w m hname _ _ => ?_) fun e p' hname hforward => ?_
  · rw [Regex.namedGroup, hname] at hstart
    refine .openGroup ?_
    rw [Nat.add_assoc]
    exact ends_body hat hinner hstart
  · rw [Regex.namedGroup, hname] at hstart
    exact .of_fault hat hstart (by omega)

theorem ends_namedBackref {rest : List Char} (hfuel : chars.length < fuel)
    (hat : At chars p ('(' :: '?' :: 'P' :: '=' :: rest)) :
    Ends chars (namedBackref fuel) (p + 2) g (Pushes chars p g (p + 1)) := by
  have hrest : At chars (p + 4) rest := hat.append (s := ['(', '?', 'P', '='])
  refine .advance hrest.le ((ends_name hfuel hrest).piece (fun w m hname _ hle => ?_) ?_)
  · refine .groups ?_
    cases hlookup : g.names.lookup w with
    | some i =>
        refine .pure (.of_atom (n := m + 3) hat ?_ (by omega) hle (by omega))
        simp only [token_parenthesis, groupStart, hname, hlookup, bind, Except.bind]
    | none =>
        refine .unknownGroup (.of_fault hat ?_ (by omega))
        simp only [token_parenthesis, groupStart, hname, hlookup, bind, Except.bind]
  · intro e p' hname hforward
    refine .of_fault hat ?_ (by omega)
    rw [token_parenthesis, groupStart, hname]
    rfl

/-- A comment or a conditional group, with what reads it to its end. -/
theorem ends_skipped {x : Descent Unit} {a : Except PatternError (Piece Unit)} {k : Skipped}
    (hat : At chars p ('(' :: cs)) (hx : Ends chars x (p + 3) g (Gives (p + 3) (p + 3) g a))
    (hstart : groupStart g (p + 1) cs = do
      let ⟨(), used⟩ ← a
      .ok ⟨(.atom (.skipped k), g), used + 2⟩) :
    Ends chars (x >>= fun _ => pure (.skipped k)) (p + 3) g (Pushes chars p g (p + 1)) := by
  refine hx.piece (fun _ m ha hforward hle => ?_) fun e p' ha hforward => ?_
  · rw [ha] at hstart
    exact .pure (.of_atom (n := m + 2) hat hstart (by omega) hle (by omega))
  · rw [ha] at hstart
    exact .of_fault hat hstart (by omega)

theorem ends_inlineFlags {rest : List Char} (hfuel : chars.length < fuel)
    (hat : At chars p ('(' :: '?' :: rest)) (hinner : FillsBehind chars p inner)
    (hstart : groupStart g (p + 1) ('?' :: rest) = Regex.inlineFlags g (p + 2) rest) :
    Ends chars (inlineFlags inner fuel) (p + 2) g (Pushes chars p g (p + 1)) := by
  have hrest : At chars (p + 2) rest := hat.append (s := ['(', '?'])
  refine (ends_skipWhile hfuel hrest).value fun _ _ => ?_
  have hbehind := hrest.dropWhile (f := isFlag)
  rw [Regex.inlineFlags] at hstart
  split at hstart
  · rename_i htext
    rw [htext] at hbehind
    refine .eat_cons hbehind ?_
    have hbody := ends_body hat hinner hstart
    rwa [show p + 1 + ((rest.takeWhile isFlag).length + 2) =
      p + 2 + (rest.takeWhile isFlag).length + 1 by omega] at hbody
  · rename_i htext
    rw [htext] at hbehind
    refine .eat_ne hbehind (by simp) (.expect_cons hbehind (.pure ?_))
    exact .of_atom hat hstart (by omega) hbehind.le_of_cons (by omega)
  · rename_i hscope hclose
    refine .eat_ne hbehind (head?_ne hscope) (.expect_ne hbehind (head?_ne hclose) ?_)
    exact .of_fault hat hstart (by omega)

theorem groupStart_of_ne (h : cs.head? ≠ some '?') :
    groupStart g p cs =
      .ok ⟨(.opening (.group (some (g.count + 1))), { g with count := g.count + 1 }), 0⟩ := by
  unfold groupStart
  split <;> simp_all

theorem isPrefixOf_eq_false (text : List Char) (h : ∀ more, cs = text ++ more → False) :
    text.isPrefixOf cs = false := by
  refine Bool.eq_false_iff.2 fun hprefix => ?_
  obtain ⟨more, hmore⟩ := List.isPrefixOf_iff_prefix.1 hprefix
  exact h more hmore.symm

theorem ends_marked {rest : List Char} (hfuel : chars.length < fuel)
    (hat : At chars p ('(' :: '?' :: rest)) (hinner : FillsBehind chars p inner) :
    Ends chars (marked inner fuel) (p + 2) g (Pushes chars p g (p + 1)) := by
  have hrest : At chars (p + 2) rest := hat.next.next
  by_cases hscope : rest.head? = some ':'
  · obtain ⟨rest, rfl⟩ := List.head?_eq_some_iff.1 hscope
    exact .eat_cons hrest (ends_body hat hinner rfl)
  refine .eat_ne hrest hscope ?_
  rw [if_neg Bool.false_ne_true]
  refine .lookingAt hrest (.lookingAt hrest (.lookingAt hrest (.lookingAt hrest ?_)))
  -- The reader tells the kinds of groups apart in the same order.
  generalize htext : '?' :: rest = text
  fun_cases groupStart g (p + 1) text
  case case1 =>
    cases htext
    exact absurd rfl hscope
  case case2 =>
    cases htext
    exact .eat_cons hrest (.advance hrest.next.le_of_cons
      (ends_named (n := 3) hfuel hat hinner hrest.next.next rfl))
  case case3 =>
    cases htext
    exact .lookingAt hrest (ends_namedBackref hfuel hat)
  case case4 | case5 =>
    cases htext
    exact .lookingAt hrest (.lookingAt hrest (.lookingAt hrest
      (.advance hrest.next.next.le (ends_look hat hinner rfl))))
  case case6 more hbehind hnegative =>
    cases htext
    have hlook : (['<', '='].isPrefixOf ('<' :: more) || ['<', '!'].isPrefixOf ('<' :: more)) =
        false := by
      rw [isPrefixOf_eq_false ['<', '='] (by rintro t ⟨⟩; exact hbehind t rfl),
        isPrefixOf_eq_false ['<', '!'] (by rintro t ⟨⟩; exact hnegative t rfl)]
      rfl
    rw [hlook]
    refine .eat_ne hrest (by simp) (.advance hrest.le_of_cons ?_)
    refine ends_named (n := 2) hfuel hat hinner hrest.next ?_
    rw [groupStart]
    · exact hbehind
    · exact hnegative
  case case7 | case8 =>
    cases htext
    exact .lookingAt hrest (.lookingAt hrest (.lookingAt hrest
      (.advance hrest.next.le (ends_look hat hinner rfl))))
  case case9 =>
    cases htext
    exact .lookingAt hrest (.lookingAt hrest (.lookingAt hrest
      (.eat_cons hrest (ends_skipped hat (ends_comment hfuel hrest.next) rfl))))
  case case10 =>
    cases htext
    exact .lookingAt hrest (.lookingAt hrest (.lookingAt hrest
      (.eat_ne hrest (by simp) (.eat_cons hrest
        (ends_skipped hat (ends_skipGroups hfuel (by decide) hrest.next) rfl)))))
  case case11 _ hname href hbehind hnegative hnamed hahead hnot hcomment htest =>
    cases htext
    rw [isPrefixOf_eq_false ['P', '<'] hname, isPrefixOf_eq_false ['<'] hnamed,
      isPrefixOf_eq_false ['<', '='] hbehind, isPrefixOf_eq_false ['<', '!'] hnegative]
    refine .lookingAt hrest ?_
    rw [isPrefixOf_eq_false ['P', '='] href]
    refine .lookingAt hrest (.lookingAt hrest ?_)
    rw [isPrefixOf_eq_false ['='] hahead, isPrefixOf_eq_false ['!'] hnot]
    refine .eat_ne hrest (head?_ne hcomment) (.eat_ne hrest (head?_ne htest) ?_)
    refine ends_inlineFlags hfuel hat hinner ?_
    rw [groupStart] <;> assumption
  case case12 hother =>
    cases htext
    exact absurd rfl (hother _)

theorem ends_group (hfuel : chars.length < fuel) (hat : At chars p ('(' :: cs))
    (hinner : FillsBehind chars p inner) :
    Ends chars (group inner fuel) (p + 1) g (Pushes chars p g (p + 1)) := by
  refine .call_of_ne (by decide) ?_ fun _ _ _ => Pushes.le
  by_cases hplain : cs.head? = some '?'
  · obtain ⟨rest, rfl⟩ := List.head?_eq_some_iff.1 hplain
    exact .eat_cons hat.next (ends_marked hfuel hat hinner)
  · refine .eat_ne hat.next hplain ?_
    rw [if_neg Bool.false_ne_true]
    exact .openGroup (ends_body (n := 0) hat hinner (groupStart_of_ne hplain))

end Specimen.Regex.Descent
