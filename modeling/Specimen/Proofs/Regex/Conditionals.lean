import Specimen.Proofs.Regex.RoundTrip
import Specimen.Proofs.Regex.Stations
/-!
# Conditionals are left out as a whole

A conditional is skipped by its parentheses, each of which opens or closes a group unless it
has a backslash before it (`depthAfter`). In a pattern with a tree these are the groups that
the machine opens and closes, so a conditional between two such patterns ends at its own
parenthesis (`parse_conditional`). This needs that the parentheses in the classes and
comments of the two pair up (`Station.HidesNoParenthesis`), for the skip does not know that
they open and close nothing.
-/

namespace Specimen.Regex

/-! ## Depth -/

/-- The number of open groups behind a character; a parenthesis cannot
close a group if none is. -/
def depthShift (d : Nat) (c : Char) : Option Nat :=
  if c = '(' then some (d + 1)
  else if c = ')' then if d = 0 then none else some (d - 1)
  else some d

/-- The number of open groups behind a text, if all its parentheses count that have no backslash
before them. A backslash cannot end the text. -/
def depthAfter : Nat → List Char → Option Nat
  | d, [] => some d
  | _, ['\\'] => none
  | d, '\\' :: _ :: cs => depthAfter d cs
  | d, c :: cs => (depthShift d c).bind fun d => depthAfter d cs

/-- A text is empty or begins with an escape or a character that is no backslash, unless it is a
backslash alone. -/
@[elab_as_elim]
theorem induction_escapes {motive : List Char → Prop} (nil : motive []) (lone : motive ['\\'])
    (escape : ∀ c cs, motive cs → motive ('\\' :: c :: cs))
    (other : ∀ c cs, c ≠ '\\' → motive cs → motive (c :: cs)) (cs : List Char) : motive cs :=
  match cs with
  | [] => nil
  | [c] => if h : c = '\\' then h ▸ lone else other c [] h nil
  | c :: d :: cs =>
    if h : c = '\\' then h ▸ escape d cs (induction_escapes nil lone escape other cs)
    else other c (d :: cs) h (induction_escapes nil lone escape other (d :: cs))
termination_by cs.length

section Depth

variable {d e k used position : Nat} {c : Char} {cs s t more : List Char}

theorem depthShift_add (h : depthShift d c = some e) (k : Nat) :
    depthShift (d + k) c = some (e + k) := by
  unfold depthShift at h ⊢
  by_cases hopening : c = '('
  · rw [if_pos hopening] at h ⊢
    cases h
    rw [Nat.add_right_comm]
  by_cases hclosing : c = ')'
  · rw [if_neg hopening, if_pos hclosing] at h ⊢
    by_cases hzero : d = 0
    · rw [if_pos hzero] at h
      cases h
    · rw [if_neg hzero] at h
      cases h
      rw [if_neg (by omega), show d + k - 1 = d - 1 + k by omega]
  · rw [if_neg hopening, if_neg hclosing] at h ⊢
    cases h
    rfl

@[simp] theorem depthAfter_nil : depthAfter d [] = some d := by rw [depthAfter]

@[simp] theorem depthAfter_lone : depthAfter d ['\\'] = none := by rw [depthAfter]

@[simp] theorem depthAfter_escape : depthAfter d ('\\' :: c :: cs) = depthAfter d cs := by
  rw [depthAfter]

theorem depthAfter_cons (h : c ≠ '\\') :
    depthAfter d (c :: cs) = (depthShift d c).bind fun d => depthAfter d cs := by
  rw [depthAfter] <;> simp [h]

@[simp] theorem depthAfter_opening : depthAfter d ('(' :: cs) = depthAfter (d + 1) cs := by
  rw [depthAfter_cons (by decide)]
  rfl

@[simp] theorem depthAfter_closing : depthAfter (d + 1) (')' :: cs) = depthAfter d cs := by
  rw [depthAfter_cons (by decide)]
  rfl

/-- Whether a text has no sign that counts for the depth. -/
def IsLevel (t : List Char) : Prop := ∀ c ∈ t, c ≠ '\\' ∧ c ≠ '(' ∧ c ≠ ')'

theorem depthAfter_level (h : IsLevel t) (more : List Char) :
    depthAfter d (t ++ more) = depthAfter d more := by
  induction t with
  | nil => rfl
  | cons c t ih =>
      obtain ⟨⟨hescape, hopening, hclosing⟩, ht⟩ := List.forall_mem_cons.1 h
      rw [List.cons_append, depthAfter_cons hescape, depthShift, if_neg hopening,
        if_neg hclosing]
      exact ih ht

theorem depthAfter_append (h : depthAfter d s = some e) (t : List Char) :
    depthAfter d (s ++ t) = depthAfter e t := by
  induction s using induction_escapes generalizing d with
  | nil =>
      cases h
      rfl
  | lone =>
      rw [depthAfter_lone] at h
      cases h
  | escape c cs ih =>
      rw [depthAfter_escape] at h
      exact depthAfter_escape.trans (ih h)
  | other c cs hc ih =>
      rw [depthAfter_cons hc] at h
      obtain ⟨d', hshift, h⟩ := Option.bind_eq_some_iff.1 h
      rw [List.cons_append, depthAfter_cons hc, hshift]
      exact ih h

/-- The groups around a text make no difference to those that it opens and closes. -/
theorem depthAfter_add (h : depthAfter d t = some e) (k : Nat) :
    depthAfter (d + k) t = some (e + k) := by
  induction t using induction_escapes generalizing d with
  | nil =>
      cases h
      rfl
  | lone =>
      rw [depthAfter_lone] at h
      cases h
  | escape c cs ih =>
      rw [depthAfter_escape] at h ⊢
      exact ih h
  | other c cs hc ih =>
      rw [depthAfter_cons hc] at h ⊢
      obtain ⟨d', hshift, h⟩ := Option.bind_eq_some_iff.1 h
      rw [depthShift_add hshift k]
      exact ih h

/-! ## The skip -/

theorem nested_cons (hc : c ≠ '\\') (h : depthShift d c = some e) :
    nested (d + 1) used position (c :: cs) = nested (e + 1) (used + 1) (position + 1) cs := by
  unfold depthShift at h
  rw [nested]
  · by_cases hopening : c = '('
    · rw [if_pos hopening] at h ⊢
      cases h
      rfl
    by_cases hclosing : c = ')'
    · rw [if_neg hopening, if_pos hclosing] at h ⊢
      by_cases hzero : d = 0
      · rw [if_pos hzero] at h
        cases h
      · rw [if_neg hzero] at h
        cases h
        rw [if_neg (by omega), show d + 1 - 1 = d - 1 + 1 by omega]
    · rw [if_neg hopening, if_neg hclosing] at h ⊢
      cases h
      rfl
  all_goals simp [hc]

/-- The skip ends at the first parenthesis that closes more groups than the text has opened. -/
theorem nested_of_depthAfter (h : depthAfter d t = some 0) (more : List Char) :
    nested (d + 1) used position (t ++ ')' :: more) = .ok ⟨(), used + t.length + 1⟩ := by
  induction t using induction_escapes generalizing d used position with
  | nil =>
      cases h
      rfl
  | lone =>
      rw [depthAfter_lone] at h
      cases h
  | escape c cs ih =>
      rw [depthAfter_escape] at h
      rw [List.cons_append, List.cons_append, nested, ih h]
      simp only [List.length_cons, Except.ok.injEq, Piece.mk.injEq, true_and]
      omega
  | other c cs hc ih =>
      rw [depthAfter_cons hc] at h
      obtain ⟨d', hshift, h⟩ := Option.bind_eq_some_iff.1 h
      rw [List.cons_append, nested_cons hc hshift, ih h]
      simp only [List.length_cons, Except.ok.injEq, Piece.mk.injEq, true_and]
      omega

/-- What is skipped has closed all groups that it opened, and the open ones but for the last. -/
theorem exists_of_nested {q : Piece Unit} (h : nested (d + 1) used position cs = .ok q) :
    ∃ t more, cs = t ++ ')' :: more ∧ q.used = used + t.length + 1 ∧
      depthAfter d t = some 0 := by
  induction cs using induction_escapes generalizing d used position with
  | nil =>
      rw [nested] at h
      cases h
  | lone =>
      rw [nested] at h
      cases h
  | escape c cs ih =>
      rw [nested] at h
      obtain ⟨t, more, rfl, hused, ht⟩ := ih h
      refine ⟨'\\' :: c :: t, more, rfl, ?_, by rw [depthAfter_escape, ht]⟩
      simp only [List.length_cons]
      omega
  | other c cs hc ih =>
      cases hshift : depthShift d c with
      | some e =>
          rw [nested_cons hc hshift] at h
          obtain ⟨t, more, rfl, hused, ht⟩ := ih h
          refine ⟨c :: t, more, rfl, ?_,
            by rw [depthAfter_cons hc, hshift, Option.bind_some, ht]⟩
          rw [List.length_cons]
          omega
      | none =>
          obtain ⟨rfl, rfl⟩ : c = ')' ∧ d = 0 := by
            unfold depthShift at hshift
            grind
          cases h
          exact ⟨[], cs, rfl, rfl, depthAfter_nil⟩

end Depth

/-! ## Tokens -/

/-- How a token changes the number of open groups. -/
def Token.Shifts (d e : Nat) : Token → Prop
  | .opening _ => e = d + 1
  | .closing _ => d = e + 1
  | .atom _ | .quantifier _ _ _ | .bar => e = d
  | .fault _ => False

theorem Reader.shifts_of_step {r r' : Reader} {t : Token} (h : r.step t = .ok r') :
    t.Shifts r.stack.length r'.stack.length := by
  cases t with
  | quantifier least most blame =>
      simp only [step] at h
      split at h <;> cases h
      rfl
  | closing position =>
      simp only [step] at h
      split at h <;> cases h
      rename_i hstack
      rw [Token.Shifts, hstack, List.length_cons]
  | fault e => cases h
  | _ =>
      cases h
      rfl

/-- Whether a class or a comment begins here, whose parentheses open and close nothing. -/
def isVerbatim (c : Char) (cs : List Char) : Bool :=
  c = '[' || (c = '(' && ['?', '#'].isPrefixOf cs)

/-- A token changes the number of open groups as the parentheses in its text do, those in a class
or in a comment if they pair up. -/
structure Weighs (c : Char) (cs : List Char) (q : Piece (Token × Groups)) : Prop where
  used_le : q.used ≤ cs.length
  depthAfter_eq : (isVerbatim c cs = true → depthAfter 0 (c :: cs.take q.used) = some 0) →
    ∀ {d e}, q.value.1.Shifts d e → depthAfter d (c :: cs.take q.used) = some e

section Token

variable {groups : Groups} {position d : Nat} {c : Char} {cs s t more : List Char}
  {q : Piece (Token × Groups)}

theorem depthAfter_of_isLevel (h : IsLevel t) : depthAfter d t = some d := by
  simpa using depthAfter_level (d := d) h []

theorem isLevel_of_isAlphanum (h : ∀ c ∈ t, c.isAlphanum = true) : IsLevel t := fun c hc =>
  ⟨ne_of_isAlphanum (h c hc) rfl, ne_of_isAlphanum (h c hc) rfl, ne_of_isAlphanum (h c hc) rfl⟩

theorem isLevel_of_name (h : ∀ c ∈ t, Text.isAlphanumeric c = true ∨ c = '_') : IsLevel t := by
  intro c hc
  have hword := h c hc
  refine ⟨?_, ?_, ?_⟩ <;> rintro rfl <;> revert hword <;> decide +kernel

theorem isLevel_of_isFlag (h : ∀ c ∈ t, isFlag c = true) : IsLevel t := by
  intro c hc
  refine ⟨?_, ?_, ?_⟩ <;> rintro rfl <;> exact absurd (h _ hc) (by decide)

theorem isLevel_of_bounds (h : ∀ c ∈ t, c.isDigit = true ∨ c = ',' ∨ c = '\x7d') :
    IsLevel t := by
  intro c hc
  refine ⟨?_, ?_, ?_⟩ <;> rintro rfl <;> exact absurd (h _ hc) (by decide)

theorem exists_of_suffix (cs : List Char) :
    ∃ t more, cs = t ++ more ∧ suffix cs = t.length ∧ IsLevel t := by
  unfold suffix
  split
  · exact ⟨['?'], _, rfl, rfl, by simp [IsLevel]⟩
  · exact ⟨['+'], _, rfl, rfl, by simp [IsLevel]⟩
  · exact ⟨[], _, rfl, rfl, by simp [IsLevel]⟩

namespace Weighs

theorem of_text (hcs : cs = t ++ s) (hused : q.used = t.length)
    (h : ∀ {d e}, q.value.1.Shifts d e → depthAfter d (c :: t) = some e) : Weighs c cs q where
  used_le := by rw [hused, hcs, List.length_append]; exact Nat.le_add_right _ _
  depthAfter_eq _ _ _ hshifts := by rw [hused, hcs, List.take_left]; exact h hshifts

/-- A text without parentheses opens and closes nothing. -/
theorem level (hcs : cs = t ++ s) (hused : q.used = t.length) (h : IsLevel (c :: t))
    (hshifts : ∀ {d e}, q.value.1.Shifts d e → e = d) : Weighs c cs q :=
  of_text hcs hused fun {d e} hde => by rw [hshifts hde, depthAfter_of_isLevel h]

theorem opening {o : Opening} (hcs : cs = t ++ s) (hused : q.used = t.length) (h : IsLevel t)
    (hq : q.value.1 = .opening o) : Weighs '(' cs q :=
  of_text hcs hused fun {d e} hde => by
    rw [hq] at hde
    rw [show e = d + 1 from hde, depthAfter_opening, depthAfter_of_isLevel h]

/-- A group that is read as one token is closed where it ends. -/
theorem closed {a : Construct} (hcs : cs = t ++ ')' :: s) (hused : q.used = t.length + 1)
    (h : ∀ d, depthAfter (d + 1) t = some (d + 1)) (hq : q.value.1 = .atom a) :
    Weighs '(' cs q := by
  refine of_text (t := t ++ [')']) (s := s) (by simp [hcs]) (by simp [hused]) ?_
  intro d e hde
  rw [hq] at hde
  rw [show e = d from hde, depthAfter_opening, depthAfter_append (h d), depthAfter_closing,
    depthAfter_nil]

theorem verbatim {a : Construct} (hc : isVerbatim c cs = true) (hused : q.used ≤ cs.length)
    (hq : q.value.1 = .atom a) : Weighs c cs q where
  used_le := hused
  depthAfter_eq hpaired d e hde := by
    rw [hq] at hde
    rw [show e = d from hde]
    simpa using depthAfter_add (hpaired hc) d

end Weighs

theorem weighs_of_namedGroup {l rest : List Char} (hlead : IsLevel l)
    (hcs : cs = l ++ rest) (h : namedGroup groups l.length position rest = .ok q) :
    Weighs '(' cs q := by
  obtain ⟨⟨n, k⟩, hname, h⟩ := bind_eq_ok.1 h
  cases h
  obtain ⟨w, more, rfl, -, hused, hw⟩ := exists_of_name hname
  refine .opening (t := l ++ (w ++ ['>'])) (s := more) (by simp [hcs]) ?_ ?_ rfl
  · rw [show k = 0 + w.length + 1 from hused]
    simp
  · have hword : IsLevel w := isLevel_of_name fun c hc => (hw c hc).2
    have hlast : IsLevel ['>'] := by simp [IsLevel]
    exact List.forall_mem_append.2 ⟨hlead, List.forall_mem_append.2 ⟨hword, hlast⟩⟩

theorem weighs_of_groupStart (h : groupStart groups position cs = .ok q) : Weighs '(' cs q := by
  -- One case for each way in which a group can begin, as it ends: most with a text of their own
  -- or a name, the comment and the conditional where they are skipped to.
  unfold groupStart at h
  split at h
  · cases h
    exact .opening (t := ['?', ':']) rfl rfl (by simp [IsLevel]) rfl
  · exact weighs_of_namedGroup (l := ['?', 'P', '<']) (by simp [IsLevel]) rfl h
  · obtain ⟨⟨n, k⟩, hname, h⟩ := bind_eq_ok.1 h
    dsimp only at h
    split at h <;> cases h
    obtain ⟨w, more, rfl, -, hused, hw⟩ := exists_of_name hname
    have hlevel : IsLevel (['?', 'P', '='] ++ w) :=
      List.forall_mem_append.2 ⟨by simp, isLevel_of_name fun c hc => (hw c hc).2⟩
    refine .closed (t := ['?', 'P', '='] ++ w) rfl ?_ (fun d => depthAfter_of_isLevel hlevel) rfl
    rw [show k = 0 + w.length + 1 from hused]
    simp only [List.length_append, List.length_cons, List.length_nil]
    omega
  · cases h
    exact .opening (t := ['?', '<', '=']) rfl rfl (by simp [IsLevel]) rfl
  · cases h
    exact .opening (t := ['?', '<', '!']) rfl rfl (by simp [IsLevel]) rfl
  · exact weighs_of_namedGroup (l := ['?', '<']) (by simp [IsLevel]) rfl h
  · cases h
    exact .opening (t := ['?', '=']) rfl rfl (by simp [IsLevel]) rfl
  · cases h
    exact .opening (t := ['?', '!']) rfl rfl (by simp [IsLevel]) rfl
  · obtain ⟨⟨⟨⟩, k⟩, hcomment, h⟩ := bind_eq_ok.1 h
    cases h
    obtain ⟨n, hn, htakes⟩ := takes_of_comment hcomment
    refine .verbatim rfl ?_ rfl
    have hle := htakes.le
    rw [show k = 0 + n from hn]
    simp only [List.length_cons]
    omega
  · obtain ⟨⟨⟨⟩, k⟩, hnested, h⟩ := bind_eq_ok.1 h
    cases h
    obtain ⟨t, more, rfl, hused, ht⟩ := exists_of_nested hnested
    refine .closed (t := '?' :: '(' :: t) rfl ?_ (fun d => ?_) rfl
    · rw [show k = 0 + t.length + 1 from hused]
      simp only [List.length_cons]
      omega
    · rw [depthAfter_cons (by decide), depthShift, if_neg (by decide), if_neg (by decide),
        Option.bind_some, depthAfter_opening]
      have hadd := depthAfter_add ht (d + 1)
      rwa [Nat.add_comm 1, Nat.zero_add] at hadd
  · obtain ⟨flags, c, more, rfl, hflags, hq⟩ := exists_of_inlineFlags h
    have hlevel : IsLevel ('?' :: flags) :=
      List.forall_mem_cons.2 ⟨by decide, isLevel_of_isFlag hflags⟩
    rcases hq with ⟨rfl, rfl⟩ | ⟨rfl, rfl⟩
    · refine .opening (t := '?' :: flags ++ [':']) (s := more) (by simp) (by simp) ?_ rfl
      exact List.forall_mem_append.2 ⟨hlevel, by simp⟩
    · exact .closed (t := '?' :: flags) rfl rfl (fun d => depthAfter_of_isLevel hlevel) rfl
  · cases h
    exact .opening (t := []) rfl rfl (List.forall_mem_nil _) rfl

theorem weighs_of_escape {a : Piece Construct} (h : escape groups position cs = .ok a) :
    Weighs '\\' cs (a.map fun a => (.atom a, groups)) := by
  obtain ⟨d, t, more, rfl, hused, ht⟩ := exists_of_escape h
  refine .of_text (t := d :: t) rfl hused fun {d e} hde => ?_
  rw [show e = d from hde, depthAfter_escape, depthAfter_of_isLevel (isLevel_of_isAlphanum ht)]

theorem weighs_of_braces {a : Piece Token} (h : braces position cs = .ok a) :
    Weighs '\x7b' cs (a.map fun t => (t, groups)) := by
  unfold braces at h
  split at h
  · cases h
    exact .level (t := []) rfl rfl (by simp [IsLevel]) id
  · rename_i least most n hbounds
    have hquantifier : Weighs '\x7b' cs
        ⟨(.quantifier least most (position + 1 + n), groups), n + suffix (cs.drop n)⟩ := by
      obtain ⟨s, rest, rfl, rfl, hs⟩ := exists_of_bounds hbounds
      rw [List.drop_left]
      obtain ⟨t, more, rfl, hused, ht⟩ := exists_of_suffix rest
      refine .level (t := s ++ t) (s := more) (by simp) (by simp [hused]) ?_ id
      exact List.forall_mem_cons.2
        ⟨by decide, List.forall_mem_append.2 ⟨isLevel_of_bounds hs, ht⟩⟩
    split at h
    · split at h <;> cases h
      exact hquantifier
    · cases h
      exact hquantifier

theorem weighs_of_token (h : token groups position c cs = .ok q) : Weighs c cs q := by
  cases readAs_of_token h with
  | bar => exact .level (t := []) rfl rfl (by simp [IsLevel]) id
  | closing =>
      exact .of_text (t := []) rfl rfl fun {d e} hde => by
        rw [show d = e + 1 from hde, depthAfter_closing, depthAfter_nil]
  | group hgroup => exact weighs_of_groupStart hgroup
  | charClass hitems => exact .verbatim rfl (takes_of_charClass hitems).le rfl
  | escape hescape => exact weighs_of_escape hescape
  | quantifier hc =>
      obtain ⟨t, more, hcs, hused, ht⟩ := exists_of_suffix cs
      have hlevel : IsLevel [c] := by rcases hc with rfl | rfl | rfl <;> simp [IsLevel]
      exact .level hcs hused (List.forall_mem_append.2 ⟨hlevel, ht⟩) id
  | braces hbraces => exact weighs_of_braces hbraces
  | single hc =>
      obtain ⟨hescape, -, hopening, hclosing⟩ := hc
      have hlevel : IsLevel [c] := List.forall_mem_singleton.2 ⟨hescape, hopening, hclosing⟩
      exact .level (t := []) rfl rfl hlevel id

end Token

/-! ## Patterns -/

/-- If a class or a comment is read, its parentheses pair up. -/
def Station.HidesNoParenthesis (s : Station) : Prop :=
  isVerbatim s.first s.rest = true → depthAfter 0 (s.first :: s.rest.take s.used) = some 0

instance : DecidablePred Station.HidesNoParenthesis :=
  fun _ => inferInstanceAs (Decidable (_ → _))

/-- The parentheses of a text open and close the groups that the machine opens and closes. -/
theorem ReadsAt.depthAfter_eq {position : Nat} {groups : Groups} {cs : List Char}
    {ss : List Station} {r r' : Reader} (h : ReadsAt position groups cs ss)
    (hquiet : ∀ s ∈ ss, s.HidesNoParenthesis)
    (hsteps : (ss.map Station.token).foldlM Reader.step r = .ok r') :
    depthAfter r.stack.length cs = some r'.stack.length := by
  induction h generalizing r with
  | done =>
      cases hsteps
      exact depthAfter_nil
  | fault hreading =>
      rw [List.map_singleton, Station.token_of_error hreading] at hsteps
      cases hsteps
  | @next s q ss hreading _ ih =>
      rw [List.forall_mem_cons] at hquiet
      rw [List.map_cons, List.foldlM_cons, Station.token_of_ok hreading] at hsteps
      obtain ⟨m, hm, hsteps⟩ := bind_eq_ok.1 hsteps
      have hpaired := hquiet.1
      rw [Station.HidesNoParenthesis, Station.used_of_ok hreading] at hpaired
      have hfirst := (weighs_of_token hreading).depthAfter_eq hpaired (Reader.shifts_of_step hm)
      calc
        depthAfter r.stack.length (s.first :: s.rest) =
            depthAfter r.stack.length
              (s.first :: s.rest.take q.used ++ s.rest.drop q.used) := by
          rw [List.cons_append, List.take_append_drop]
        _ = depthAfter m.stack.length (s.rest.drop q.used) := depthAfter_append hfirst _
        _ = some r'.stack.length := ih hquiet.2 hsteps

theorem depthAfter_of_parse {pattern : String} {tree : Construct}
    (h : parse pattern = .ok tree) (hquiet : ∀ s ∈ stations pattern, s.HidesNoParenthesis) :
    depthAfter 0 pattern.toList = some 0 := by
  obtain ⟨l, hsteps, -⟩ := parse_eq_ok.1 h
  rw [tokens_eq] at hsteps
  exact (readsAt_stations pattern).depthAfter_eq hquiet hsteps

/-- A conditional on the first group. -/
def conditional (yes no : String) : String := "(?(1)" ++ yes ++ "|" ++ no ++ ")"

/-- A conditional between two patterns with trees is left out up to its own parenthesis. -/
theorem parse_conditional {yes no : String} {tree₁ tree₂ : Construct}
    (hyes : parse yes = .ok tree₁) (hno : parse no = .ok tree₂)
    (hquiet : ∀ s ∈ stations yes ++ stations no, s.HidesNoParenthesis) :
    parse (conditional yes no) = .ok (.skipped .conditional) := by
  obtain ⟨hquiet₁, hquiet₂⟩ := List.forall_mem_append.1 hquiet
  let inside := '1' :: ')' :: (yes.toList ++ '|' :: no.toList)
  have hinside : depthAfter 1 inside = some 0 := by
    have hsign : IsLevel ['1'] := by simp [IsLevel]
    have hbar : IsLevel ['|'] := by simp [IsLevel]
    calc
      depthAfter 1 inside = depthAfter 1 (')' :: (yes.toList ++ '|' :: no.toList)) :=
        depthAfter_level hsign _
      _ = depthAfter 0 (yes.toList ++ '|' :: no.toList) := depthAfter_closing
      _ = depthAfter 0 ('|' :: no.toList) :=
        depthAfter_append (depthAfter_of_parse hyes hquiet₁) _
      _ = depthAfter 0 no.toList := depthAfter_level hbar _
      _ = some 0 := depthAfter_of_parse hno hquiet₂
  let rest := '?' :: '(' :: (inside ++ [')'])
  have htext : (conditional yes no).toList = '(' :: rest := by simp [conditional, rest, inside]
  have htoken : token {} 0 '(' rest =
      .ok ⟨(.atom (.skipped .conditional), {}), rest.length⟩ := by
    have hused : 0 + inside.length + 1 + 2 = rest.length := by simp [rest]
    rw [← hused, token, groupStart, nested_of_depthAfter hinside]
    rfl
  have hrest : tokensFrom rest.length 1 {} rest = [] := by
    simpa [tokensFrom] using tokensFrom_skip 1 {} rest []
  have htokens : tokens (conditional yes no) = [.atom (.skipped .conditional)] := by
    rw [tokens, htext, tokensFrom, htoken]
    exact congrArg _ hrest
  refine parse_eq_ok.2 ⟨{ items := [.skipped .conditional] }, ?_, rfl⟩
  rw [htokens]
  rfl

/-- Groups, escapes, a class, a comment and another conditional are
left out with the branches. -/
theorem parse_conditional_branches :
    parse (conditional "(a|(?<n>b))\\([x()]" "c(?#)(?(1)d|e)\\)") =
      .ok (.skipped .conditional) :=
  parse_conditional (by cbv) (by cbv) (by decide +kernel)

/-- A parenthesis in a class that closes nothing ends a conditional too early. -/
theorem not_skipped_bracketed :
    (∃ tree, parse "[)]" = .ok tree) ∧ (∃ tree, parse "b" = .ok tree) ∧
      parse (conditional "[)]" "b") = .error (.at 10 .unbalancedParenthesis) :=
  ⟨⟨_, by cbv⟩, ⟨_, by cbv⟩, by cbv⟩

end Specimen.Regex
