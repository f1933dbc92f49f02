import Specimen.Proofs.Descent.Groups
/-!
# The tree that is read by descent

Constructs with their quantifiers make a branch, branches make the body of a group, and the
groups in it are shorter than what they are in. So fuel for one group more than there are
characters lasts for all groups that are nested, and the descent ends with what the reader
gives (`descends_in_bounds`).
-/

namespace Specimen.Regex

namespace Descent

variable {chars cs : List Char} {p n fuel : Nat} {g g' : Groups} {c : Char}
variable {inner : Descent Construct}

/-! ## Constructs -/

/-- A construct without quantifiers comes after those read before; where a quantifier stands
instead there must be none. -/
def Begins (chars : List Char) (p : Nat) (g : Groups) : Post Construct
  | .ok a, p', g' => p < p' ∧ ∀ r : Reader, resume chars p g r = resume chars p' g' (r.push a)
  | .error e, p', _ => p ≤ p' ∧ ∀ r : Reader,
      r.level.items = [] ∨ startsQuantifier (chars.drop p) = false →
        resume chars p g r = .error e

theorem Pushes.begins {x : Except PatternError Construct} {p' : Nat}
    (h : Pushes chars p g (p + 1) x p' g') : Begins chars p g x p' g' := by
  cases x with
  | ok a => exact h
  | error e => exact ⟨Nat.le_of_succ_le h.1, fun r _ => h.2 r⟩

theorem begins_of_quantifier {least : Nat} {most : Option Nat} {blame p' : Nat}
    (hat : At chars p (c :: cs)) (hle : p + 1 + n ≤ chars.length) (hp : p ≤ p')
    (ht : token g p c cs = .ok ⟨(.quantifier least most blame, g), n⟩)
    (hstarts : startsQuantifier (c :: cs) = true) :
    Begins chars p g (.error (.at blame .nothingToRepeat)) p' g' := by
  refine ⟨hp, fun r hr => ?_⟩
  rw [hat.drop, hstarts] at hr
  rw [resume_of_token hat ht hle, Reader.step, hr.resolve_right (by decide)]
  rfl

theorem suffix_le (cs : List Char) : Regex.suffix cs ≤ cs.length := by
  unfold Regex.suffix
  split <;> simp

/-- A brace stands for itself only where it is no quantifier. -/
theorem ends_brace (hfuel : chars.length < fuel) (hat : At chars p ('\x7b' :: cs)) :
    Ends chars (do
      if (← braces fuel).isSome then complain .nothingToRepeat
      else
        advance 1
        return .literal '\x7b') p g (Begins chars p g) := by
  refine ends_braces_bind hfuel hat (fun hnot => ?_) (fun b n hfound hle ht => .complain ?_)
    fun e p' hle ht => ?_
  · have ht : token g p '\x7b' cs = _ := token_brace_of_none hnot
    exact .advance hat.le_of_cons
      (.pure ⟨Nat.lt_succ_self p, fun r => resume_of_token hat ht hat.le_of_cons⟩)
  · have hbehind := (hat.next.add hle).length_add
    have hsuffix := suffix_le (cs.drop n)
    refine begins_of_quantifier hat (by omega) (by omega) ht ?_
    simp [startsQuantifier, hfound]
  · exact ⟨hle, fun r _ => resume_of_fault hat ht⟩

theorem ends_atom (hfuel : chars.length < fuel) (hat : At chars p (c :: cs)) (hbar : c ≠ '|')
    (hclose : c ≠ ')') (hinner : FillsBehind chars p inner) :
    Ends chars (atom inner fuel) p g (Begins chars p g) := by
  refine .call (.bump_cons hat ?_) ?_
  · have hsingle {a : Construct} (ht : token g p c cs = .ok ⟨(.atom a, g), 0⟩) :
        Ends chars (pure a) (p + 1) g (Begins chars p g) :=
      .pure ⟨Nat.lt_succ_self p, fun r => resume_of_token hat ht hat.le_of_cons⟩
    have hsuffix := suffix_le cs
    have hlength := hat.next.length_add
    dsimp only
    split
    · exact (ends_group hfuel hat hinner).mono fun _ _ _ _ h => h.begins
    · exact (ends_charClass hfuel hat.next).mono fun _ _ _ hle h => (h.pushes hat rfl hle).begins
    · exact hsingle rfl
    · exact hsingle rfl
    · exact hsingle rfl
    · exact (ends_escape hat.next).mono fun _ _ _ hle h => (h.pushes hat rfl hle).begins
    · exact .back (.complain (begins_of_quantifier hat (by omega) (Nat.le_refl p) rfl rfl))
    · exact .back (.complain (begins_of_quantifier hat (by omega) (Nat.le_refl p) rfl rfl))
    · exact .back (.complain (begins_of_quantifier hat (by omega) (Nat.le_refl p) rfl rfl))
    · exact .back (ends_brace hfuel hat)
    · exact hsingle (by simp only [token])
  · rintro (e | a) p' g' h
    · exact ⟨h.1, fun _ hok => absurd hok Bool.false_ne_true⟩
    · exact ⟨Nat.le_of_lt h.1, fun _ _ _ => h.1⟩

/-- A construct with its quantifiers comes after those read before, and no quantifier is left. -/
def Adds (chars : List Char) (p : Nat) (g : Groups) : Post Construct
  | .ok a, p', g' => p < p' ∧ startsQuantifier (chars.drop p') = false ∧
      ∀ r : Reader, resume chars p g r = resume chars p' g' (r.push a)
  | .error e, p', _ => p ≤ p' ∧ ∀ r : Reader,
      r.level.items = [] ∨ startsQuantifier (chars.drop p) = false →
        resume chars p g r = .error e

theorem ends_item (hfuel : chars.length < fuel) (hat : At chars p (c :: cs)) (hbar : c ≠ '|')
    (hclose : c ≠ ')') (hinner : FillsBehind chars p inner) :
    Ends chars (atom inner fuel >>= quantified fuel) p g (Adds chars p g) := by
  refine (ends_atom hfuel hat hbar hclose hinner).bind ?_ fun _ _ _ h => h
  rintro a q g' - ⟨hforward, hbegins⟩
  refine (ends_quantified hfuel).mono ?_
  rintro (e | b) p' g'' - h
  · obtain ⟨hle, hfault⟩ := h
    exact ⟨by omega, fun r _ => (hbegins r).trans (hfault r)⟩
  · obtain ⟨hle, hnone, hquantifies⟩ := h
    exact ⟨by omega, hnone, fun r => (hbegins r).trans (hquantifies r)⟩

/-! ## Branches -/

/-- The items that are read fill a branch, up to a bar or a parenthesis or the end. -/
def Lines (chars : List Char) (p : Nat) (g : Groups) : Post Construct
  | .ok a, p', g' => p ≤ p' ∧ (∀ c ∈ (chars.drop p').head?, c = '|' ∨ c = ')') ∧
      ∃ items : List Construct, a = .sequence items.reverse ∧ ∀ branches stack,
        resume chars p g ⟨⟨branches, []⟩, stack⟩ = resume chars p' g' ⟨⟨branches, items⟩, stack⟩
  | .error e, p', _ => p ≤ p' ∧ ∀ branches stack,
      resume chars p g ⟨⟨branches, []⟩, stack⟩ = .error e

theorem Lines.le {x : Except PatternError Construct} {p' : Nat}
    (h : Lines chars p g x p' g') : p ≤ p' := by
  cases x <;> exact h.1

theorem ends_concat (hfuel : chars.length < fuel) (hinner : FillsBehind chars p inner) :
    Ends chars (concat inner fuel) p g (Lines chars p g) := by
  -- A quantifier without a construct is only at fault where no item is before it; behind an item
  -- all quantifiers are taken.
  let I (items : List Construct) (q : Nat) (g' : Groups) : Prop :=
    p ≤ q ∧ (items = [] ∨ startsQuantifier (chars.drop q) = false) ∧ ∀ branches stack,
      resume chars p g ⟨⟨branches, []⟩, stack⟩ = resume chars q g' ⟨⟨branches, items⟩, stack⟩
  refine .call_of_ne (by decide) (.map (.loop (I := I) ?_ (by omega) ?_)) fun _ _ _ => Lines.le
  · rintro items q g' hq ⟨hpq, hopen, hsame⟩
    have hat : At chars q (chars.drop q) := .of_le hq
    refine .peek hat ?_
    cases htext : chars.drop q with
    | nil => exact .pure ⟨hpq, by simp [htext], items, rfl, hsame⟩
    | cons c cs =>
        rw [htext] at hat
        rw [List.head?_cons]
        dsimp only
        by_cases hstop : c = '|' ∨ c = ')'
        · rw [if_pos hstop]
          exact .pure ⟨hpq, by simpa [htext] using hstop, items, rfl, hsame⟩
        · obtain ⟨hbar, hclose⟩ := not_or.1 hstop
          rw [if_neg hstop, ← bind_assoc]
          refine (ends_item hfuel hat hbar hclose
            fun q' g h => hinner q' g (by omega)).bind ?_ ?_
          · rintro item q' g'' - ⟨hforward, hnone, hadds⟩
            exact .pure ⟨hforward, by omega, .inr hnone, fun branches stack =>
              (hsame branches stack).trans (hadds _)⟩
          · rintro e q' g'' ⟨hforward, hfault⟩
            exact ⟨by omega, fun branches stack =>
              (hsame branches stack).trans (hfault _ hopen)⟩
  · exact ⟨Nat.le_refl p, .inl rfl, fun _ _ => rfl⟩

theorem ends_branches (hfuel : chars.length < fuel) (hinner : FillsBehind chars p inner) :
    Ends chars (branches inner fuel) p g (Fills chars p g) := by
  let I (all : List Construct) (q : Nat) (g' : Groups) : Prop :=
    p ≤ q ∧ (∀ c ∈ (chars.drop q).head?, c = '|' ∨ c = ')') ∧ ∃ l : Level, l.bar.branches = all ∧
      ∀ stack, resume chars p g ⟨{}, stack⟩ = resume chars q g' ⟨l, stack⟩
  refine .call_of_ne (by decide) ((ends_concat hfuel hinner).bind ?_ ?_) fun _ _ _ => Fills.le
  · rintro first q g' hq ⟨hpq, hstop, items, rfl, hsame⟩
    refine .map (.loop (I := I) ?_ (by omega) ⟨hpq, hstop, ⟨[], items⟩, rfl, hsame []⟩)
    rintro all q g' hq ⟨hpq, hstop, l, rfl, hsame⟩
    -- The level of the reader has the last branch still as its items; a bar ends it.
    have hat : At chars q (chars.drop q) := .of_le hq
    by_cases hbar : (chars.drop q).head? = some '|'
    · obtain ⟨rest, hrest⟩ := List.head?_eq_some_iff.1 hbar
      rw [hrest] at hat
      have ht : token g' q '|' rest = .ok ⟨(.bar, g'), 0⟩ := rfl
      have hafter (stack) : resume chars p g ⟨{}, stack⟩ =
          resume chars (q + 1) g' ⟨l.bar, stack⟩ :=
        (hsame stack).trans (resume_of_token hat ht hat.le_of_cons)
      refine .eat_cons hat ((ends_concat hfuel fun q' g h => hinner q' g (by omega)).bind ?_ ?_)
      · rintro branch q' g'' - ⟨hforward, hstop, items, rfl, hlines⟩
        exact .pure ⟨by omega, by omega, hstop, ⟨l.bar.branches, items⟩, rfl, fun stack =>
          (hafter stack).trans (hlines _ stack)⟩
      · rintro e q' g'' ⟨hforward, hfault⟩
        exact ⟨by omega, fun stack => (hafter stack).trans (hfault _ stack)⟩
    · refine .eat_ne hat hbar (.pure ⟨hpq, fun c hc => ?_, l, rfl, hsame⟩)
      exact (hstop c hc).resolve_left fun h => hbar (h ▸ hc)
  · rintro e q g' ⟨hforward, hfault⟩
    exact ⟨hforward, hfault []⟩

/-- By induction on the depth: a group begins behind where the branches that it is in begin. -/
theorem ends_alternation {depth : Nat} (hfuel : chars.length < fuel)
    (hdepth : chars.length < p + depth) :
    Ends chars (alternation fuel depth) p g (Fills chars p g) := by
  induction depth generalizing p g with
  | zero => exact .of_le fun hle => absurd hdepth (by omega)
  | succ depth ih => exact ends_branches hfuel fun q g hq => ih (by omega)

theorem ends_tree (hfuel : chars.length < fuel) :
    Ends chars (tree fuel) 0 {} fun r _ _ => r = resume chars 0 {} {} := by
  refine (ends_alternation hfuel (by omega)).bind ?_ ?_
  · rintro _ p g hle ⟨-, hclose, l, rfl, hfills⟩
    have hat : At chars p (chars.drop p) := .of_le hle
    refine .position (.read ?_)
    cases htext : chars.drop p with
    | nil =>
        rw [htext] at hat
        have hend : p = chars.length := hat.length_add
        rw [if_neg (by omega)]
        refine .pure ?_
        rw [hfills, resume_end hat]
        rfl
    | cons c cs =>
        rw [htext] at hat hclose
        obtain rfl := hclose c rfl
        have ht : token g p ')' cs = .ok ⟨(.closing p, g), 0⟩ := rfl
        rw [if_pos (Nat.lt_of_succ_le hat.le_of_cons)]
        refine .complain ?_
        rw [hfills, resume_of_token hat ht hat.le_of_cons]
        rfl
  · rintro e p g ⟨-, hfault⟩
    exact (hfault []).symm

end Descent

/-- The descent ends with the tree or the complaint of the reader, whatever the pattern is: fuel
for one turn more than there are characters lasts for every loop and for all groups in each
other. All that it does to the cursor on the way is safe. -/
theorem descends_in_bounds (pattern : String) (fuel : Nat) (hfuel : pattern.length < fuel) :
    ∃ c, descend fuel pattern = some (parse pattern, c) ∧ c.position ≤ pattern.length ∧
      (∀ e ∈ c.record, e.IsSafe pattern.length) ∧
      ∀ position f, parse pattern = .error (.at position f) → position ≤ pattern.length := by
  rw [← String.length_toList] at hfuel ⊢
  obtain ⟨r, c, hc, houtcome⟩ :=
    Descent.ends_tree hfuel [] (Nat.zero_le _) (List.forall_mem_nil _)
  obtain rfl : r = parse pattern := houtcome.post.trans (Descent.resume_start pattern)
  exact ⟨c, hc, houtcome.le, houtcome.safe, houtcome.complaint_le⟩

/-- The nesting of a group that is skipped is counted down, an open brace is set back to, and a
bad escape is taken back. -/
theorem descends_in_bounds_rollbacks :
    "(?(1)a)b\x7b,x\\q".length < 14 ∧
    ∃ c, descend 14 "(?(1)a)b\x7b,x\\q" = some (.error (.at 12 (.badEscape 'q')), c) ∧
      c.position ≤ 13 ∧ (∀ e ∈ c.record, e.IsSafe 13) ∧
      [.closed 1, .moved 8, .wentBack 13] ⊆ c.record := by
  obtain ⟨c, hc, hle, hsafe, -⟩ := descends_in_bounds "(?(1)a)b\x7b,x\\q" 14 (by decide)
  have hrecord : (descend 14 "(?(1)a)b\x7b,x\\q").map
      (fun x => decide ([.closed 1, .moved 8, .wentBack 13] ⊆ x.2.record)) = some true := by
    decide +kernel
  have hparse : parse "(?(1)a)b\x7b,x\\q" = .error (.at 12 (.badEscape 'q')) := by rfl
  rw [hc] at hrecord
  rw [hparse] at hc
  exact ⟨by decide, c, hc, hle, hsafe, by simpa using hrecord⟩

end Specimen.Regex
