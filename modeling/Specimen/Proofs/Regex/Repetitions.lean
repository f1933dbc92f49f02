import Specimen.Proofs.Regex.Stations
/-!
# The bounds of repetitions

Every repetition of a tree was made at a station of the pattern, of the item before it
(`Station.Repeats`). If its bounds stand in braces they are the numbers that are written there,
as long as these have no more than 64 bits. A numeral beside a comma that has more reads as one
that is left out, and then the bounds are never those that are written (`repetitionBounds`).
-/

namespace Specimen.Regex

/-! ## Numerals -/

def AreDigits (ds : List Char) : Prop := ∀ c ∈ ds, c.isDigit = true

/-- The number that is written by a numeral, and zero if it is left out. -/
def numeral (ds : List Char) : Nat := Nat.ofDigitChars 10 ds 0

/-- The upper bound that is written by a numeral, and none if it is left out. -/
def upperBound (ds : List Char) : Option Nat := if ds = [] then none else some (numeral ds)

/-- Whether a numeral has no more than 64 bits. -/
def Fits (ds : List Char) : Prop := numeral ds < UInt64.size

instance : DecidablePred Fits := fun _ => inferInstanceAs (Decidable (_ < _))

theorem areDigits_of_all {ds : List Char} (h : ds.all Char.isDigit = true) : AreDigits ds :=
  List.all_eq_true.1 h

theorem fits_nil : Fits [] := by decide

theorem number?_eq (ds : List Char) :
    number? ds = if ds ≠ [] ∧ Fits ds then some (numeral ds) else none := by
  have hvalue : ds.foldl (fun n c => n * 10 + (c.toNat - '0'.toNat)) 0 = numeral ds := by
    simp only [numeral, Nat.ofDigitChars, Nat.mul_comm]
  unfold number?
  rw [hvalue]
  by_cases hne : ds = []
  · simp [hne]
  · simp [hne, Fits]

theorem number?_of_fits {ds : List Char} (h : Fits ds) : number? ds = upperBound ds := by
  rw [number?_eq, upperBound]
  by_cases hne : ds = [] <;> simp [hne, h]

theorem number?_of_not_fits {ds : List Char} (h : ¬ Fits ds) : number? ds = none := by
  rw [number?_eq, if_neg fun hfits => h hfits.2]

theorem getD_upperBound (ds : List Char) : (upperBound ds).getD 0 = numeral ds := by
  unfold upperBound
  split
  · rename_i hnil
    rw [hnil]
    rfl
  · rfl

theorem ne_of_not_fits {ds : List Char} (h : ¬ Fits ds) :
    numeral ds ≠ 0 ∧ upperBound ds ≠ none := by
  have hlarge : UInt64.size ≤ numeral ds := Nat.not_lt.1 h
  have hpos : 0 < UInt64.size := by decide
  refine ⟨by omega, ?_⟩
  unfold upperBound
  split
  · rename_i hnil
    exact absurd (hnil ▸ fits_nil) h
  · simp

/-! ## Braces -/

section Braces

variable {m n t : List Char}

theorem bounds?_of_range (hm : AreDigits m) (hn : AreDigits n) :
    bounds? (m ++ ',' :: (n ++ '\x7d' :: t)) =
      some (((number? m).getD 0, number? n), m.length + n.length + 2) := by
  obtain ⟨hlow, hafter⟩ := span_append_cons hm (c := ',') (t := n ++ '\x7d' :: t) rfl
  obtain ⟨hhigh, hclose⟩ := span_append_cons hn (c := '\x7d') (t := t) rfl
  simp only [bounds?, hlow, hafter, hhigh, hclose]

theorem bounds?_of_count (hm : AreDigits m) :
    bounds? (m ++ '\x7d' :: t) = (number? m).map fun k => ((k, some k), m.length + 1) := by
  obtain ⟨hlow, hafter⟩ := span_append_cons hm (c := '\x7d') (t := t) rfl
  simp only [bounds?, hlow, hafter]

end Braces

/-! ## Quantifiers -/

namespace Station

/-- A quantifier with these bounds is read at the station. -/
def Quantifies (s : Station) (least : Nat) (most : Option Nat) : Prop :=
  ∃ blame, s.token = .quantifier least most blame

/-- The machine, when it has read what stands before the station, has this item as the last one
and puts a repetition of it in its place. -/
def Repeats (pattern : String) (s : Station) (least : Nat) (most : Option Nat)
    (body : Construct) : Prop :=
  ∃ before after r items, stations pattern = before ++ s :: after ∧
    (before.map Station.token).foldlM Reader.step {} = .ok r ∧ r.level.items = body :: items ∧
      r.step s.token =
        .ok { r with level := { r.level with items := .repetition least most body :: items } }

variable {s : Station} {least low used : Nat} {most high : Option Nat} {body : Construct}
variable {pattern : String}

/-- Only a quantifier makes a repetition of the last item. -/
theorem Repeats.quantifies (h : s.Repeats pattern least most body) :
    s.Quantifies least most := by
  obtain ⟨before, after, r, items, -, -, hitems, hstep⟩ := h
  cases htoken : s.token with
  | atom c =>
      rw [htoken] at hstep
      simp [Reader.step, Level.push, hitems] at hstep
  | quantifier l u blame =>
      rw [htoken] at hstep
      simp only [Reader.step, hitems, Except.ok.injEq, Reader.mk.injEq, Level.mk.injEq,
        List.cons.injEq, Construct.repetition.injEq, and_true, true_and] at hstep
      obtain ⟨rfl, rfl⟩ := hstep
      exact ⟨blame, htoken⟩
  | bar =>
      rw [htoken] at hstep
      simp [Reader.step, Level.bar] at hstep
  | opening o =>
      rw [htoken] at hstep
      simp [Reader.step] at hstep
  | closing position =>
      rw [htoken] at hstep
      simp only [Reader.step] at hstep
      split at hstep
      · cases hstep
      · rename_i hstack
        have hlength := congrArg (·.stack.length) (Except.ok.inj hstep)
        simp [hstack] at hlength
  | fault e =>
      rw [htoken] at hstep
      cases hstep

theorem reading_of_brace (h : s.first = '\x7b') :
    s.reading = (braces s.position s.rest).map (·.map fun t => (t, s.groups)) := by
  rw [reading, h]
  rfl

theorem not_quantifies_of_none (hfirst : s.first = '\x7b') (h : bounds? s.rest = none) :
    ¬ s.Quantifies least most := by
  rintro ⟨blame, htoken⟩
  have hreading := reading_of_brace hfirst
  rw [braces, h] at hreading
  rw [token_of_ok hreading] at htoken
  cases htoken

/-- Bounds that are read in braces are those of a quantifier unless
they are in descending order. -/
theorem quantifies_iff (hfirst : s.first = '\x7b')
    (h : bounds? s.rest = some ((low, high), used)) :
    s.Quantifies least most ↔ least = low ∧ most = high ∧ ∀ k ∈ most, least ≤ k := by
  have hreading := reading_of_brace hfirst
  simp only [braces, h] at hreading
  have hquantifier : ∀ {blame : Nat} {g : Groups} {n : Nat},
      s.reading = .ok ⟨(.quantifier low high blame, g), n⟩ →
        (s.Quantifies least most ↔ least = low ∧ most = high) := by
    intro blame g n hok
    simp [Quantifies, token_of_ok hok, eq_comm]
  cases high with
  | none =>
      rw [hquantifier hreading]
      constructor
      · rintro ⟨rfl, rfl⟩
        exact ⟨rfl, rfl, nofun⟩
      · exact fun ⟨hleast, hmost, _⟩ => ⟨hleast, hmost⟩
  | some k =>
      dsimp only at hreading
      by_cases horder : k < low
      · rw [if_pos horder] at hreading
        have hfault := token_of_error hreading
        constructor
        · rintro ⟨blame, htoken⟩
          rw [hfault] at htoken
          cases htoken
        · rintro ⟨rfl, rfl, hle⟩
          exact absurd (hle k rfl) (Nat.not_le.2 horder)
      · rw [if_neg horder] at hreading
        rw [hquantifier hreading]
        constructor
        · rintro ⟨rfl, rfl⟩
          refine ⟨rfl, rfl, ?_⟩
          rintro _ ⟨⟩
          exact Nat.not_lt.1 horder
        · exact fun ⟨hleast, hmost, _⟩ => ⟨hleast, hmost⟩

variable {m n t : List Char}

theorem quantifies_range_iff (hfirst : s.first = '\x7b')
    (hrest : s.rest = m ++ ',' :: (n ++ '\x7d' :: t)) (hm : AreDigits m) (hn : AreDigits n)
    (hfm : Fits m) (hfn : Fits n) :
    s.Quantifies least most ↔
      least = numeral m ∧ most = upperBound n ∧ ∀ k ∈ most, least ≤ k := by
  have hbounds := bounds?_of_range hm hn (t := t)
  rw [← hrest, number?_of_fits hfm, number?_of_fits hfn, getD_upperBound] at hbounds
  exact quantifies_iff hfirst hbounds

theorem quantifies_count_iff (hfirst : s.first = '\x7b') (hrest : s.rest = m ++ '\x7d' :: t)
    (hm : AreDigits m) :
    s.Quantifies least most ↔
      (m ≠ [] ∧ Fits m) ∧ least = numeral m ∧ most = some (numeral m) := by
  have hbounds := bounds?_of_count hm (t := t)
  rw [← hrest, number?_eq] at hbounds
  by_cases hwritten : m ≠ [] ∧ Fits m
  · rw [if_pos hwritten] at hbounds
    rw [quantifies_iff hfirst hbounds]
    constructor
    · rintro ⟨rfl, rfl, -⟩
      exact ⟨hwritten, rfl, rfl⟩
    · rintro ⟨-, rfl, rfl⟩
      exact ⟨rfl, rfl, by simp⟩
  · rw [if_neg hwritten] at hbounds
    have hnone : ¬ s.Quantifies least most := not_quantifies_of_none hfirst hbounds
    constructor
    · exact fun h => absurd h hnone
    · exact fun h => absurd h.1 hwritten

/-- A numeral that does not fit is taken for one that is left out. -/
theorem ne_bounds_of_not_fits (hfirst : s.first = '\x7b')
    (hrest : s.rest = m ++ ',' :: (n ++ '\x7d' :: t)) (hm : AreDigits m) (hn : AreDigits n)
    (hlarge : ¬ (Fits m ∧ Fits n)) (h : s.Quantifies least most) :
    ¬ (least = numeral m ∧ most = upperBound n) := by
  have hbounds := bounds?_of_range hm hn (t := t)
  rw [← hrest] at hbounds
  obtain ⟨hleast, hmost, -⟩ := (quantifies_iff hfirst hbounds).1 h
  rintro ⟨hlow, hhigh⟩
  rcases not_and_or.1 hlarge with hfm | hfn
  · rw [hlow, number?_of_not_fits hfm] at hleast
    exact (ne_of_not_fits hfm).1 hleast
  · rw [hhigh, number?_of_not_fits hfn] at hmost
    exact (ne_of_not_fits hfn).2 hmost

end Station

/-! ## Where repetitions come from -/

section Origin

variable {pattern : String} {before after : List Station} {s : Station} {r r' : Reader}
    {bars : Nat}

/-- A repetition was made at a station. -/
def IsMade (pattern : String) (c : Construct) : Prop :=
  ∀ least most body, c = .repetition least most body →
    ∃ s ∈ stations pattern, s.Repeats pattern least most body

theorem joins_isMade (pattern : String) (limit : Nat) : Joins (IsMade pattern) limit :=
  ⟨nofun, nofun, nofun⟩

/-- What a token brings besides a quantifier is no repetition. -/
theorem brings_isMade {t : Token} {groups : Groups} {length : Nat} (h : t.IsRead groups length)
    (hquantifier : ∀ least most blame, t ≠ .quantifier least most blame) :
    t.Brings (IsMade pattern) := by
  cases h with
  | @atomic c hc hopen =>
      refine Construct.everywhere_of_leaf ?_ (by cases hc <;> rfl)
      rintro least most body rfl
      cases hc
  | charClass hlength hq =>
      rcases value_of_charClass hq with ⟨c, hvalue⟩ | ⟨negated, items, hvalue⟩ <;>
        rw [hvalue] <;>
        exact Construct.everywhere_of_leaf nofun rfl
  | quantifier => exact absurd rfl (hquantifier _ _ _)
  | opening o => cases o <;> exact fun _ => nofun
  | bar => trivial
  | closing position => trivial

theorem holds_isMade_of_step (hsplit : stations pattern = before ++ s :: after)
    (hr : (before.map Station.token).foldlM Reader.step {} = .ok r)
    (h : r.Holds (IsMade pattern) bars) (hstep : r.step s.token = .ok r') :
    r'.Holds (IsMade pattern) (bars + 1) := by
  cases hreading : s.reading with
  | error e =>
      rw [Station.token_of_error hreading] at hstep
      cases hstep
  | ok q =>
      have hread := isRead_of_token (Nat.le_refl _) hreading
      rw [← Station.token_of_ok hreading] at hread
      by_cases hquantifier : ∃ least most blame, s.token = .quantifier least most blame
      · obtain ⟨least, most, blame, htoken⟩ := hquantifier
        cases hitems : r.level.items with
        | nil =>
            rw [htoken, Reader.step, hitems] at hstep
            cases hstep
        | cons c items =>
            have hmade : r.step s.token = .ok { r with
                level := { r.level with items := .repetition least most c :: items } } := by
              simp only [htoken, Reader.step, hitems]
            rw [hmade] at hstep
            cases hstep
            refine h.quantifier hitems ?_
            rintro _ _ _ ⟨⟩
            exact ⟨s, by simp [hsplit], before, after, r, items, hsplit, hr, hitems, hmade⟩
      · have hbrings : s.token.Brings (IsMade pattern) :=
          brings_isMade hread fun least most blame htoken => hquantifier ⟨_, _, _, htoken⟩
        exact h.step (joins_isMade pattern (bars + 1)) hbrings (Nat.lt_succ_self _) hstep

/-- The machine holds no repetition but those made at the stations it has passed. -/
theorem holds_isMade (hsplit : stations pattern = before ++ after)
    (hr : (before.map Station.token).foldlM Reader.step {} = .ok r) :
    r.Holds (IsMade pattern) before.length := by
  -- From the end, as the last step needs what the machine had read before it.
  induction before using List.reverseRecOn generalizing after r with
  | nil =>
      cases hr
      exact ⟨.empty, by simp⟩
  | append_singleton before s ih =>
      rw [List.append_assoc, List.singleton_append] at hsplit
      rw [List.map_append, List.foldlM_append] at hr
      obtain ⟨q, hq, hr⟩ := bind_eq_ok.1 hr
      rw [List.map_singleton, List.foldlM_cons] at hr
      obtain ⟨q', hstep, hr⟩ := bind_eq_ok.1 hr
      cases hr
      rw [List.length_append]
      exact holds_isMade_of_step hsplit hq (ih hsplit hq) hstep

theorem everywhere_isMade {tree : Construct} (h : parse pattern = .ok tree) :
    tree.Everywhere (IsMade pattern) := by
  obtain ⟨l, hsteps, rfl⟩ := parse_eq_ok.1 h
  rw [tokens_eq] at hsteps
  have hread := holds_isMade (List.append_nil _).symm hsteps
  exact hread.level.construct (joins_isMade pattern _) (Nat.lt_succ_self _)

end Origin

/-! ## The bounds of a pattern -/

/-- The repetitions of a pattern have the bounds that are written. -/
structure RepetitionBounds (pattern : String) : Prop where
  /-- Every repetition of the tree was made at a station, of the item before it. -/
  made : ∀ tree, parse pattern = .ok tree → ∀ least most body,
    .repetition least most body ∈ tree.nodes →
      ∃ s ∈ stations pattern, s.Repeats pattern least most body
  quantified : ∀ (s : Station) least most body, s.Repeats pattern least most body →
    s.Quantifies least most
  /-- Two numerals in braces with a comma between them, either of which can be left out, are
  these bounds, if they are not in descending order. -/
  range : ∀ s ∈ stations pattern, ∀ m n more, AreDigits m → AreDigits n → s.first = '\x7b' →
    s.rest = m ++ ',' :: (n ++ '\x7d' :: more) → Fits m → Fits n → ∀ least most,
      s.Quantifies least most ↔
        least = numeral m ∧ most = upperBound n ∧ ∀ k ∈ most, least ≤ k
  /-- A single numeral in braces is both bounds. -/
  count : ∀ s ∈ stations pattern, ∀ m more, AreDigits m → s.first = '\x7b' →
    s.rest = m ++ '\x7d' :: more → ∀ least most,
      s.Quantifies least most ↔
        (m ≠ [] ∧ Fits m) ∧ least = numeral m ∧ most = some (numeral m)
  /-- Beside a comma, a numeral that does not fit spoils the bounds. -/
  oversized : ∀ s ∈ stations pattern, ∀ m n more, AreDigits m → AreDigits n →
    s.first = '\x7b' → s.rest = m ++ ',' :: (n ++ '\x7d' :: more) → ¬ (Fits m ∧ Fits n) →
      ∀ least most, s.Quantifies least most → ¬ (least = numeral m ∧ most = upperBound n)

/-- Bounds in braces are read as they are written, where both fit or stand alone. -/
theorem repetitionBounds (pattern : String) : RepetitionBounds pattern where
  made _ h _ _ _ hnode := everywhere_isMade h _ hnode _ _ _ rfl
  quantified _ _ _ _ h := h.quantifies
  range _ _ _ _ _ hm hn hfirst hrest hfm hfn _ _ :=
    Station.quantifies_range_iff hfirst hrest hm hn hfm hfn
  count _ _ _ _ hm hfirst hrest _ _ := Station.quantifies_count_iff hfirst hrest hm
  oversized _ _ _ _ _ hm hn hfirst hrest hlarge _ _ h :=
    Station.ne_bounds_of_not_fits hfirst hrest hm hn hlarge h

example : parse "x\x7b007,12\x7d?y\x7b,4\x7d\x7b3\x7d" = .ok (.concat [
    .repetition 7 (some 12) (.literal 'x'),
    .repetition 3 (some 3) (.repetition 0 (some 4) (.literal 'y'))]) := by cbv

/-- A lower bound of 65 bits, above the upper one. -/
def oversized : String := "a\x7b18446744073709551616,5\x7d"

/-- The lower bound reads as zero, so that the bounds are not taken to be in descending order. -/
theorem not_written_oversized :
    parse oversized = .ok (.repetition 0 (some 5) (.literal 'a')) ∧
      ∃ s ∈ stations oversized, ∃ m n, s.Repeats oversized 0 (some 5) (.literal 'a') ∧
        s.first = '\x7b' ∧ s.rest = m ++ ',' :: (n ++ ['\x7d']) ∧ AreDigits m ∧ AreDigits n ∧
        numeral m = 18446744073709551616 ∧ numeral n = 5 := by
  have hstations : stations oversized = [⟨0, {}, 'a', "\x7b18446744073709551616,5\x7d".toList⟩,
      ⟨1, {}, '\x7b', "18446744073709551616,5\x7d".toList⟩] := by cbv
  have hread : ([⟨0, {}, 'a', "\x7b18446744073709551616,5\x7d".toList⟩].map
      Station.token).foldlM Reader.step {} = .ok ⟨⟨[], [.literal 'a']⟩, []⟩ := by cbv
  refine ⟨by cbv, ⟨1, {}, '\x7b', "18446744073709551616,5\x7d".toList⟩, by simp [hstations],
    "18446744073709551616".toList, ['5'], ⟨_, [], _, [], hstations, hread, rfl, by cbv⟩, rfl,
    rfl,
    areDigits_of_all rfl, areDigits_of_all rfl, by cbv, rfl⟩

end Specimen.Regex
