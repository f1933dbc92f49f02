import Specimen.Proofs.Regex.Extents
import Specimen.Proofs.Regex.Pieces
/-!
# What the readers of a pattern complain of

A reader that fails names a place of the text before it, or a group that no reference can mean.
-/

namespace Specimen.Regex

variable {α β : Type} {position used limit : Nat} {cs : List Char}

/-- Every failure is a complaint about a place up to a limit. -/
def Complains (limit : Nat) (x : Except PatternError α) : Prop :=
  ∀ e, x = .error e → ∃ place f, e = .at place f ∧ place ≤ limit

namespace Complains

theorem ok (a : α) : Complains limit (.ok a) := nofun

theorem fail {f : Fault} (h : position ≤ limit) :
    Complains limit (Regex.fail position f : Except PatternError α) := by
  rintro _ ⟨⟩
  exact ⟨position, f, rfl, h⟩

theorem bind {x : Except PatternError α} {f : α → Except PatternError β} (hx : Complains limit x)
    (hf : ∀ a, x = .ok a → Complains limit (f a)) : Complains limit (x >>= f) := by
  cases x with
  | error e =>
      rintro _ ⟨⟩
      exact hx e rfl
  | ok a => exact hf a rfl

theorem map {x : Except PatternError α} {f : α → β} (hx : Complains limit x) :
    Complains limit (x.map f) := by
  cases x with
  | error e =>
      rintro _ ⟨⟩
      exact hx e rfl
  | ok a => nofun

theorem mono {x : Except PatternError α} {limit' : Nat} (hx : Complains limit x)
    (h : limit ≤ limit') : Complains limit' x := by
  intro e he
  obtain ⟨place, f, rfl, hplace⟩ := hx e he
  exact ⟨place, f, rfl, Nat.le_trans hplace h⟩

end Complains

theorem complains_hexValue (digits value : Nat) :
    Complains (position + cs.length) (hexValue position digits value cs) := by
  induction digits generalizing position value cs with
  | zero => exact .ok _
  | succ digits ih =>
      cases cs with
      | nil => exact .fail (Nat.le_refl _)
      | cons c cs =>
          rw [List.length_cons]
          unfold hexValue
          split
          · exact (ih _).mono (by omega)
          · exact .fail (by omega)

theorem complains_hexChar (digits : Nat) :
    Complains (position + cs.length) (hexChar position digits cs) := by
  refine (complains_hexValue digits 0).bind fun code hcode => ?_
  obtain ⟨t, more, rfl, hlength, -⟩ := exists_of_hexValue hcode
  split
  · exact .ok _
  · refine .fail ?_
    rw [List.length_append]
    omega

theorem complains_escapedChar : Complains (position + cs.length) (escapedChar position cs) := by
  cases cs with
  | nil => exact .fail (Nat.le_refl _)
  | cons c cs =>
      have hhex : ∀ digits, Complains (position + (c :: cs).length)
          (hexChar (position + 1) digits cs) := fun digits =>
        (complains_hexChar digits).mono (by rw [List.length_cons]; omega)
      simp only [escapedChar]
      split
      case h_9 => exact hhex 2
      case h_10 => exact hhex 4
      case h_11 => exact hhex 8
      case h_12 =>
        split
        · exact .fail (Nat.le_add_right _ _)
        · exact .ok _
      all_goals exact .ok _

theorem used_le_of_escapedChar {q : Piece Char} (h : escapedChar position cs = .ok q) :
    q.used ≤ cs.length := by
  obtain ⟨d, t, more, rfl, hused, -⟩ := exists_of_escapedChar h
  rw [hused, List.length_cons, List.length_append]
  omega

/-! ## Classes -/

theorem complains_rangeEndChar :
    Complains (position + cs.length) (rangeEndChar position cs) := by
  unfold rangeEndChar
  split
  · exact .fail (Nat.le_refl _)
  · refine .bind (complains_escapedChar.mono ?_) fun _ _ => .ok _
    rw [List.length_cons]
    omega
  · exact .ok _

theorem complains_rangeFrom (first : Char) :
    Complains (position + cs.length) (rangeFrom first used position cs) := by
  unfold rangeFrom
  split
  · rename_i d rest
    split
    · exact .ok _
    · rename_i hd
      have hend : Complains (position + ('-' :: d :: rest).length)
          (rangeEnd first (position + 1) (d :: rest)) := by
        refine .bind (complains_rangeEndChar.mono ?_) fun q hq => ?_
        · simp only [List.length_cons]
          omega
        · have hused := (takes_of_rangeEndChar hd hq).le
          dsimp only
          split
          · refine .fail ?_
            simp only [List.length_cons] at hused ⊢
            omega
          · exact .ok _
      exact hend.bind fun _ _ => .ok _
  · exact .ok _

theorem complains_classItem (c : Char) :
    Complains (position + 1 + cs.length) (classItem position c cs) := by
  unfold classItem
  split
  · split
    · exact .ok _
    · refine complains_escapedChar.bind fun q hq => ?_
      have hused := used_le_of_escapedChar hq
      refine (complains_rangeFrom _).mono ?_
      rw [List.length_drop]
      omega
  · exact complains_rangeFrom c

theorem complains_classItems (first : Bool) (items : List ClassItem) (skip : Nat) :
    Complains (position + cs.length) (classItems first items used skip position cs) := by
  induction cs generalizing first items used skip position with
  | nil => cases skip <;> exact .fail (Nat.le_refl _)
  | cons c cs ih =>
      have hlimit : position + 1 + cs.length = position + (c :: cs).length := by
        rw [List.length_cons]
        omega
      rw [← hlimit]
      cases skip with
      | succ skip => exact ih _ _ _
      | zero =>
          unfold classItems
          split
          · exact .ok _
          · split
            · rename_i e he
              rintro _ ⟨⟩
              exact complains_classItem c e he
            · exact ih _ _ _

theorem complains_charClass : Complains (position + cs.length) (charClass position cs) := by
  refine .bind ((complains_classItems _ _ _).mono ?_) fun q _ => ?_
  · cases cs with
    | nil => exact Nat.le_refl _
    | cons c cs =>
        split
        · simp only [List.drop_succ_cons, List.drop_zero, List.length_cons]
          omega
        · exact Nat.le_refl _
  · dsimp only
    split <;> exact .ok _

/-! ## Quantifiers, comments and names -/

theorem complains_braces : Complains (position + 1 + cs.length) (braces position cs) := by
  unfold braces
  split
  · exact .ok _
  · rename_i least most n hbounds
    have hused := (takes_of_bounds hbounds).le
    split
    · split
      · exact .fail (by omega)
      · exact .ok _
    · exact .ok _

theorem complains_comment : Complains (position + cs.length) (comment used position cs) := by
  induction cs generalizing used position with
  | nil => exact .fail (Nat.le_refl _)
  | cons c cs ih =>
      unfold comment
      split
      · exact .ok _
      · exact ih.mono (by rw [List.length_cons]; omega)

theorem complains_nested (depth : Nat) :
    Complains (position + cs.length) (nested depth used position cs) := by
  fun_induction nested depth used position cs with
  | case1 => exact .fail (Nat.le_refl _)
  | case2 => exact .fail (Nat.le_refl _)
  | case3 _ _ _ _ _ ih => exact ih.mono (by simp only [List.length_cons]; omega)
  | case5 => exact .ok _
  | _ => rename_i ih; exact ih.mono (by simp only [List.length_cons]; omega)

theorem complains_name {terminator : Char} {acc : List Char} :
    Complains (position + cs.length) (name terminator acc used position cs) := by
  induction cs generalizing acc used position with
  | nil => exact .fail (Nat.le_refl _)
  | cons c cs ih =>
      unfold name
      split
      · split
        · exact .fail (by rw [List.length_cons]; omega)
        · exact .ok _
      · split
        · exact ih.mono (by rw [List.length_cons]; omega)
        · exact .fail (by rw [List.length_cons]; omega)

/-! ## References and tokens -/

/-- A reference is written at a character, and the group it means is not open. -/
inductive Groups.Lacks (groups : Groups) : Char → List Char → String → Prop
  | number {n : Nat} {more : List Char} (hpos : 1 ≤ n) (hlt : n ≤ 99)
      (hcount : groups.count < n) :
      Lacks groups '\\' (digits n ++ more) (toString n)
  | name {w more : List Char} (hnames : groups.names.lookup (String.ofList w) = none) :
      Lacks groups '(' ('?' :: 'P' :: '=' :: (w ++ ')' :: more)) (String.ofList w)

section References

variable {groups : Groups} {c : Char} {e : PatternError}

theorem digitChar_of_isDigit (h : c.isDigit = true) : (c.toNat - '0'.toNat).digitChar = c := by
  have hdigits : ∀ n < 10, n.digitChar = Char.ofNat ('0'.toNat + n) := by decide
  obtain ⟨hlow, hhigh⟩ := toNat_of_isDigit h
  have hzero : '0'.toNat = 48 := rfl
  rw [hdigits _ (by omega), show '0'.toNat + (c.toNat - '0'.toNat) = c.toNat by omega,
    Char.ofNat_toNat]

theorem exists_of_backref_error (hc : '1' ≤ c) (hdigit : c.isDigit = true)
    (h : backref groups c cs = .error e) : ∃ n more, e = .unknownGroup (toString n) ∧ 1 ≤ n ∧
      n ≤ 99 ∧ groups.count < n ∧ c :: cs = digits n ++ more := by
  have hzero : '0'.toNat = 48 := rfl
  have hfirst : 1 ≤ c.toNat - '0'.toNat := Nat.le_sub_of_add_le hc
  have hone := digitChar_of_isDigit hdigit
  have hbound := toNat_of_isDigit hdigit
  have hsingle : c :: cs = digits (c.toNat - '0'.toNat) ++ cs := by
    rw [digits_of_lt (by omega), hone]
    rfl
  unfold backref at h
  cases cs with
  | nil =>
      dsimp only at h
      split at h <;> cases h
      exact ⟨_, [], rfl, hfirst, by omega, ‹_›, hsingle⟩
  | cons d cs =>
      cases hd : d.isDigit <;> simp only [hd, if_true, Bool.false_eq_true, if_false] at h <;>
        split at h <;> cases h
      · exact ⟨_, d :: cs, rfl, hfirst, by omega, ‹_›, hsingle⟩
      · have htwo := digitChar_of_isDigit hd
        have hbound' := toNat_of_isDigit hd
        refine ⟨_, cs, rfl, by omega, by omega, ‹_›, ?_⟩
        rw [digits_of_le (by omega) (by omega)]
        rw [show ((c.toNat - '0'.toNat) * 10 + (d.toNat - '0'.toNat)) / 10 =
            c.toNat - '0'.toNat by
            omega, show ((c.toNat - '0'.toNat) * 10 + (d.toNat - '0'.toNat)) % 10 =
              d.toNat - '0'.toNat by omega, hone, htwo]
        rfl

/-- A failure is a complaint about a place up to a limit, or about a group that is not open. -/
def Faults (groups : Groups) (c : Char) (cs : List Char) (limit : Nat) (e : PatternError) :
    Prop :=
  (∃ place f, e = .at place f ∧ place ≤ limit) ∨ ∃ w, e = .unknownGroup w ∧ groups.Lacks c cs w

theorem faults_of_escape (h : escape groups position cs = .error e) :
    Faults groups '\\' cs (position + cs.length) e := by
  unfold escape at h
  split at h
  · exact .inl (Complains.fail (Nat.le_refl _) e h)
  · rename_i c rest
    split at h
    · cases h
    · cases h
    · split at h
      · rename_i hc
        have hdigit : c.isDigit = true := by
          simp only [Char.isDigit, Bool.and_eq_true, decide_eq_true_eq]
          exact ⟨Nat.le_trans (by decide) hc.1, hc.2⟩
        obtain ⟨n, more, rfl, hpos, hlt, hcount, hcons⟩ := exists_of_backref_error hc.1 hdigit h
        rw [hcons]
        exact .inr ⟨_, rfl, .number hpos hlt hcount⟩
      · exact .inl ((complains_escapedChar.bind fun _ _ => .ok _) e h)

theorem complains_namedGroup (n : Nat) :
    Complains (position + cs.length) (namedGroup groups n position cs) :=
  complains_name.bind fun _ _ => .ok _

theorem complains_inlineFlags :
    Complains (position + cs.length) (inlineFlags groups position cs) := by
  have hflags : (cs.takeWhile isFlag).length ≤ cs.length := (List.takeWhile_sublist _).length_le
  unfold inlineFlags
  dsimp only
  split
  · exact .ok _
  · exact .ok _
  · exact .fail (by omega)

theorem faults_of_groupStart (h : groupStart groups position cs = .error e) :
    Faults groups '(' cs (position + cs.length) e := by
  have hplace : ∀ {α : Type} {limit : Nat} {x : Except PatternError α}, Complains limit x →
      limit ≤ position + cs.length → x = .error e →
      Faults groups '(' cs (position + cs.length) e :=
    fun hx hlimit he => .inl (hx.mono hlimit e he)
  unfold groupStart at h
  split at h
  case h_3 rest =>
    cases hname : name ')' [] 0 (position + 3) rest with
    | error e' =>
        rw [hname] at h
        cases h
        exact hplace complains_name (by simp only [List.length_cons]; omega) hname
    | ok q =>
        obtain ⟨w, more, rfl, hvalue, -, -⟩ := exists_of_name hname
        rw [hname] at h
        simp only [bind, Except.bind] at h
        split at h <;> cases h
        rename_i hlookup
        rw [List.reverse_nil, List.nil_append] at hvalue
        rw [hvalue] at hlookup ⊢
        exact .inr ⟨_, rfl, .name hlookup⟩
  case h_2 => exact hplace (complains_namedGroup _) (by simp only [List.length_cons]; omega) h
  case h_6 => exact hplace (complains_namedGroup _) (by simp only [List.length_cons]; omega) h
  case h_9 =>
    exact hplace (complains_comment.bind fun _ _ => .ok _)
      (by simp only [List.length_cons]; omega) h
  case h_10 =>
    exact hplace ((complains_nested 2).bind fun _ _ => .ok _)
      (by simp only [List.length_cons]; omega) h
  case h_11 => exact hplace complains_inlineFlags (by simp only [List.length_cons]; omega) h
  all_goals cases h

/-- A token that cannot be read is at fault at a place up to the end of the text, or refers to a
group that is not open. -/
theorem faults_of_token (h : token groups position c cs = .error e) :
    Faults groups c cs (position + 1 + cs.length) e := by
  unfold token at h
  dsimp only at h
  split at h
  case h_3 => exact faults_of_groupStart h
  case h_4 => exact .inl (complains_charClass.map e h)
  case h_8 =>
    cases hescape : escape groups (position + 1) cs with
    | error e' =>
        rw [hescape] at h
        cases h
        exact faults_of_escape hescape
    | ok q =>
        rw [hescape] at h
        cases h
  case h_12 => exact .inl (complains_braces.map e h)
  all_goals cases h

end References

/-! ## The machine -/

namespace Reader

variable {r r' : Reader} {ts : List Token}

/-- A machine that goes on has met no fault. -/
theorem not_fault_of_steps (h : ts.foldlM step r = .ok r') (e : PatternError) :
    .fault e ∉ ts := by
  induction ts generalizing r with
  | nil => exact List.not_mem_nil
  | cons t ts ih =>
      rw [List.foldlM_cons] at h
      obtain ⟨q, hq, h⟩ := bind_eq_ok.1 h
      rw [List.mem_cons, not_or]
      refine ⟨?_, ih h⟩
      rintro rfl
      cases hq

/-- A machine that stops names a place, or has met this fault. -/
theorem fault_of_steps {e : PatternError} (h : ts.foldlM step r = .error e) :
    (∃ place f, e = .at place f) ∨ .fault e ∈ ts := by
  induction ts generalizing r with
  | nil => cases h
  | cons t ts ih =>
      rw [List.foldlM_cons] at h
      rcases bind_eq_error.1 h with h | ⟨q, -, h⟩
      · cases t <;> simp only [step] at h
        case atom | bar | opening => cases h
        case quantifier | closing =>
          split at h <;> cases h
          exact .inl ⟨_, _, rfl⟩
        case fault =>
          cases h
          exact .inr List.mem_cons_self
      · exact (ih h).imp_right (List.mem_cons_of_mem _)

end Reader

theorem not_fault_of_parse {pattern : String} {c : Construct} (h : parse pattern = .ok c)
    (e : PatternError) : .fault e ∉ tokens pattern := by
  obtain ⟨r, hr, -⟩ := bind_eq_ok.1 h
  exact Reader.not_fault_of_steps hr e

theorem fault_of_parse_unknownGroup {pattern w : String}
    (h : parse pattern = .error (.unknownGroup w)) :
    .fault (.unknownGroup w) ∈ tokens pattern := by
  rcases bind_eq_error.1 h with h | ⟨r, -, h⟩
  · exact (Reader.fault_of_steps h).resolve_left (by rintro ⟨place, f, ⟨⟩⟩)
  · unfold Reader.finish at h
    split at h <;> cases h

end Specimen.Regex
