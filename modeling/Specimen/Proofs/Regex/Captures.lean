import Specimen.Regex.Token
/-!
# Capturing parentheses

Which parentheses of a pattern capture, by its text alone: those that are neither escaped nor in
a class or a comment nor the test of a conditional, and that no question mark follows unless it
begins a name. `captures` lists them with their positions and names; it knows of a pattern only
where its escapes, classes, comments and tests are.
-/

namespace Specimen.Regex

structure Capture where
  position : Nat
  name : Option String
  deriving DecidableEq, Repr

/-- What the next character of a pattern is part of. -/
inductive Zone where
  | pattern
  | escape
  /-- The start of a conditional, up to the parenthesis of its test. -/
  | test
  | comment
  /-- The start of a class. -/
  | opened
  /-- The members of a class; a closing bracket that comes first is one of them. -/
  | members (first : Bool)
  | memberEscape
  deriving DecidableEq, Repr

namespace Zone

/-- What an opening parenthesis begins. -/
def afterParenthesis : List Char → Zone
  | '?' :: '#' :: _ => .comment
  | '?' :: '(' :: _ => .test
  | _ => .pattern

def nextMember (first : Bool) (c : Char) : Zone :=
  if c = '\\' then .memberEscape
  else if c = ']' ∧ ¬ first then .pattern
  else .members false

/-- Where the text `cs` after a character stands. -/
def next (c : Char) (cs : List Char) : Zone → Zone
  | .pattern =>
    if c = '\\' then .escape
    else if c = '[' then .opened
    else if c = '(' then afterParenthesis cs
    else .pattern
  | .escape => .pattern
  | .test => if c = '(' then .pattern else .test
  | .comment => if c = ')' then .pattern else .comment
  | .opened => if c = '^' then .members true else nextMember true c
  | .members first => nextMember first c
  | .memberEscape => .members false

end Zone

/-- The name of a group, after its opening bracket. -/
def groupName (cs : List Char) : String := String.ofList (cs.takeWhile (· ≠ '>'))

/-- Whether a parenthesis before this text captures, and the name that its group has then. -/
def captureName? : List Char → Option (Option String)
  | '?' :: 'P' :: '<' :: cs => some (some (groupName cs))
  | '?' :: '<' :: '=' :: _ => none
  | '?' :: '<' :: '!' :: _ => none
  | '?' :: '<' :: cs => some (some (groupName cs))
  | '?' :: _ => none
  | _ => some none

/-- The capture that a character of a pattern is, if it is one. -/
def Zone.capture? (position : Nat) (c : Char) (cs : List Char) : Zone → Option Capture
  | .pattern => if c = '(' then (captureName? cs).map fun name => ⟨position, name⟩ else none
  | _ => none

def capturesFrom : Zone → Nat → List Char → List Capture
  | _, _, [] => []
  | z, position, c :: cs =>
    (z.capture? position c cs).toList ++ capturesFrom (z.next c cs) (position + 1) cs

/-- The capturing parentheses of a pattern, in their order. -/
def captures (pattern : String) : List Capture := capturesFrom .pattern 0 pattern.toList

example : captures "(a)(?(1)(b)|[(]\\((?#()c)(?P<n>d)(?:e)(?<=f)" =
    [⟨0, none⟩, ⟨8, none⟩, ⟨24, some "n"⟩] := by decide +kernel

theorem position_of_capture? {z : Zone} {position : Nat} {c : Char} {cs : List Char}
    {k : Capture} (h : z.capture? position c cs = some k) : k.position = position := by
  cases z <;> simp only [Zone.capture?, reduceCtorEq] at h
  split at h
  · obtain ⟨name, -, rfl⟩ := Option.map_eq_some_iff.1 h
    rfl
  · cases h

theorem le_of_mem_capturesFrom {z : Zone} {position : Nat} {cs : List Char} {c : Capture}
    (h : c ∈ capturesFrom z position cs) : position ≤ c.position := by
  induction cs generalizing z position with
  | nil => cases h
  | cons d cs ih =>
      rcases List.mem_append.1 h with h | h
      · exact Nat.le_of_eq (position_of_capture? (Option.mem_toList.1 h)).symm
      · exact Nat.le_of_succ_le (ih h)

/-! ## Texts without captures -/

/-- A text leads from one zone to another and does not capture. -/
def Skips (z z' : Zone) (t more : List Char) : Prop :=
  ∀ position, capturesFrom z position (t ++ more) = capturesFrom z' (position + t.length) more

namespace Skips

variable {z z' z'' : Zone} {c : Char} {s t more : List Char}

theorem nil : Skips z z [] more := fun _ => rfl

theorem cons (hcapture : ∀ position, z.capture? position c (t ++ more) = none)
    (hnext : z.next c (t ++ more) = z') (h : Skips z' z'' t more) :
    Skips z z'' (c :: t) more := by
  intro position
  rw [List.cons_append, capturesFrom, hcapture, hnext, h, List.length_cons, Nat.add_assoc,
    Nat.add_comm 1]
  rfl

theorem append (hs : Skips z z' s (t ++ more)) (ht : Skips z' z'' t more) :
    Skips z z'' (s ++ t) more := by
  intro position
  rw [List.append_assoc, hs, ht, List.length_append, Nat.add_assoc]

/-- A character that is no sign for a zone. -/
theorem plain (h : ∀ c ∈ t, c ≠ '\\' ∧ c ≠ '[' ∧ c ≠ '(') : Skips .pattern .pattern t more := by
  induction t with
  | nil => exact .nil
  | cons c t ih =>
      obtain ⟨⟨hescape, hclass, hgroup⟩, ht⟩ := List.forall_mem_cons.1 h
      refine .cons (fun position => ?_) ?_ (ih ht)
      · simp [Zone.capture?, hgroup]
      · simp [Zone.next, hescape, hclass, hgroup]

theorem escape {d : Char} (h : Skips .pattern z'' t more) :
    Skips .pattern z'' ('\\' :: d :: t) more :=
  .cons (fun _ => rfl) rfl (.cons (fun _ => rfl) rfl h)

theorem memberEscape {first : Bool} {d : Char} (h : Skips (.members false) z'' t more) :
    Skips (.members first) z'' ('\\' :: d :: t) more :=
  .cons (fun _ => rfl) rfl (.cons (fun _ => rfl) rfl h)

theorem members (h : ∀ c ∈ t, c ≠ '\\' ∧ c ≠ ']') :
    Skips (.members false) (.members false) t more := by
  induction t with
  | nil => exact .nil
  | cons c t ih =>
      obtain ⟨⟨hescape, hclose⟩, ht⟩ := List.forall_mem_cons.1 h
      refine .cons (fun _ => rfl) ?_ (ih ht)
      simp [Zone.next, Zone.nextMember, hescape, hclose]

theorem comment (h : ∀ c ∈ t, c ≠ ')') : Skips .comment .comment t more := by
  induction t with
  | nil => exact .nil
  | cons c t ih =>
      obtain ⟨hclose, ht⟩ := List.forall_mem_cons.1 h
      exact .cons (fun _ => rfl) (by simp [Zone.next, hclose]) (ih ht)

end Skips

/-- The first `used` characters of a text lead from one zone to another and do not capture. -/
def Takes (z z' : Zone) (cs : List Char) (used : Nat) : Prop :=
  ∃ t more, cs = t ++ more ∧ t.length = used ∧ Skips z z' t more

theorem Takes.zero (z : Zone) (cs : List Char) : Takes z z cs 0 := ⟨[], cs, rfl, rfl, .nil⟩

theorem Takes.after {z z' z'' : Zone} {n : Nat} {s : List Char} (hs : Skips z z' s cs)
    (h : Takes z' z'' cs n) : Takes z z'' (s ++ cs) (s.length + n) := by
  obtain ⟨t, more, rfl, rfl, ht⟩ := h
  exact ⟨s ++ t, more, (List.append_assoc _ _ _).symm, List.length_append, hs.append ht⟩

theorem Takes.plain {z : Zone} {n : Nat} (s : List Char)
    (hs : ∀ c ∈ s, c ≠ '\\' ∧ c ≠ '[' ∧ c ≠ '(') (h : Takes .pattern z cs n) :
    Takes .pattern z (s ++ cs) (s.length + n) :=
  h.after (.plain hs)

theorem Takes.append {z z' z'' : Zone} {m n : Nat} (h : Takes z z' cs m)
    (h' : Takes z' z'' (cs.drop m) n) : Takes z z'' cs (m + n) := by
  obtain ⟨s, more, rfl, rfl, hs⟩ := h
  rw [List.drop_left] at h'
  exact h'.after hs

theorem Takes.cons {z z' z'' : Zone} {c : Char} {n : Nat}
    (hcapture : ∀ position, z.capture? position c cs = none) (hnext : z.next c cs = z')
    (h : Takes z' z'' cs n) : Takes z z'' (c :: cs) (n + 1) := by
  obtain ⟨t, more, rfl, rfl, ht⟩ := h
  exact ⟨c :: t, more, rfl, rfl, .cons hcapture hnext ht⟩


theorem Takes.le {z z' : Zone} {n : Nat} (h : Takes z z' cs n) : n ≤ cs.length := by
  obtain ⟨t, more, rfl, rfl, -⟩ := h
  rw [List.length_append]
  exact Nat.le_add_right _ _

theorem Takes.capturesFrom_eq {z z' : Zone} {n : Nat} (h : Takes z z' cs n) (position : Nat) :
    capturesFrom z position cs = capturesFrom z' (position + n) (cs.drop n) := by
  obtain ⟨t, more, rfl, rfl, ht⟩ := h
  rw [ht, List.drop_left]

end Specimen.Regex
