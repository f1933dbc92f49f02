import Mathlib.Algebra.GroupWithZero.Nat
import Specimen.Proofs.Regex.WellFormed
/-!
# Canonical texts of trees

Each construct tree has a canonical text, `Construct.text`: letters and the characters beyond
ASCII stand for themselves, digits are written in hexadecimal, and all other characters get a
backslash, so that no character is taken for part of the construct before it. A tree is canonical
(`Construct.IsCanonical`) if it has no more sequences, choices and empty parts than it needs and
its groups are numbered in the order in which they open.
-/

namespace Specimen.Regex

/-! ## Texts -/

/-- A character, in a class or outside. -/
def charText (c : Char) : List Char :=
  if c.isDigit then ['\\', 'x', '3', c]
  else if c.isAlpha ∨ 128 ≤ c.toNat then [c]
  else ['\\', c]

def Category.letter : Category → Char
  | digit => 'd'
  | notDigit => 'D'
  | word => 'w'
  | notWord => 'W'
  | space => 's'
  | notSpace => 'S'

def ClassItem.text : ClassItem → List Char
  | char c => charText c
  | range first last => charText first ++ '-' :: charText last
  | category k => ['\\', k.letter]

def classText (negated : Bool) (items : List ClassItem) : List Char :=
  '[' :: ((if negated then ['^'] else []) ++ items.flatMap ClassItem.text ++ [']'])

def Anchor.text : Anchor → List Char
  | start => ['^']
  | stop => ['$']
  | wordBoundary => ['\\', 'b']
  | notWordBoundary => ['\\', 'B']

def digits (n : Nat) : List Char := Nat.toDigits 10 n

def boundsText (least : Nat) (most : Option Nat) : List Char :=
  '\x7b' :: (digits least ++ ',' :: ((most.map digits).getD [] ++ ['\x7d']))

def openingText (index : Option Nat) : List Char :=
  match index with
  | some _ => ['(']
  | none => ['(', '?', ':']

namespace Construct

mutual

/-- The text of a construct. What is left out by the reader has none. -/
def render : Construct → List Char
  | .empty => []
  | .literal c => charText c
  | .notLiteral c => classText true [.char c]
  | .any => ['.']
  | .charClass negated items => classText negated items
  | .concat items => renderItems items
  | .alternation branches => renderBranches branches
  | .repetition least most body => render body ++ boundsText least most
  | .group index body => openingText index ++ (render body ++ [')'])
  | .backref index => '\\' :: digits index
  | .anchor a => a.text
  | .skipped _ => []

/-- One text after the other. -/
def renderItems : List Construct → List Char
  | [] => []
  | c :: cs => render c ++ renderItems cs

/-- The texts with bars between them. -/
def renderBranches : List Construct → List Char
  | [] => []
  | [c] => render c
  | c :: d :: cs => render c ++ '|' :: renderBranches (d :: cs)

end

/-- The canonical pattern of a tree. -/
def text (c : Construct) : String := String.ofList c.render

/-! ## Canonical trees -/

/-- Whether a construct can be an item of a sequence or be repeated. -/
def IsPiece : Construct → Prop
  | .empty | .concat _ | .alternation _ => False
  | _ => True

/-- Whether a construct can be a branch of a choice. -/
def IsBranch : Construct → Prop
  | .alternation _ => False
  | _ => True

/-- Whether a construct has its parts in the form in which the reader makes them. -/
def IsRegular : Construct → Prop
  | .concat items => 2 ≤ items.length ∧ ∀ c ∈ items, c.IsPiece
  | .alternation branches => 2 ≤ branches.length ∧ ∀ c ∈ branches, c.IsBranch
  | .repetition least most body =>
    body.IsPiece ∧ least < UInt64.size ∧ ∀ m ∈ most, least ≤ m ∧ m < UInt64.size
  | .charClass negated items =>
    items ≠ [] ∧ (∀ i ∈ items, i.IsOrdered) ∧ ∀ c, ¬ (negated = true ∧ items = [.char c])
  | .skipped _ => False
  | _ => True

/-- How many capturing groups a construct itself opens. -/
def captures : Construct → Nat
  | .group (some _) _ => 1
  | _ => 0

/-- Whether a group has the next number after so many, and a reference one that
is open and can be written. -/
def IsNumbered (opened : Nat) : Construct → Prop
  | .group (some i) _ => i = opened + 1
  | .backref i => 1 ≤ i ∧ i ≤ 99 ∧ i ≤ opened
  | _ => True

/-- Whether constructs, in the order in which they begin, are numbered after so many groups. -/
def AreNumbered : Nat → List Construct → Prop
  | _, [] => True
  | opened, c :: cs => c.IsNumbered opened ∧ AreNumbered (opened + c.captures) cs

/-- How many capturing groups some constructs open. -/
def capturesOf (cs : List Construct) : Nat := (cs.map captures).sum

/-- Whether a tree is what the reader makes of a text without constructs that it leaves out. -/
structure IsCanonical (c : Construct) : Prop where
  regular : c.Everywhere IsRegular
  numbered : AreNumbered 0 c.nodes

theorem areNumbered_append {opened : Nat} {cs ds : List Construct} :
    AreNumbered opened (cs ++ ds) ↔
      AreNumbered opened cs ∧ AreNumbered (opened + capturesOf cs) ds := by
  induction cs generalizing opened with
  | nil => simp [AreNumbered, capturesOf]
  | cons c cs ih =>
      simp only [List.cons_append, AreNumbered, ih, capturesOf, List.map_cons, List.sum_cons,
        and_assoc, Nat.add_assoc]

@[simp] theorem capturesOf_append (cs ds : List Construct) :
    capturesOf (cs ++ ds) = capturesOf cs + capturesOf ds := by
  simp [capturesOf]

@[simp] theorem capturesOf_cons (c : Construct) (cs : List Construct) :
    capturesOf (c :: cs) = c.captures + capturesOf cs := by
  simp [capturesOf]

theorem capturesOf_cons_of_zero {c : Construct} (h : c.captures = 0) (cs : List Construct) :
    capturesOf (c :: cs) = capturesOf cs := by
  rw [capturesOf_cons, h, Nat.zero_add]

@[simp] theorem capturesOf_nil : capturesOf [] = 0 := rfl

end Construct

/-! ## How texts begin -/

/-- The characters that can mean something besides themselves, in a class or outside. -/
def signs : List Char :=
  ['\\', '|', ')', '(', '[', '.', '^', '$', '*', '+', '?', '\x7b', ']', '-']

theorem not_mem_signs {c : Char} (h : c.isAlpha = true ∨ 128 ≤ c.toNat) : c ∉ signs := by
  intro hmem
  have hsigns : signs.all (fun d => !d.isAlpha && d.toNat < 128) = true := by decide
  have hc := List.all_eq_true.1 hsigns c hmem
  simp only [Bool.and_eq_true, Bool.not_eq_true', decide_eq_true_eq] at hc
  rcases h with h | h
  · rw [h] at hc
    cases hc.1
  · omega

/-- The three forms of a character: by itself, in hexadecimal, and after a backslash. -/
theorem charText_cases (c : Char) :
    (c.isDigit = false ∧ c ∉ signs ∧ charText c = [c]) ∨
      (c.isDigit = true ∧ charText c = ['\\', 'x', '3', c]) ∨
      (c.isAlphanum = false ∧ charText c = ['\\', c]) := by
  unfold charText
  by_cases hdigit : c.isDigit = true
  · exact .inr (.inl ⟨hdigit, if_pos hdigit⟩)
  rw [if_neg hdigit]
  by_cases hplain : c.isAlpha = true ∨ 128 ≤ c.toNat
  · exact .inl ⟨Bool.eq_false_iff.2 hdigit, not_mem_signs hplain, if_pos hplain⟩
  · refine .inr (.inr ⟨?_, if_neg hplain⟩)
    rw [not_or] at hplain
    simp [Char.isAlphanum, hplain.1, hdigit]

/-- Whether a text cannot be taken for more of a construct before it. -/
def Follows (cs : List Char) : Prop := ∀ c ∈ cs.head?, c.isDigit = false ∧ c ≠ '?' ∧ c ≠ '+'

theorem follows_nil : Follows [] := nofun

theorem follows_cons {c : Char} {cs : List Char} (h : c.isDigit = false ∧ c ≠ '?' ∧ c ≠ '+') :
    Follows (c :: cs) := by
  intro d hd
  cases hd
  exact h

theorem Follows.append {cs ds : List Char} (hcs : Follows cs) (hds : Follows ds) :
    Follows (cs ++ ds) := by
  cases cs with
  | nil => exact hds
  | cons c cs => exact hcs

theorem follows_charText (c : Char) : Follows (charText c) := by
  rcases charText_cases c with ⟨hdigit, hsign, h⟩ | ⟨-, h⟩ | ⟨-, h⟩ <;> rw [h]
  · refine follows_cons ⟨hdigit, ?_, ?_⟩ <;>
    · rintro rfl
      exact hsign (by decide)
  · exact follows_cons (by decide)
  · exact follows_cons (by decide)

namespace Construct

theorem follows_renderItems {cs : List Construct} (h : ∀ c ∈ cs, Follows c.render) :
    Follows (renderItems cs) := by
  induction cs with
  | nil => exact follows_nil
  | cons c cs ih =>
      rw [List.forall_mem_cons] at h
      exact h.1.append (ih h.2)

theorem follows_renderBranches {cs : List Construct} (h : ∀ c ∈ cs, Follows c.render) :
    Follows (renderBranches cs) := by
  match cs with
  | [] => exact follows_nil
  | [c] => exact h c List.mem_cons_self
  | c :: d :: cs => exact (h c List.mem_cons_self).append (follows_cons (by decide))

theorem follows_render (c : Construct) : Follows c.render := by
  induction c using induction_parts with
  | h c ih =>
      cases c with
      | empty => exact follows_nil
      | literal c => exact follows_charText c
      | notLiteral c => exact follows_cons (by decide)
      | any => exact follows_cons (by decide)
      | charClass negated items => exact follows_cons (by decide)
      | concat items => exact follows_renderItems ih
      | alternation branches => exact follows_renderBranches ih
      | repetition least most body =>
          exact (ih body List.mem_cons_self).append (follows_cons (by decide))
      | group index body => cases index <;> exact follows_cons (by decide)
      | backref index => exact follows_cons (by decide)
      | anchor a => cases a <;> exact follows_cons (by decide)
      | skipped k => exact follows_nil

end Construct

end Specimen.Regex
