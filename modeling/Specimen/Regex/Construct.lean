/-!
# Regex construct trees

The tree of a regular expression as the synthesizer walks it. Constructs that have no text of
their own to make (lookaround, comments, conditionals, inline flags) are kept as `skipped`.
-/

namespace Specimen.Regex

/-- The shorthand classes, restricted to ASCII. -/
inductive Category where
  | digit
  | notDigit
  | word
  | notWord
  | space
  | notSpace
  deriving DecidableEq, Repr

/-- ASCII letters, digits and the underscore. -/
def isWordChar (c : Char) : Bool := c.isAlphanum || c = '_'

/-- The six blanks of ASCII. -/
def isSpaceChar (c : Char) : Bool :=
  c = ' ' || c = '\t' || c = '\n' || c = '\r' || c = '\x0b' || c = '\x0c'

namespace Category

def has (k : Category) (c : Char) : Bool :=
  match k with
  | digit => c.isDigit
  | notDigit => !c.isDigit
  | word => isWordChar c
  | notWord => !isWordChar c
  | space => isSpaceChar c
  | notSpace => !isSpaceChar c

end Category

/-- A member of a character class. -/
inductive ClassItem where
  | char (c : Char)
  | range (first last : Char)
  | category (k : Category)
  deriving DecidableEq, Repr

namespace ClassItem

def has (i : ClassItem) (c : Char) : Bool :=
  match i with
  | char d => d = c
  | range first last => first ≤ c && c ≤ last
  | category k => k.has c

end ClassItem

inductive Anchor where
  | start
  | stop
  | wordBoundary
  | notWordBoundary
  deriving DecidableEq, Repr

/-- A kind of construct that is read and then left out. -/
inductive Skipped where
  | lookahead
  | lookbehind
  | comment
  | conditional
  | inlineFlags
  deriving DecidableEq, Repr

/-- A construct tree. -/
inductive Construct where
  | empty
  | literal (c : Char)
  /-- One character other than `c`. -/
  | notLiteral (c : Char)
  | any
  | charClass (negated : Bool) (items : List ClassItem)
  | concat (items : List Construct)
  | alternation (branches : List Construct)
  /-- From `least` to `most` copies of the body, or any number from `least` on. -/
  | repetition (least : Nat) (most : Option Nat) (body : Construct)
  /-- A group; one with an index captures its text. -/
  | group (index : Option Nat) (body : Construct)
  | backref (index : Nat)
  | anchor (a : Anchor)
  | skipped (k : Skipped)
  deriving Inhabited, Repr

namespace Construct

/-- The sequence of some constructs: none is the empty one, and a single one stands alone. -/
def sequence : List Construct → Construct
  | [] => .empty
  | [c] => c
  | cs => .concat cs

/-- The choice between some constructs; a single one stands alone. -/
def choice : List Construct → Construct
  | [c] => c
  | cs => .alternation cs

end Construct

end Specimen.Regex
