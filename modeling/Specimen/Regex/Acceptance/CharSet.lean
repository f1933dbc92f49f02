import Specimen.Text.WordChar
import Specimen.Text.Blank
import Specimen.Text.CaseFold
/-!
# Sets of characters

A class of the acceptance dialect is built from characters, ranges and named sets by union,
intersection, difference and complement. Up to case a set holds a character when it holds one
that differs in case only; complements are taken after that.
-/

namespace Specimen.Regex.Acceptance

/-- The named sets of ASCII characters. -/
inductive AsciiName where
  | alnum
  | alpha
  | ascii
  | blank
  | cntrl
  | digit
  | graph
  | lower
  | print
  | punct
  | space
  | upper
  | word
  | xdigit
  deriving DecidableEq, Repr

namespace AsciiName

def ofString? : String → Option AsciiName
  | "alnum" => some alnum
  | "alpha" => some alpha
  | "ascii" => some ascii
  | "blank" => some blank
  | "cntrl" => some cntrl
  | "digit" => some digit
  | "graph" => some graph
  | "lower" => some lower
  | "print" => some print
  | "punct" => some punct
  | "space" => some space
  | "upper" => some upper
  | "word" => some word
  | "xdigit" => some xdigit
  | _ => none

def isGraph (c : Char) : Bool := '!' ≤ c && c ≤ '~'

def has (n : AsciiName) (c : Char) : Bool :=
  match n with
  | alnum => c.isAlphanum
  | alpha => c.isAlpha
  | ascii => c.toNat < 128
  | blank => c = ' ' || c = '\t'
  | cntrl => c.toNat < 32 || c.toNat = 127
  | digit => c.isDigit
  | graph => isGraph c
  | lower => c.isLower
  | print => c = ' ' || isGraph c
  | punct => isGraph c && !c.isAlphanum
  | space => c = ' ' || ('\t' ≤ c && c ≤ '\r')
  | upper => c.isUpper
  | word => c.isAlphanum || c = '_'
  | xdigit => c.isDigit || ('a' ≤ c && c ≤ 'f') || ('A' ≤ c && c ≤ 'F')

end AsciiName

/-- How two operands of a class are combined. -/
inductive SetOp where
  | intersection
  | difference
  | symmetricDifference
  deriving DecidableEq, Repr

def SetOp.apply : SetOp → Bool → Bool → Bool
  | intersection, a, b => a && b
  | difference, a, b => a && !b
  | symmetricDifference, a, b => a != b

/-- A set of characters. -/
inductive CharSet where
  | char (c : Char)
  | range (first last : Char)
  | digit
  | space
  | word
  | named (n : AsciiName)
  | union (sets : List CharSet)
  | combine (op : SetOp) (left right : CharSet)
  | complement (s : CharSet)
  deriving Inhabited, Repr

namespace CharSet

mutual

/-- Membership; with `fold`, up to case. -/
def has (fold : Bool) : CharSet → Char → Bool
  | .char d, c => if fold then Text.sameFold d c else d = c
  | .range first last, c =>
    if fold then (Text.foldClass c).any fun d => first ≤ d && d ≤ last else first ≤ c && c ≤ last
  | .digit, c => Text.isDecimalDigit c
  | .space, c => Text.isBlank c
  | .word, c => Text.isWordChar c
  | .named n, c => if fold then (Text.foldClass c).any n.has else n.has c
  | .union sets, c => anyHas fold sets c
  | .combine op left right, c => op.apply (has fold left c) (has fold right c)
  | .complement s, c => !has fold s c

def anyHas (fold : Bool) : List CharSet → Char → Bool
  | [], _ => false
  | s :: rest, c => has fold s c || anyHas fold rest c

end

end CharSet

end Specimen.Regex.Acceptance
