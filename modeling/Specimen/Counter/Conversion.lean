import Specimen.Text.DecimalDigit
import Specimen.Decimal.Integer
import Specimen.Decimal.Shortest
/-!
# Counter patterns

A counter pattern is a text with one conversion, a percent sign followed by flags, a width, a
precision and a letter; a doubled percent sign stands for one. `Counter.pieces` cuts a pattern at
its conversions, `Conversion.render` writes a counter in the form of one, and `Counter.format`
puts the two together.
-/

namespace Specimen.Counter

/-- How a conversion writes the counter. -/
inductive Form where
  | decimal
  | octal
  | hexLower
  | hexUpper
  /-- With digits after a point. -/
  | fixed
  /-- As the character of that code. -/
  | character
  /-- As text, cut to the precision. -/
  | text
  deriving DecidableEq, Repr

/-- A conversion with its flags. -/
structure Conversion where
  left : Bool := false
  zero : Bool := false
  alternate : Bool := false
  plus : Bool := false
  blank : Bool := false
  width : Nat := 0
  precision : Option Nat := none
  form : Form
  deriving DecidableEq, Repr

/-- A piece of a pattern. -/
inductive Piece where
  | char (c : Char)
  /-- A doubled percent sign. -/
  | percent
  | conversion (k : Conversion)
  deriving DecidableEq, Repr

/-! ## Cutting a pattern -/

def isFlag (c : Char) : Bool := c = '-' ∨ c = '+' ∨ c = ' ' ∨ c = '0' ∨ c = '#'

def Form.ofLetter? : Char → Option Form
  | 'd' | 'i' | 'u' => some .decimal
  | 'o' => some .octal
  | 'x' => some .hexLower
  | 'X' => some .hexUpper
  | 'f' | 'F' => some .fixed
  | 'c' => some .character
  | 'r' | 's' => some .text
  | _ => none

/-- The value of a run of ASCII digits below 2^64; other runs have none. -/
def digitsValue? (ds : List Char) : Option Nat :=
  if ds.isEmpty ∨ ¬ ds.all Char.isDigit then none
  else
    let n := ds.foldl (fun n c => n * 10 + (c.toNat - '0'.toNat)) 0
    if n < UInt64.size then some n else none

/-- The precision after a width, and the rest; a point without digits is none. -/
def precisionOf (cs : List Char) : List Char × List Char :=
  match cs with
  | '.' :: rest =>
    if (rest.takeWhile Text.isDecimalDigit).isEmpty then ([], cs)
    else (rest.takeWhile Text.isDecimalDigit, rest.dropWhile Text.isDecimalDigit)
  | cs => ([], cs)

/--
The conversion after a percent sign, with the number of characters it takes. Digits of any script
fill the places of width and precision, but only ASCII digits count as a number.
-/
def conversionAt (cs : List Char) : Option (Piece × Nat) :=
  let flags := cs.takeWhile isFlag
  let afterFlags := cs.dropWhile isFlag
  let width := afterFlags.takeWhile Text.isDecimalDigit
  let afterWidth := afterFlags.dropWhile Text.isDecimalDigit
  let (precision, rest) := precisionOf afterWidth
  match rest with
  | [] => none
  | letter :: rest =>
    let used := cs.length - rest.length
    if letter = '%' then some (.percent, used)
    else
      (Form.ofLetter? letter).map fun form =>
        (.conversion
          { left := flags.contains '-'
            zero := flags.contains '0' && !flags.contains '-'
            alternate := flags.contains '#'
            plus := flags.contains '+'
            blank := flags.contains ' ' && !flags.contains '+'
            width := (digitsValue? width).getD 0
            precision := digitsValue? precision
            form := form }, used)

/-- The pieces of a pattern after `skip` characters. -/
def piecesAfter : Nat → List Char → List Piece
  | _, [] => []
  | skip + 1, _ :: cs => piecesAfter skip cs
  | 0, c :: cs =>
    if c = '%' then
      match conversionAt cs with
      | some (piece, used) => piece :: piecesAfter used cs
      | none => .char c :: piecesAfter 0 cs
    else .char c :: piecesAfter 0 cs

/-- The pieces of a pattern, from left to right; a percent sign that
begins none is a character. -/
def pieces (pattern : String) : List Piece := piecesAfter 0 pattern.toList

/-! ## Writing a counter -/

/-- The sign and radix before the digits. -/
def Conversion.lead (k : Conversion) : String :=
  let sign := if k.plus then "+" else if k.blank then " " else ""
  match k.form with
  | .decimal | .fixed => sign
  | .octal => sign ++ if k.alternate then "0o" else ""
  | .hexLower => sign ++ if k.alternate then "0x" else ""
  | .hexUpper => sign ++ if k.alternate then "0X" else ""
  | .character | .text => ""

/-- Zeros on the left up to a number of digits. -/
def atLeast (digits : Option Nat) (text : String) : String :=
  Decimal.zeros (digits.getD 0 - text.length) ++ text

def radixText (base n : Nat) : String := String.ofList (Nat.toDigits base n)

/-- How many places after a point a conversion asks for. -/
def Conversion.places (k : Conversion) : Nat := k.precision.getD 6

/-- The most places after a point that can be written. -/
def maxPlaces : Nat := UInt16.size - 1

/-- A counter as the nearest binary64 number, written with so many zeros after a point. -/
def fixedText (places n : Nat) : String :=
  let whole := (Decimal.Binary.ofFloat (UInt64.ofNat n).toFloat).nat?.getD 0
  radixText 10 whole ++ if places = 0 then "" else "." ++ Decimal.zeros places

/-- Whether a number is the code of a character. -/
def charOf? (n : Nat) : Option Char :=
  if n < 0xD800 ∨ (0xDFFF < n ∧ n < 0x110000) then some (Char.ofNat n) else none

/-- What stands after the lead; a counter that is no character has no such text, and neither has
one with too many places after its point. -/
def Conversion.body? (k : Conversion) (n : Nat) : Option String :=
  match k.form with
  | .decimal => some (atLeast k.precision (radixText 10 n))
  | .octal => some (atLeast k.precision (radixText 8 n))
  | .hexLower => some (atLeast k.precision (radixText 16 n))
  | .hexUpper => some (atLeast k.precision (radixText 16 n).toUpper)
  | .fixed => if k.places ≤ maxPlaces then some (fixedText k.places n) else none
  | .character => (charOf? n).map Char.toString
  | .text =>
    match k.precision with
    | none => some (radixText 10 n)
    | some limit => some (String.ofList ((radixText 10 n).toList.take limit))

def Form.isNumeric : Form → Bool
  | .character | .text => false
  | _ => true

def blanks (n : Nat) : String := String.ofList (List.replicate n ' ')

/-- The text of a counter: lead and body, padded to the width on the side that the flags say. -/
def Conversion.render? (k : Conversion) (n : Nat) : Option String :=
  (k.body? n).map fun body =>
    let gap := k.width - (k.lead.length + body.length)
    if k.left then k.lead ++ body ++ blanks gap
    else if k.zero && k.form.isNumeric then k.lead ++ Decimal.zeros gap ++ body
    else blanks gap ++ k.lead ++ body

/-! ## Formatting -/

/-- Why a counter cannot be formatted. -/
inductive Error where
  | conversionCount (pattern : String) (found : Nat)
  | notCharacter (pattern : String) (counter : Nat)
  deriving DecidableEq, Repr

def Error.message : Error → String
  | .conversionCount pattern found =>
    s!"pattern '{pattern}' must contain exactly one conversion, found {found}"
  | .notCharacter pattern counter => s!"counter {counter} is not a character in '{pattern}'"

def Piece.isConversion : Piece → Bool
  | .conversion _ => true
  | _ => false

/-- The text of one piece. -/
def Piece.render? (n : Nat) : Piece → Option String
  | .char c => some c.toString
  | .percent => some "%"
  | .conversion k => k.render? n

/-- The complaint about a piece without a text. Too many places are no cause for one. -/
def Piece.complaint? (pattern : String) (n : Nat) : Piece → Option Error
  | .conversion k => if k.form = .character then some (.notCharacter pattern n) else none
  | _ => none

/--
Formats a counter into a pattern with exactly one conversion. The first piece without a text ends
this with its complaint, and where it has none, formatting does not return.
-/
def format (pattern : String) (n : Nat) : Option (Except Error String) :=
  let ps := pieces pattern
  match ps.find? fun p => (p.render? n).isNone with
  | some p => (p.complaint? pattern n).map .error
  | none =>
    let found := ps.countP Piece.isConversion
    some (if found = 1 then .ok (String.join (ps.filterMap (Piece.render? n)))
      else .error (.conversionCount pattern found))

end Specimen.Counter
