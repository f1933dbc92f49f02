import Specimen.Json.Basic
/-!
# Lexemes of JSON text

The text is read one character at a time. `Scan` holds the lexeme that is open and
the tokens that are complete; `Scan.step` takes one character and answers none where
no continuation is JSON text.
-/

namespace Specimen.Json

/-- A lexeme of JSON text. -/
inductive Token where
  | openObject
  | closeObject
  | openArray
  | closeArray
  | colon
  | comma
  | scalar (v : Json)
  deriving Inhabited

/-! ## Numbers -/

/-- The powers of ten in binary64, up to the largest that is finite. -/
def powerOfTen (e : Nat) : Float := Float.ofScientific 1 false e

/-- Divides by powers of ten until the exponent is spent. -/
def scaleDown (x : Float) (e : Nat) : Float :=
  if h : 308 < e then
    if x == 0.0 then x else scaleDown (x / powerOfTen 308) (e - 308)
  else x / powerOfTen e
termination_by e
decreasing_by omega

/--
The float with a 64-bit significand and a power of ten: the significand is rounded to binary64
and then multiplied or divided once, so the result can be one step away from the nearest number.
A product that leaves the finite numbers has no value.
-/
def scale (significand : Nat) (exponent : Int) : Option Float :=
  let x := (UInt64.ofNat significand).toFloat
  if exponent < 0 then some (scaleDown x exponent.natAbs)
  else if 308 < exponent.natAbs then if x == 0.0 then some x else none
  else
    let y := x * powerOfTen exponent.natAbs
    if y.isInf then none else some y

/-- Digits gathered so far: as many as fit in 64 bits, and how many did not. -/
structure Digits where
  significand : Nat := 0
  kept : Nat := 0
  dropped : Nat := 0

/-- Takes a digit while the significand stays below 2^64; after the
first refusal none is taken. -/
def Digits.push (d : Digits) (c : Char) : Digits :=
  let next := d.significand * 10 + (c.toNat - '0'.toNat)
  if d.dropped = 0 ∧ next < UInt64.size then { d with significand := next, kept := d.kept + 1 }
  else { d with dropped := d.dropped + 1 }

/-- The digits at the front of a text, and the rest. -/
def spanDigits (cs : List Char) : List Char × List Char :=
  (cs.takeWhile Char.isDigit, cs.dropWhile Char.isDigit)

def negateIf (negative : Bool) (x : Float) : Float := if negative then -x else x

/-- The exponent's value, none where it passes the signed 32-bit range. -/
def exponentOf (ds : List Char) : Option Int :=
  let n := ds.foldl (fun n c => n * 10 + (c.toNat - '0'.toNat)) 0
  if n < 0x80000000 then some n else none

/-- The optional exponent of a number and, with it, the float. -/
def readExponent (negative : Bool) (significand : Nat) (exponent : Int) :
    List Char → Option Json
  | [] => (scale significand exponent).map fun x => .float (negateIf negative x)
  | c :: rest =>
    if c = 'e' ∨ c = 'E' then
      let (down, ds) := match rest with
        | '+' :: ds => (false, ds)
        | '-' :: ds => (true, ds)
        | ds => (false, ds)
      if ds.isEmpty ∨ ¬ ds.all Char.isDigit then none
      else
        match exponentOf ds with
        | none =>
          if significand ≠ 0 ∧ ¬ down then none else some (.float (negateIf negative 0.0))
        | some e =>
          let e := if down then exponent - e else exponent + e
          (scale significand e).map fun x => .float (negateIf negative x)
    else none

/--
Reads the text of a number. Without fraction and exponent it is an integer if it fits in 64 bits,
signed or unsigned; all else is a float, and so is a negative zero.
-/
def readNumber (cs : List Char) : Option Json :=
  let (negative, cs) := match cs with
    | '-' :: rest => (true, rest)
    | _ => (false, cs)
  let (ds, rest) := spanDigits cs
  if ds.isEmpty ∨ (ds.head? = some '0' ∧ 1 < ds.length) then none
  else
    let whole := ds.foldl Digits.push {}
    match rest with
    | [] =>
      if whole.dropped = 0 then
        if ¬ negative then some (.int whole.significand)
        else if whole.significand = 0 ∨ int64Limit < whole.significand then
          some (.float (-(UInt64.ofNat whole.significand).toFloat))
        else some (.int (-(whole.significand : Int)))
      else
        (scale whole.significand whole.dropped).map fun x => .float (negateIf negative x)
    | '.' :: rest =>
      let (fs, rest) := spanDigits rest
      if fs.isEmpty then none
      else
        let all := fs.foldl Digits.push { significand := whole.significand }
        readExponent negative all.significand (whole.dropped - all.kept) rest
    | rest => readExponent negative whole.significand whole.dropped rest

/-! ## Words -/

def readWord : List Char → Option Json
  | ['n', 'u', 'l', 'l'] => some .null
  | ['t', 'r', 'u', 'e'] => some (.bool true)
  | ['f', 'a', 'l', 's', 'e'] => some (.bool false)
  | _ => none

/-! ## The scanner -/

/-- The lexeme that is open between two characters. Texts are kept in reverse. -/
inductive Lexeme where
  | none
  | number (text : List Char)
  | word (text : List Char)
  | text (acc : List Char)
  /-- After a backslash. -/
  | escape (acc : List Char)
  /-- Inside four hexadecimal digits; `high` is the half of a pair already read. -/
  | unit (acc : List Char) (high : Option Nat) (digits : Nat) (value : Nat)
  /-- After the first half of a pair, before the backslash of the second. -/
  | pairBackslash (acc : List Char) (high : Nat)
  /-- After that backslash. -/
  | pairLetter (acc : List Char) (high : Nat)
  deriving Inhabited

/-- The open lexeme and the complete tokens, the last one first. -/
structure Scan where
  lexeme : Lexeme := .none
  tokens : List Token := []

def hexValue (c : Char) : Option Nat :=
  if c.isDigit then some (c.toNat - '0'.toNat)
  else if 'a' ≤ c ∧ c ≤ 'f' then some (c.toNat - 'a'.toNat + 10)
  else if 'A' ≤ c ∧ c ≤ 'F' then some (c.toNat - 'A'.toNat + 10)
  else none

def isBlank (c : Char) : Bool := c = ' ' ∨ c = '\n' ∨ c = '\t' ∨ c = '\r'

def isNumberChar (c : Char) : Bool :=
  c.isDigit ∨ c = '-' ∨ c = '+' ∨ c = '.' ∨ c = 'e' ∨ c = 'E'

/-- A character that opens a lexeme or is one. -/
def Scan.start (s : Scan) (c : Char) : Option Scan :=
  let punctuation (t : Token) : Option Scan := some ⟨.none, t :: s.tokens⟩
  match c with
  | '\x7b' => punctuation .openObject
  | '\x7d' => punctuation .closeObject
  | '[' => punctuation .openArray
  | ']' => punctuation .closeArray
  | ':' => punctuation .colon
  | ',' => punctuation .comma
  | '"' => some { s with lexeme := .text [] }
  | c =>
    if isBlank c then some { s with lexeme := .none }
    else if c.isDigit ∨ c = '-' then some { s with lexeme := .number [c] }
    else if c.isAlpha then some { s with lexeme := .word [c] }
    else none

/-- The character that a one-letter escape stands for. -/
def escaped? : Char → Option Char
  | '"' => some '"'
  | '\\' => some '\\'
  | '/' => some '/'
  | 'b' => some '\x08'
  | 'f' => some '\x0c'
  | 'n' => some '\n'
  | 'r' => some '\r'
  | 't' => some '\t'
  | _ => none

/-- Ends a group of four hexadecimal digits: half of a pair must meet its other half. -/
def endUnit (acc : List Char) (high : Option Nat) (value : Nat) : Option Lexeme :=
  match high with
  | some h =>
    if 0xDC00 ≤ value ∧ value ≤ 0xDFFF then
      some (.text (Char.ofNat (0x10000 + (h - 0xD800) * 0x400 + (value - 0xDC00)) :: acc))
    else none
  | none =>
    if 0xDC00 ≤ value ∧ value ≤ 0xDFFF then none
    else if 0xD800 ≤ value ∧ value ≤ 0xDBFF then some (.pairBackslash acc value)
    else some (.text (Char.ofNat value :: acc))

def Scan.step (s : Scan) (c : Char) : Option Scan :=
  match s.lexeme with
  | .none => s.start c
  | .number text =>
    if isNumberChar c then some { s with lexeme := .number (c :: text) }
    else
      match readNumber text.reverse with
      | some v => Scan.start ⟨.none, .scalar v :: s.tokens⟩ c
      | none => none
  | .word text =>
    if c.isAlpha then some { s with lexeme := .word (c :: text) }
    else
      match readWord text.reverse with
      | some v => Scan.start ⟨.none, .scalar v :: s.tokens⟩ c
      | none => none
  | .text acc =>
    if c = '"' then some ⟨.none, .scalar (.str (String.ofList acc.reverse)) :: s.tokens⟩
    else if c = '\\' then some { s with lexeme := .escape acc }
    else if c < ' ' then none
    else some { s with lexeme := .text (c :: acc) }
  | .escape acc =>
    if c = 'u' then some { s with lexeme := .unit acc none 4 0 }
    else (escaped? c).map fun d => { s with lexeme := .text (d :: acc) }
  | .unit acc high digits value =>
    match hexValue c with
    | none => none
    | some d =>
      let value := value * 16 + d
      if digits ≤ 1 then (endUnit acc high value).map fun l => { s with lexeme := l }
      else some { s with lexeme := .unit acc high (digits - 1) value }
  | .pairBackslash acc high =>
    if c = '\\' then some { s with lexeme := .pairLetter acc high } else none
  | .pairLetter acc high =>
    if c = 'u' then some { s with lexeme := .unit acc (some high) 4 0 } else none

/-- The tokens of a text, none where it holds something else. -/
def tokens? (text : String) : Option (List Token) :=
  match text.foldl (fun s c => s.bind (·.step c)) (some ({} : Scan)) with
  | none => none
  | some s =>
    match s.step '\n' with
    | some ⟨.none, ts⟩ => some ts.reverse
    | _ => none

end Specimen.Json
