import Specimen.Json.Basic
/-!
# Scalars of a configuration text

Quoted texts, numbers, truth values and moments of a TOML text. An integer is in the signed
64-bit range; a date or a time is an object that holds its text.
-/

namespace Specimen.Toml

/-- What a reader takes from the front of a text, and the rest of it. -/
abbrev Taken (α : Type) := Option (α × List Char)

/-! ## Quoted texts -/

/-- Whether a character may stand in a quoted text or a comment. -/
def isTextChar (c : Char) : Bool := c = '\t' || (' ' ≤ c && c ≠ '\x7f')

def isBlank (c : Char) : Bool := c = ' ' || c = '\t'

def hexValue? (c : Char) : Option Nat :=
  if c.isDigit then some (c.toNat - '0'.toNat)
  else if 'a' ≤ c ∧ c ≤ 'f' then some (c.toNat - 'a'.toNat + 10)
  else if 'A' ≤ c ∧ c ≤ 'F' then some (c.toNat - 'A'.toNat + 10)
  else none

/-- The character of a hexadecimal number. -/
def hexChar? (digits : List Char) : Option Char := do
  let n ← digits.foldlM (fun n c => (hexValue? c).map (n * 16 + ·)) 0
  if n.isValidChar then some (Char.ofNat n) else none

/-- The character that a letter behind a backslash stands for. -/
def escape? : Char → Option Char
  | 'b' => some '\x08'
  | 't' => some '\t'
  | 'n' => some '\n'
  | 'f' => some '\x0c'
  | 'r' => some '\r'
  | '"' => some '"'
  | '\\' => some '\\'
  | _ => none

/-- A text up to its closing quote; `acc` is what came before, reversed. -/
def basic (acc : List Char) : List Char → Taken String
  | [] => none
  | ['\\'] => none
  | '"' :: rest => some (String.ofList acc.reverse, rest)
  | '\\' :: 'u' :: a :: b :: c :: d :: rest =>
    match hexChar? [a, b, c, d] with
    | some x => basic (x :: acc) rest
    | none => none
  | '\\' :: 'U' :: a :: b :: c :: d :: e :: f :: g :: h :: rest =>
    match hexChar? [a, b, c, d, e, f, g, h] with
    | some x => basic (x :: acc) rest
    | none => none
  | '\\' :: c :: rest =>
    match escape? c with
    | some x => basic (x :: acc) rest
    | none => none
  | c :: rest => if isTextChar c then basic (c :: acc) rest else none

/-- A text up to its closing apostrophe, with nothing to escape. -/
def literal (acc : List Char) : List Char → Taken String
  | [] => none
  | '\'' :: rest => some (String.ofList acc.reverse, rest)
  | c :: rest => if isTextChar c then literal (c :: acc) rest else none

/-- Whether only blanks come before the end of the line. -/
def endsLine (cs : List Char) : Bool :=
  match cs.dropWhile isBlank with
  | '\n' :: _ | '\r' :: '\n' :: _ => true
  | _ => false

/--
A text on several lines up to its three closing quotes. A backslash at the end of a line takes
all blanks and line ends behind it away; `folding` says that this goes on.
-/
def basicLines (folding : Bool) (acc : List Char) : List Char → Taken String
  | [] => none
  | ['\\'] => none
  | '"' :: '"' :: '"' :: '"' :: '"' :: rest =>
    some (String.ofList ('"' :: '"' :: acc).reverse, rest)
  | '"' :: '"' :: '"' :: '"' :: rest => some (String.ofList ('"' :: acc).reverse, rest)
  | '"' :: '"' :: '"' :: rest => some (String.ofList acc.reverse, rest)
  | '\\' :: 'u' :: a :: b :: c :: d :: rest =>
    match hexChar? [a, b, c, d] with
    | some x => basicLines false (x :: acc) rest
    | none => none
  | '\\' :: 'U' :: a :: b :: c :: d :: e :: f :: g :: h :: rest =>
    match hexChar? [a, b, c, d, e, f, g, h] with
    | some x => basicLines false (x :: acc) rest
    | none => none
  | '\\' :: c :: rest =>
    match escape? c with
    | some x => basicLines false (x :: acc) rest
    | none => if endsLine (c :: rest) then basicLines true acc (c :: rest) else none
  | '\r' :: '\n' :: rest => basicLines folding (if folding then acc else '\n' :: acc) rest
  | '\n' :: rest => basicLines folding (if folding then acc else '\n' :: acc) rest
  | c :: rest =>
    if folding && isBlank c then basicLines true acc rest
    else if isTextChar c then basicLines false (c :: acc) rest
    else none

/-- A text on several lines up to its three closing apostrophes. -/
def literalLines (acc : List Char) : List Char → Taken String
  | [] => none
  | '\'' :: '\'' :: '\'' :: '\'' :: '\'' :: rest =>
    some (String.ofList ('\'' :: '\'' :: acc).reverse, rest)
  | '\'' :: '\'' :: '\'' :: '\'' :: rest => some (String.ofList ('\'' :: acc).reverse, rest)
  | '\'' :: '\'' :: '\'' :: rest => some (String.ofList acc.reverse, rest)
  | '\r' :: '\n' :: rest => literalLines ('\n' :: acc) rest
  | c :: rest => if c = '\n' || isTextChar c then literalLines (c :: acc) rest else none

/-- The text without a line end at its front. -/
def dropLineEnd : List Char → List Char
  | '\n' :: rest | '\r' :: '\n' :: rest => rest
  | cs => cs

/-- A text in quotes or apostrophes on one line. -/
def quotedLine? : List Char → Taken String
  | '"' :: rest => basic [] rest
  | '\'' :: rest => literal [] rest
  | _ => none

/-- A text in quotes or apostrophes. -/
def quoted? : List Char → Taken String
  | '"' :: '"' :: '"' :: rest => basicLines false [] (dropLineEnd rest)
  | '\'' :: '\'' :: '\'' :: rest => literalLines [] (dropLineEnd rest)
  | cs => quotedLine? cs

/-! ## Numbers -/

/-- The digits of a number, whose underscores stand between two of them. -/
def groups? (isDigit : Char → Bool) (cs : List Char) : Option (List Char) :=
  let parts := cs.splitOn '_'
  if parts.all fun p => !p.isEmpty && p.all isDigit then some parts.flatten else none

def natOf (base : Nat) (digits : List Char) : Nat :=
  digits.foldl (fun n c => n * base + (hexValue? c).getD 0) 0

/-- The sign of a number, and what follows it. -/
def signed : List Char → Bool × List Char
  | '-' :: cs => (true, cs)
  | '+' :: cs => (false, cs)
  | cs => (false, cs)

def applySign (isNegative : Bool) (n : Nat) : Int := if isNegative then -(n : Int) else n

/-- The digits of a decimal number without leading zeros. -/
def decimalDigits? (cs : List Char) : Option (List Char) :=
  match groups? Char.isDigit cs with
  | some ('0' :: _ :: _) => none
  | digits => digits

def fits64 (n : Int) : Option Json :=
  if -int64Limit ≤ n ∧ n < int64Limit then some (.int n) else none

/-- The digits of a base that a letter behind a zero names. -/
def basedInteger? (cs : List Char) : Option Json :=
  let read (base : Nat) (isDigit : Char → Bool) (cs : List Char) : Option Json :=
    (groups? isDigit cs).bind fun digits => fits64 (natOf base digits)
  match cs with
  | '0' :: 'x' :: rest => read 16 (fun c => (hexValue? c).isSome) rest
  | '0' :: 'o' :: rest => read 8 (fun c => '0' ≤ c && c ≤ '7') rest
  | '0' :: 'b' :: rest => read 2 (fun c => c = '0' || c = '1') rest
  | _ => none

def integer? (cs : List Char) : Option Json :=
  match basedInteger? cs with
  | some v => some v
  | none =>
    let (isNegative, body) := signed cs
    (decimalDigits? body).bind fun digits => fits64 (applySign isNegative (natOf 10 digits))

/-- The float nearest to `m * 10 ^ k`. One above all finite floats is refused. -/
def scaled? (isNegative : Bool) (m : Nat) (k : Int) : Option Json :=
  let size : Int := (Nat.toDigits 10 m).length + k
  let x : Float :=
    if m = 0 ∨ size < -400 then 0.0
    else if 400 < size then 1.0 / 0.0
    else Float.ofScientific m (k < 0) k.natAbs
  if isNegative then some (.float (-x))
  else if x.isFinite then some (.float x)
  else none

/-- The exponent behind the letter of a float. -/
def exponent? (cs : List Char) : Option Int :=
  let (isNegative, body) := signed cs
  (groups? Char.isDigit body).map fun digits => applySign isNegative (natOf 10 digits)

def float? (cs : List Char) : Option Json :=
  let (isNegative, body) := signed cs
  match body with
  | ['i', 'n', 'f'] => some (.float (if isNegative then -(1.0 / 0.0) else 1.0 / 0.0))
  | ['n', 'a', 'n'] => some (.float (0.0 / 0.0))
  | _ =>
    let isExponent (c : Char) : Bool := c = 'e' || c = 'E'
    let mantissa := body.takeWhile (!isExponent ·)
    let whole := mantissa.takeWhile (· ≠ '.')
    let exponent := match body.dropWhile (!isExponent ·) with
      | [] => some 0
      | _ :: rest => exponent? rest
    let fraction := match mantissa.dropWhile (· ≠ '.') with
      | [] => if mantissa.length = body.length then none else some []
      | _ :: rest => groups? Char.isDigit rest
    match decimalDigits? whole, fraction, exponent with
    | some w, some f, some e => scaled? isNegative (natOf 10 (w ++ f)) (e - f.length)
    | _, _, _ => none

/-! ## Moments -/

/-- The number of two digits. -/
def two? (a b : Char) : Option Nat :=
  if a.isDigit && b.isDigit then some (natOf 10 [a, b]) else none

def daysIn (year month : Nat) : Nat :=
  if month = 2 then
    if year % 4 = 0 ∧ (year % 100 ≠ 0 ∨ year % 400 = 0) then 29 else 28
  else if month = 4 ∨ month = 6 ∨ month = 9 ∨ month = 11 then 30
  else 31

/-- The text behind a date. -/
def afterDate? : List Char → Option (List Char)
  | a :: b :: c :: d :: '-' :: e :: f :: '-' :: g :: h :: rest => do
    let year := (← two? a b) * 100 + (← two? c d)
    let month ← two? e f
    let day ← two? g h
    if 1 ≤ month ∧ month ≤ 12 ∧ 1 ≤ day ∧ day ≤ daysIn year month then some rest else none
  | _ => none

/-- The text behind a time of the day. -/
def afterTime? : List Char → Option (List Char)
  | a :: b :: ':' :: c :: d :: ':' :: e :: f :: rest => do
    let hour ← two? a b
    let minute ← two? c d
    let second ← two? e f
    if 24 ≤ hour ∨ 60 ≤ minute ∨ 60 < second then none
    else
      match rest with
      | '.' :: g :: more => if g.isDigit then some (more.dropWhile Char.isDigit) else none
      | _ => some rest
  | _ => none

/-- Whether a text is the distance of a time zone, or empty. -/
def isOffset : List Char → Bool
  | [] | ['Z'] | ['z'] => true
  | [sign, a, b, ':', c, d] =>
    (sign = '+' || sign = '-') && (two? a b).any (· < 24) && (two? c d).any (· < 60)
  | _ => false

/-- Whether a text is a date, a time, or both. -/
def isMoment (cs : List Char) : Bool :=
  match afterDate? cs with
  | none => (afterTime? cs).any (·.isEmpty)
  | some [] => true
  | some (c :: rest) => (c = 'T' || c = 't' || c = ' ') && (afterTime? rest).any isOffset

/-! ## Words -/

/-- Whether a character may be part of a number, a truth value or a moment. -/
def isWordChar (c : Char) : Bool :=
  c.isAlphanum || c = '_' || c = '+' || c = '-' || c = '.' || c = ':'

/-- The value of a word. -/
def ofWord? (cs : List Char) : Option Json :=
  if cs = "true".toList then some (.bool true)
  else if cs = "false".toList then some (.bool false)
  else if isMoment cs then some (Json.ofFields [("moment", .str (String.ofList cs))])
  else
    match integer? cs with
    | some v => some v
    | none => float? cs

/-- A word at the front of a text; a blank may part a date from a time. -/
def word? (cs : List Char) : Taken Json :=
  let first := cs.takeWhile isWordChar
  let rest := cs.dropWhile isWordChar
  let long := first ++ ' ' :: (rest.drop 1).takeWhile isWordChar
  if rest.head? = some ' ' ∧ (afterDate? first).isSome ∧ isMoment long then
    (ofWord? long).map fun v => (v, (rest.drop 1).dropWhile isWordChar)
  else (ofWord? first).map fun v => (v, rest)

end Specimen.Toml
