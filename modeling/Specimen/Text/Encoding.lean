/-!
# Encodings of text

Percent encoding writes every byte of the UTF-8 form as `%XX`, except ASCII
letters, digits and `-`, `_`, `.`, `~`. Base64 writes three bytes as four
characters and pads the last group with `=`.
-/

namespace Specimen.Text

/-- The bytes of a text in UTF-8. -/
def utf8 (s : String) : List UInt8 := s.toUTF8.toList

/-! ## Percent encoding -/

/-- Whether a byte stands for itself. -/
def isUnreserved (b : UInt8) : Bool :=
  let c := Char.ofNat b.toNat
  b < 128 && (c.isAlphanum || c = '-' || c = '_' || c = '.' || c = '~')

def upperHexDigit (n : Nat) : Char :=
  if n < 10 then Char.ofNat ('0'.toNat + n) else Char.ofNat ('A'.toNat + n - 10)

/-- A byte as two hexadecimal digits. -/
def upperHexByte (b : UInt8) : List Char :=
  [upperHexDigit (b.toNat / 16), upperHexDigit (b.toNat % 16)]

def percentByte (b : UInt8) : List Char :=
  if isUnreserved b then [Char.ofNat b.toNat] else '%' :: upperHexByte b

def percentEncode (s : String) : String := String.ofList ((utf8 s).flatMap percentByte)

/-! ## Base64 -/

/-- The character of six bits. -/
def base64Digit (n : Nat) : Char :=
  if n < 26 then Char.ofNat ('A'.toNat + n)
  else if n < 52 then Char.ofNat ('a'.toNat + (n - 26))
  else if n < 62 then Char.ofNat ('0'.toNat + (n - 52))
  else if n = 62 then '+'
  else '/'

/-- Groups of three bytes, four characters each. -/
def base64Groups : List UInt8 → List Char
  | a :: b :: c :: rest =>
    let n := a.toNat * 65536 + b.toNat * 256 + c.toNat
    base64Digit (n / 262144) :: base64Digit (n / 4096 % 64) :: base64Digit (n / 64 % 64) ::
      base64Digit (n % 64) :: base64Groups rest
  | [a, b] =>
    let n := a.toNat * 65536 + b.toNat * 256
    [base64Digit (n / 262144), base64Digit (n / 4096 % 64), base64Digit (n / 64 % 64), '=']
  | [a] =>
    let n := a.toNat * 65536
    [base64Digit (n / 262144), base64Digit (n / 4096 % 64), '=', '=']
  | [] => []

def base64Encode (s : String) : String := String.ofList (base64Groups (utf8 s))

/-! ## By name -/

inductive Encoding where
  | percent
  | base64
  deriving DecidableEq, Repr

def Encoding.ofName? : String → Option Encoding
  | "url" => some .percent
  | "base64" => some .base64
  | _ => none

def Encoding.apply : Encoding → String → String
  | .percent, s => percentEncode s
  | .base64, s => base64Encode s

end Specimen.Text
