/-!
# Named alphabets

The alphabets that a text can be drawn from by name.
-/

namespace Specimen.Text

def lowercase : String := "abcdefghijklmnopqrstuvwxyz"

def uppercase : String := "ABCDEFGHIJKLMNOPQRSTUVWXYZ"

def digits : String := "0123456789"

def punctuation : String := "!\"#$%&'()*+,-./:;<=>?@[\\]^_\x60\x7b|\x7d~"

def whitespace : String := " \t\n\r\x0b\x0c"

def letters : String := lowercase ++ uppercase

/-- The letters and the underscore: what a text is drawn from unless
its description says else. -/
def defaultAlphabet : String := letters ++ "_"

/-- The alphabet of a name. -/
def namedAlphabet? : String → Option String
  | "ascii_letters" => some letters
  | "ascii_lowercase" => some lowercase
  | "ascii_uppercase" => some uppercase
  | "ascii_letters_" => some defaultAlphabet
  | "digits" => some digits
  | "hexdigits" => some (digits ++ "abcdefABCDEF")
  | "octdigits" => some "01234567"
  | "printable" => some (digits ++ letters ++ punctuation ++ whitespace)
  | "punctuation" => some punctuation
  | "whitespace" => some whitespace
  | _ => none

end Specimen.Text
