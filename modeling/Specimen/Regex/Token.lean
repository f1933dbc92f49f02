import Specimen.Regex.Construct
import Specimen.Text.Letter
/-!
# Tokens of regular expressions

A pattern is cut into atoms, quantifiers, bars and parentheses. Positions count characters
from the start of the pattern. A reader of a piece answers with the number of characters it
has used, and `tokensFrom` skips so many before the next token; where a piece cannot be read
the last token is the fault.
-/

namespace Specimen.Regex

/-- What is wrong at a position of a pattern. -/
inductive Fault where
  | unbalancedParenthesis
  | expected (c : Char)
  | leastAboveMost
  | nothingToRepeat
  | unterminatedComment
  | unterminatedGroup
  | badNameCharacter
  | missingName
  | escapeAtEnd
  | badEscape (c : Char)
  | incompleteHex
  | invalidCodePoint
  | unterminatedSet
  | badRange
  deriving DecidableEq, Repr

def Fault.message : Fault → String
  | unbalancedParenthesis => "unbalanced parenthesis"
  | expected c => s!"expected '{c}'"
  | leastAboveMost => "min repeat greater than max repeat"
  | nothingToRepeat => "nothing to repeat"
  | unterminatedComment => "missing ), unterminated comment"
  | unterminatedGroup => "unterminated group"
  | badNameCharacter => "bad character in group name"
  | missingName => "missing group name"
  | escapeAtEnd => "bad escape (end of pattern)"
  | badEscape c => s!"bad escape \\{c}"
  | incompleteHex => "incomplete hex escape"
  | invalidCodePoint => "invalid code point"
  | unterminatedSet => "unterminated character set"
  | badRange => "bad character range"

/-- Why a pattern has no construct tree. -/
inductive PatternError where
  | at (position : Nat) (fault : Fault)
  /-- A reference to a group that is not open before it. -/
  | unknownGroup (name : String)
  deriving DecidableEq, Repr

def PatternError.message : PatternError → String
  | .at position fault => s!"cannot parse regex at position {position}: {fault.message}"
  | .unknownGroup name => s!"unknown group reference '{name}'"

/-- What a parenthesis opens. -/
inductive Opening where
  | group (index : Option Nat)
  /-- A group whose body is read and left out. -/
  | look (k : Skipped)
  deriving DecidableEq, Repr

inductive Token where
  | atom (c : Construct)
  /-- A quantifier; `blame` is the position of the complaint if there is nothing to repeat. -/
  | quantifier (least : Nat) (most : Option Nat) (blame : Nat)
  | bar
  | opening (o : Opening)
  | closing (position : Nat)
  /-- Nothing after this can be read. -/
  | fault (e : PatternError)
  deriving Inhabited, Repr

/-- The capturing groups opened so far: their number, and the latest of each name first. -/
structure Groups where
  count : Nat := 0
  names : List (String × Nat) := []

/-- A piece of a pattern that was read, and the number of its characters. -/
structure Piece (α : Type) where
  value : α
  used : Nat

def Piece.map {α β : Type} (f : α → β) (p : Piece α) : Piece β := ⟨f p.value, p.used⟩

def fail {α : Type} (position : Nat) (f : Fault) : Except PatternError α :=
  .error (.at position f)

/-! ## Escapes -/

def hexDigit? (c : Char) : Option Nat :=
  if c.isDigit then some (c.toNat - '0'.toNat)
  else if 'a' ≤ c ∧ c ≤ 'f' then some (c.toNat - 'a'.toNat + 10)
  else if 'A' ≤ c ∧ c ≤ 'F' then some (c.toNat - 'A'.toNat + 10)
  else none

/-- The value of exactly `digits` hexadecimal digits. -/
def hexValue (position : Nat) : Nat → Nat → List Char → Except PatternError Nat
  | 0, value, _ => .ok value
  | _ + 1, _, [] => fail position .incompleteHex
  | digits + 1, value, c :: cs =>
    match hexDigit? c with
    | some d => hexValue (position + 1) digits (value * 16 + d) cs
    | none => fail (position + 1) .incompleteHex

/-- Whether a number is the code point of a character. -/
def isCodePoint (n : Nat) : Bool := n < 0xD800 || (0xDFFF < n && n < 0x110000)

/-- The character of a hexadecimal escape, whose letter counts as used. -/
def hexChar (position digits : Nat) (cs : List Char) : Except PatternError (Piece Char) := do
  let code ← hexValue position digits 0 cs
  if isCodePoint code then .ok ⟨Char.ofNat code, digits + 1⟩
  else fail (position + digits) .invalidCodePoint

/-- The character of an escape, after the backslash. -/
def escapedChar (position : Nat) : List Char → Except PatternError (Piece Char)
  | [] => fail position .escapeAtEnd
  | c :: cs =>
    match c with
    | 'n' => .ok ⟨'\n', 1⟩
    | 't' => .ok ⟨'\t', 1⟩
    | 'r' => .ok ⟨'\r', 1⟩
    | 'f' => .ok ⟨'\x0c', 1⟩
    | 'v' => .ok ⟨'\x0b', 1⟩
    | 'a' => .ok ⟨'\x07', 1⟩
    | 'b' => .ok ⟨'\x08', 1⟩
    | '0' => .ok ⟨'\x00', 1⟩
    | 'x' => hexChar (position + 1) 2 cs
    | 'u' => hexChar (position + 1) 4 cs
    | 'U' => hexChar (position + 1) 8 cs
    | c => if c.isAlphanum then fail position (.badEscape c) else .ok ⟨c, 1⟩

def category? : Char → Option Category
  | 'd' => some .digit
  | 'D' => some .notDigit
  | 'w' => some .word
  | 'W' => some .notWord
  | 's' => some .space
  | 'S' => some .notSpace
  | _ => none

def anchor? : Char → Option Anchor
  | 'b' => some .wordBoundary
  | 'B' => some .notWordBoundary
  | 'A' => some .start
  | 'Z' | 'z' => some .stop
  | _ => none

/-- A reference by number has one digit, or two if a second one follows. -/
def backref (groups : Groups) (c : Char) (cs : List Char) :
    Except PatternError (Piece Construct) :=
  let first := c.toNat - '0'.toNat
  let (index, used) := match cs with
    | d :: _ => if d.isDigit then (first * 10 + (d.toNat - '0'.toNat), 2) else (first, 1)
    | [] => (first, 1)
  if groups.count < index then .error (.unknownGroup (toString index))
  else .ok ⟨.backref index, used⟩

/-- The construct of an escape, after the backslash. -/
def escape (groups : Groups) (position : Nat) (cs : List Char) :
    Except PatternError (Piece Construct) :=
  match cs with
  | [] => fail position .escapeAtEnd
  | c :: rest =>
    match category? c, anchor? c with
    | some k, _ => .ok ⟨.charClass false [.category k], 1⟩
    | none, some a => .ok ⟨.anchor a, 1⟩
    | none, none =>
      if '1' ≤ c ∧ c ≤ '9' then backref groups c rest
      else do
        let ⟨c, used⟩ ← escapedChar position cs
        .ok ⟨.literal c, used⟩

/-! ## Classes -/

/-- The last character of a range, which may be an escape. -/
def rangeEndChar (position : Nat) : List Char → Except PatternError (Piece Char)
  | [] => fail position .unterminatedSet
  | '\\' :: cs => do
    let ⟨c, used⟩ ← escapedChar (position + 1) cs
    .ok ⟨c, used + 1⟩
  | c :: _ => .ok ⟨c, 1⟩

/-- The end of a range whose first character is `first`, after the hyphen. -/
def rangeEnd (first : Char) (position : Nat) (cs : List Char) :
    Except PatternError (Piece ClassItem) := do
  let ⟨last, used⟩ ← rangeEndChar position cs
  if last < first then fail (position + used) .badRange else .ok ⟨.range first last, used⟩

/-- Makes a range of a character if a hyphen and an end follow it. -/
def rangeFrom (first : Char) (used position : Nat) (cs : List Char) :
    Except PatternError (Piece ClassItem) :=
  match cs with
  | '-' :: d :: rest =>
    if d = ']' then .ok ⟨.char first, used⟩
    else do
      let ⟨item, more⟩ ← rangeEnd first (position + 1) (d :: rest)
      .ok ⟨item, used + 1 + more⟩
  | _ => .ok ⟨.char first, used⟩

/-- One member of a class: `c` is its first character, at `position`. -/
def classItem (position : Nat) (c : Char) (cs : List Char) :
    Except PatternError (Piece ClassItem) :=
  if c = '\\' then
    match cs.head?.bind category? with
    | some k => .ok ⟨.category k, 2⟩
    | none => do
      let ⟨d, used⟩ ← escapedChar (position + 1) cs
      rangeFrom d (used + 1) (position + used + 1) (cs.drop used)
  else rangeFrom c 1 (position + 1) cs

/--
The members of a class up to its closing bracket, after `skip` characters; a bracket that comes
first is a member. The second result counts all characters with the bracket.
-/
def classItems (first : Bool) (items : List ClassItem) (used : Nat) :
    Nat → Nat → List Char → Except PatternError (Piece (List ClassItem))
  | _, position, [] => fail position .unterminatedSet
  | skip + 1, position, _ :: cs => classItems first items (used + 1) skip (position + 1) cs
  | 0, position, c :: cs =>
    if c = ']' ∧ ¬ first then .ok ⟨items.reverse, used + 1⟩
    else
      match classItem position c cs with
      | .error e => .error e
      | .ok ⟨item, n⟩ => classItems false (item :: items) (used + 1) (n - 1) (position + 1) cs

/-- A class, after its opening bracket. Excluding a single character has a form of its own. -/
def charClass (position : Nat) (cs : List Char) : Except PatternError (Piece Construct) := do
  let negated := cs.head? == some '^'
  let sign := if negated then 1 else 0
  let ⟨items, used⟩ ← classItems true [] sign 0 (position + sign) (cs.drop sign)
  match negated, items with
  | true, [.char c] => .ok ⟨.notLiteral c, used⟩
  | _, _ => .ok ⟨.charClass negated items, used⟩

/-! ## Quantifiers -/

/-- A run of digits as a number; none and those above 64 bits count as no number. -/
def number? (ds : List Char) : Option Nat :=
  if ds.isEmpty then none
  else
    let n := ds.foldl (fun n c => n * 10 + (c.toNat - '0'.toNat)) 0
    if n < UInt64.size then some n else none

/-- The bounds in braces, after the opening one; none where the brace stands for itself. -/
def bounds? (cs : List Char) : Option ((Nat × Option Nat) × Nat) :=
  let low := cs.takeWhile Char.isDigit
  match cs.dropWhile Char.isDigit with
  | ',' :: rest =>
    let high := rest.takeWhile Char.isDigit
    match rest.dropWhile Char.isDigit with
    | '\x7d' :: _ =>
      some (((number? low).getD 0, number? high), low.length + high.length + 2)
    | _ => none
  | '\x7d' :: _ => (number? low).map fun n => ((n, some n), low.length + 1)
  | _ => none

/-- How many characters of a lazy or possessive suffix follow a quantifier. -/
def suffix (cs : List Char) : Nat :=
  match cs with
  | '?' :: _ => 1
  | '+' :: _ => 1
  | _ => 0

/-- A quantifier in braces or a brace that is a literal, after the brace at `position`. -/
def braces (position : Nat) (cs : List Char) : Except PatternError (Piece Token) :=
  match bounds? cs with
  | none => .ok ⟨.atom (.literal '\x7b'), 0⟩
  | some ((least, most), used) =>
    match most with
    | some m =>
      if m < least then fail (position + 1 + used) .leastAboveMost
      else .ok ⟨.quantifier least most (position + 1 + used), used + suffix (cs.drop used)⟩
    | none => .ok ⟨.quantifier least most (position + 1 + used), used + suffix (cs.drop used)⟩

/-! ## Groups -/

/-- A name and its terminator. -/
def name (terminator : Char) (acc : List Char) (used : Nat) : Nat → List Char →
    Except PatternError (Piece String)
  | position, [] => fail position .badNameCharacter
  | position, c :: cs =>
    if c = terminator then
      if acc.isEmpty then fail (position + 1) .missingName
      else .ok ⟨String.ofList acc.reverse, used + 1⟩
    else if Text.isAlphanumeric c ∨ c = '_' then
      name terminator (c :: acc) (used + 1) (position + 1) cs
    else fail (position + 1) .badNameCharacter

/-- The characters of a comment up to its parenthesis. -/
def comment (used : Nat) : Nat → List Char → Except PatternError (Piece Unit)
  | position, [] => fail position .unterminatedComment
  | position, c :: cs =>
    if c = ')' then .ok ⟨(), used + 1⟩ else comment (used + 1) (position + 1) cs

/-- The characters up to the parenthesis that closes the outermost of `depth` open groups. -/
def nested (depth used : Nat) : Nat → List Char → Except PatternError (Piece Unit)
  | position, [] => fail position .unterminatedGroup
  | position, ['\\'] => fail (position + 1) .unterminatedGroup
  | position, '\\' :: _ :: cs => nested depth (used + 2) (position + 2) cs
  | position, c :: cs =>
    if c = '(' then nested (depth + 1) (used + 1) (position + 1) cs
    else if c = ')' then
      if depth ≤ 1 then .ok ⟨(), used + 1⟩ else nested (depth - 1) (used + 1) (position + 1) cs
    else nested depth (used + 1) (position + 1) cs

def isFlag (c : Char) : Bool :=
  c = 'a' || c = 'i' || c = 'L' || c = 'm' || c = 's' || c = 'u' || c = 'x' || c = '-'

/-- A named group, after the name's opening bracket; `used` characters came before. -/
def namedGroup (groups : Groups) (used position : Nat) (cs : List Char) :
    Except PatternError (Piece (Token × Groups)) := do
  let ⟨n, more⟩ ← name '>' [] 0 position cs
  let index := groups.count + 1
  .ok ⟨(.opening (.group (some index)), ⟨index, (n, index) :: groups.names⟩), used + more⟩

/-- Inline flags: a group of their own, or the start of one. -/
def inlineFlags (groups : Groups) (position : Nat) (cs : List Char) :
    Except PatternError (Piece (Token × Groups)) :=
  let flags := (cs.takeWhile isFlag).length
  match cs.dropWhile isFlag with
  | ':' :: _ => .ok ⟨(.opening (.group none), groups), flags + 2⟩
  | ')' :: _ => .ok ⟨(.atom (.skipped .inlineFlags), groups), flags + 2⟩
  | _ => fail (position + flags) (.expected ')')

/-- What an opening parenthesis begins, after it; `position` is that of the next character. -/
def groupStart (groups : Groups) (position : Nat) (cs : List Char) :
    Except PatternError (Piece (Token × Groups)) :=
  match cs with
  | '?' :: ':' :: _ => .ok ⟨(.opening (.group none), groups), 2⟩
  | '?' :: 'P' :: '<' :: rest => namedGroup groups 3 (position + 3) rest
  | '?' :: 'P' :: '=' :: rest => do
    let ⟨n, used⟩ ← name ')' [] 0 (position + 3) rest
    match groups.names.lookup n with
    | some index => .ok ⟨(.atom (.backref index), groups), used + 3⟩
    | none => .error (.unknownGroup n)
  | '?' :: '<' :: '=' :: _ => .ok ⟨(.opening (.look .lookbehind), groups), 3⟩
  | '?' :: '<' :: '!' :: _ => .ok ⟨(.opening (.look .lookbehind), groups), 3⟩
  | '?' :: '<' :: rest => namedGroup groups 2 (position + 2) rest
  | '?' :: '=' :: _ => .ok ⟨(.opening (.look .lookahead), groups), 2⟩
  | '?' :: '!' :: _ => .ok ⟨(.opening (.look .lookahead), groups), 2⟩
  | '?' :: '#' :: rest => do
    let ⟨(), used⟩ ← comment 0 (position + 2) rest
    .ok ⟨(.atom (.skipped .comment), groups), used + 2⟩
  | '?' :: '(' :: rest => do
    let ⟨(), used⟩ ← nested 2 0 (position + 2) rest
    .ok ⟨(.atom (.skipped .conditional), groups), used + 2⟩
  | '?' :: rest => inlineFlags groups (position + 1) rest
  | _ =>
    let index := groups.count + 1
    .ok ⟨(.opening (.group (some index)), { groups with count := index }), 0⟩

/-! ## The tokens of a pattern -/

/-- The token that begins with `c` at `position`, and the groups open after it. -/
def token (groups : Groups) (position : Nat) (c : Char) (cs : List Char) :
    Except PatternError (Piece (Token × Groups)) :=
  let plain (t : Token) (used : Nat) : Except PatternError (Piece (Token × Groups)) :=
    .ok ⟨(t, groups), used⟩
  match c with
  | '|' => plain .bar 0
  | ')' => plain (.closing position) 0
  | '(' => groupStart groups (position + 1) cs
  | '[' => (charClass (position + 1) cs).map (·.map fun a => (.atom a, groups))
  | '.' => plain (.atom .any) 0
  | '^' => plain (.atom (.anchor .start)) 0
  | '$' => plain (.atom (.anchor .stop)) 0
  | '\\' => (escape groups (position + 1) cs).map (·.map fun a => (.atom a, groups))
  | '*' => plain (.quantifier 0 none position) (suffix cs)
  | '+' => plain (.quantifier 1 none position) (suffix cs)
  | '?' => plain (.quantifier 0 (some 1) position) (suffix cs)
  | '\x7b' => (braces position cs).map (·.map fun t => (t, groups))
  | c => plain (.atom (.literal c)) 0

/-- The tokens of the text at `position`, after `skip` characters. -/
def tokensFrom : Nat → Nat → Groups → List Char → List Token
  | _, _, _, [] => []
  | skip + 1, position, groups, _ :: cs => tokensFrom skip (position + 1) groups cs
  | 0, position, groups, c :: cs =>
    match token groups position c cs with
    | .error e => [.fault e]
    | .ok ⟨(t, groups), used⟩ => t :: tokensFrom used (position + 1) groups cs

def tokens (pattern : String) : List Token := tokensFrom 0 0 {} pattern.toList

end Specimen.Regex
