import Specimen.Regex.Acceptance.CharSet
/-!
# Classes in text

How the acceptance dialect writes sets of characters: escapes, and classes in brackets with
members, ranges, named sets and operators between them. Readers take the text after what opens
the piece, and give what they read with the text after it.
-/

namespace Specimen.Regex.Acceptance

/-! ## Escapes -/

def isMeta (c : Char) : Bool := "\\.+*?()|[]\x7b\x7d^$#&-~".toList.contains c

def hexDigit? (c : Char) : Option Nat :=
  if c.isDigit then some (c.toNat - '0'.toNat)
  else if 'a' ≤ c ∧ c ≤ 'f' then some (c.toNat - 'a'.toNat + 10)
  else if 'A' ≤ c ∧ c ≤ 'F' then some (c.toNat - 'A'.toNat + 10)
  else none

/-- The character of so many hexadecimal digits, and the text after it. -/
def hexChar? : Nat → Nat → List Char → Option (Char × List Char)
  | 0, value, cs =>
    if value < 0xD800 ∨ (0xDFFF < value ∧ value < 0x110000) then some (Char.ofNat value, cs)
    else none
  | _ + 1, _, [] => none
  | digits + 1, value, c :: cs =>
    (hexDigit? c).bind fun d => hexChar? digits (value * 16 + d) cs

/-- The set of a class letter. -/
def classLetter? : Char → Option CharSet
  | 'd' => some .digit
  | 'D' => some (.complement .digit)
  | 's' => some .space
  | 'S' => some (.complement .space)
  | 'w' => some .word
  | 'W' => some (.complement .word)
  | 'h' => some (.named .xdigit)
  | 'H' => some (.complement (.named .xdigit))
  | _ => none

/-- The character of an escape that stands for one, after the backslash. -/
def escapedChar? : List Char → Option (Char × List Char)
  | [] => none
  | c :: cs =>
    match c with
    | 'a' => some ('\x07', cs)
    | 'b' => some ('\x08', cs)
    | 'e' => some ('\x1b', cs)
    | 'f' => some ('\x0c', cs)
    | 'n' => some ('\n', cs)
    | 'r' => some ('\r', cs)
    | 't' => some ('\t', cs)
    | 'v' => some ('\x0b', cs)
    | 'x' => hexChar? 2 0 cs
    | 'u' => hexChar? 4 0 cs
    | 'U' => hexChar? 8 0 cs
    | c => if c.isAlphanum then none else some (c, cs)

/-! ## Classes -/

/-- A piece of a class: a character with or without its special meaning, or a set. -/
inductive ClassToken where
  | raw (c : Char)
  | literal (c : Char)
  | set (s : CharSet)
  deriving Inhabited

/-- The token of an escape in a class; an escape that changes nothing is a plain character. -/
def classEscape? (cs : List Char) : Option (ClassToken × List Char) :=
  match cs.head?.bind classLetter? with
  | some s => some (.set s, cs.tail)
  | none =>
    (escapedChar? cs).map fun (c, rest) => (if isMeta c then .literal c else .raw c, rest)

/-- A piece of a class and the text after it. -/
abbrev ClassPiece := ClassToken × List Char

/-- The pieces of a class with `depth` brackets open, up to the one that closes the last. -/
def classPieces : Nat → Nat → List ClassPiece → List Char → Option (List ClassPiece)
  | 0, _, _, _ => none
  | _, _, _, [] => none
  | fuel + 1, depth, acc, c :: cs =>
    let acc' := (.raw c, cs) :: acc
    if c = '\\' then
      (classEscape? cs).bind fun (t, rest) => classPieces fuel depth ((t, rest) :: acc) rest
    else if c = '[' then classPieces fuel (depth + 1) acc' cs
    else if c = ']' then
      if depth ≤ 1 then some acc'.reverse else classPieces fuel (depth - 1) acc' cs
    else classPieces fuel depth acc' cs

/-- The pieces of a class, after its opening bracket; a bracket that comes first is a member. -/
def scanClass (cs : List Char) : Option (List ClassPiece) :=
  let (sign, cs) : List ClassPiece × List Char := match cs with
    | '^' :: rest => ([(.raw '^', rest)], rest)
    | _ => ([], cs)
  let (first, cs) : List ClassPiece × List Char := match cs with
    | ']' :: rest => ([(.raw ']', rest)], rest)
    | _ => ([], cs)
  classPieces (cs.length + 1) 1 (first ++ sign) cs

/-- The characters up to a colon, and the pieces after it. -/
def nameUntilColon : List ClassToken → Option (List Char × List ClassToken)
  | .raw c :: rest =>
    if c = ':' then some ([], rest)
    else (nameUntilColon rest).map fun (name, rest) => (c :: name, rest)
  | _ => none

/-- A named set after an opening bracket. -/
def namedSet? : List ClassToken → Option (CharSet × List ClassToken)
  | .raw ':' :: rest =>
    let (negated, rest) := match rest with
      | .raw '^' :: rest => (true, rest)
      | _ => (false, rest)
    match nameUntilColon rest with
    | some (name, .raw ']' :: rest) =>
      (AsciiName.ofString? (String.ofList name)).map fun n =>
        (if negated then .complement (.named n) else .named n, rest)
    | _ => none
  | _ => none

/-- The character that a token stands for as an end of a range. -/
def ClassToken.char? : ClassToken → Option Char
  | .raw c => some c
  | .literal c => some c
  | .set _ => none

def ClassToken.toSet : ClassToken → CharSet
  | .raw c => .char c
  | .literal c => .char c
  | .set s => s

/-- One member of a class: a set, a character or a range. -/
def classMember (t : ClassToken) (rest : List ClassToken) : Option (CharSet × List ClassToken) :=
  match rest with
  | .raw '-' :: .raw ']' :: _ => some (t.toSet, rest)
  | .raw '-' :: .raw '-' :: _ => some (t.toSet, rest)
  | .raw '-' :: u :: after =>
    match t.char?, u.char? with
    | some first, some last => if last < first then none else some (.range first last, after)
    | _, _ => none
  | _ => some (t.toSet, rest)

/-- The operand read so far, combined with what came before it. -/
def operand (before : Option (SetOp × CharSet)) (members : List CharSet) : CharSet :=
  match before with
  | none => .union members.reverse
  | some (op, left) => .combine op left (.union members.reverse)

/-- Hyphens at the start are members, and so is a closing bracket in the very first place. -/
def leading (members : List CharSet) : List ClassToken → List CharSet × List ClassToken
  | .raw '-' :: rest => leading (.char '-' :: members) rest
  | .raw ']' :: rest =>
    if members.isEmpty then ([.char ']'], rest) else (members, .raw ']' :: rest)
  | ts => (members, ts)

mutual

/-- The set of a class, after its opening bracket. -/
def classSet : Nat → List ClassToken → Option (CharSet × List ClassToken)
  | 0, _ => none
  | fuel + 1, ts =>
    let (negated, ts) : Bool × List ClassToken := match ts with
      | .raw '^' :: rest => (true, rest)
      | _ => (false, ts)
    let (members, ts) := leading [] ts
    match classMembers fuel none members ts with
    | some (s, rest) => some (if negated then .complement s else s, rest)
    | none => none

/-- The members of a class up to its closing bracket, with what was combined before them. -/
def classMembers : Nat → Option (SetOp × CharSet) → List CharSet → List ClassToken →
    Option (CharSet × List ClassToken)
  | 0, _, _, _ => none
  | fuel + 1, before, members, ts =>
    match ts with
    | [] => none
    | .raw '[' :: rest =>
      match namedSet? rest with
      | some (s, rest) => classMembers fuel before (s :: members) rest
      | none =>
        match classSet fuel rest with
        | some (s, rest) => classMembers fuel before (s :: members) rest
        | none => none
    | .raw ']' :: rest => some (operand before members, rest)
    | .raw '&' :: .raw '&' :: rest =>
      classMembers fuel (some (.intersection, operand before members)) [] rest
    | .raw '-' :: .raw '-' :: rest =>
      classMembers fuel (some (.difference, operand before members)) [] rest
    | .raw '~' :: .raw '~' :: rest =>
      classMembers fuel (some (.symmetricDifference, operand before members)) [] rest
    | t :: rest =>
      match classMember t rest with
      | some (s, rest) => classMembers fuel before (s :: members) rest
      | none => none

end

/--
The set of a class, after its opening bracket, and the text after it. The brackets in it must
come in pairs, even where one is the end of a range and the class closes before the last of them.
-/
def readClass? (cs : List Char) : Option (CharSet × List Char) := do
  let pieces ← scanClass cs
  let (set, left) ← classSet (2 * pieces.length + 2) (pieces.map (·.1))
  let (_, rest) ← pieces[pieces.length - left.length - 1]?
  pure (set, rest)

end Specimen.Regex.Acceptance
