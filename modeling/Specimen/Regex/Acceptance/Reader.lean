import Specimen.Regex.Acceptance.Class
import Specimen.Regex.Acceptance.Rule
import Specimen.Text.Letter
/-!
# The acceptance dialect

The dialect in which a pattern is read as a rule. It is close to the dialect of the construct
trees but not the same: a quantifier stands only behind something that can be repeated, classes
know operators and named sets, lookaround, conditionals and flags have their meaning, and some
patterns cannot be read at all.
-/

namespace Specimen.Regex.Acceptance

structure Flags where
  fold : Bool := false
  multiline : Bool := false
  dotAll : Bool := false
  spaced : Bool := false

/-- The text still to be read, and what was read so far. -/
structure Cursor where
  rest : List Char
  flags : Flags := {}
  groups : Nat := 0
  names : List (String × Nat) := []
  /-- The groups that something refers to. -/
  refs : List Nat := []
  /-- Whether one of them was referred to by number. -/
  numbered : Bool := false

/-- A reader of a piece, which fails where the pattern is not of the dialect. -/
abbrev Read (α : Type) := StateT Cursor Option α

def refuse {α : Type} : Read α := fun _ => none

def rest : Read (List Char) := do pure (← get).rest

def setRest (cs : List Char) : Read Unit := modify fun s => { s with rest := cs }

def flags : Read Flags := do pure (← get).flags

/-! ## Blanks and comments -/

/-- The text after a comment. -/
def afterComment : List Char → Option (List Char)
  | [] => none
  | ['\\'] => none
  | '\\' :: _ :: cs => afterComment cs
  | c :: cs => if c = ')' then some cs else afterComment cs

/-- The text after comments and, with `spaced`, after blanks and remarks to the end of a line. -/
def afterBlanks (spaced : Bool) : Nat → List Char → Option (List Char)
  | 0, cs => some cs
  | fuel + 1, cs =>
    match cs with
    | '(' :: '?' :: '#' :: rest => (afterComment rest).bind (afterBlanks spaced fuel)
    | '#' :: rest =>
      if spaced then afterBlanks spaced fuel ((rest.dropWhile (· ≠ '\n')).drop 1) else some cs
    | c :: rest =>
      if spaced ∧ (c = ' ' ∨ c = '\r' ∨ c = '\n' ∨ c = '\t') then afterBlanks spaced fuel rest
      else some cs
    | [] => some []

def skipBlanks : Read Unit := do
  let s ← get
  match afterBlanks s.flags.spaced s.rest.length s.rest with
  | some cs => setRest cs
  | none => refuse

/-! ## References -/

/-- A run of digits that fits in 64 bits, and the text after it. -/
def number? (cs : List Char) : Option (Nat × List Char) :=
  let ds := cs.takeWhile Char.isDigit
  let n := ds.foldl (fun n c => n * 10 + (c.toNat - '0'.toNat)) 0
  if ds.isEmpty ∨ UInt64.size ≤ n then none else some (n, cs.dropWhile Char.isDigit)

/-- Refers to a group; whether there is one is known in the end. -/
def refer (n : Nat) : Read Nat := do
  modify fun s => { s with refs := n :: s.refs }
  pure n

/-- A reference to a group by its number. -/
def numberedGroup : Read Nat := do
  match number? (← rest) with
  | none => refuse
  | some (n, cs) =>
    setRest cs
    modify fun s => { s with numbered := true }
    refer n

def isNameChar (c : Char) : Bool := Text.isAlphanumeric c || c = '_'

/-- A name up to its terminator, if it has one. -/
def name (terminator : Option Char) : Read String := do
  let cs ← rest
  let name := cs.takeWhile isNameChar
  let after := cs.drop name.length
  if name.isEmpty then refuse
  else
    match terminator with
    | none => setRest after
    | some t => if after.head? = some t then setRest after.tail else refuse
    pure (String.ofList name)

/-- The number that a name consists of. -/
def numberOf (name : String) : Read Nat :=
  match number? name.toList with
  | some (n, []) => pure n
  | _ => refuse

/--
A reference to a group by its name, by its number, or by a sign and how far it is from here: the
group that began last is one back.
-/
def groupId (terminator : Option Char) : Read Nat := do
  match ← rest with
  | '-' :: cs =>
    setRest cs
    let n ← numberOf (← name terminator)
    let groups := (← get).groups
    if n = 0 ∨ groups < n then refuse else refer (groups + 1 - n)
  | '+' :: cs =>
    setRest cs
    let n ← numberOf (← name terminator)
    if n = 0 then refuse else refer ((← get).groups + n)
  | _ =>
    let name ← name terminator
    match (← get).names.lookup name with
    | some n => refer n
    | none => do refer (← numberOf name)

/-! ## Escapes -/

def assertion? : Char → Option Assertion
  | 'A' => some .textStart
  | 'G' => some .textStart
  | 'z' => some .textEnd
  | 'Z' => some .blankEnd
  | 'b' => some .wordBoundary
  | 'B' => some .notWordBoundary
  | '<' => some .wordStart
  | '>' => some .wordEnd
  | _ => none

/-- The sides of a word that have a name. -/
def wordSide? : String → Option Assertion
  | "start" => some .wordStart
  | "end" => some .wordEnd
  | "start-half" => some .wordStartHalf
  | "end-half" => some .wordEndHalf
  | _ => none

/-- A side of a word, named in braces, after the opening one. -/
def wordSide : Read Rule := do
  let cs ← rest
  let name := cs.takeWhile (· ≠ '\x7d')
  match cs.drop name.length, wordSide? (String.ofList name) with
  | _ :: after, some a =>
    setRest after
    pure (.assertion a)
  | _, _ => refuse

/-- The rule of an escape, after the backslash. -/
def escape : Read Rule := do
  let fold := (← flags).fold
  let taken (cs : List Char) (r : Rule) : Read Rule := do
    setRest cs
    pure r
  match ← rest with
  | [] => refuse
  | 'b' :: '\x7b' :: cs => do
    setRest cs
    wordSide
  | 'B' :: '\x7b' :: _ => refuse
  | 'k' :: '\'' :: cs => do
    setRest cs
    pure (.backref (← groupId (some '\'')) fold)
  | 'k' :: '<' :: cs => do
    setRest cs
    pure (.backref (← groupId (some '>')) fold)
  | c :: cs =>
    if c.isDigit then pure (.backref (← numberedGroup) fold)
    else
      match assertion? c, classLetter? c, escapedChar? (c :: cs) with
      | some a, _, _ => taken cs (.assertion a)
      | none, some set, _ => taken cs (.one set fold)
      | none, none, some (d, cs) => taken cs (.one (.char d) fold)
      | none, none, none => refuse

/-- The rule of a class, after its opening bracket. -/
def readClass : Read Rule := do
  match readClass? (← rest) with
  | none => refuse
  | some (s, cs) =>
    setRest cs
    pure (.one s (← flags).fold)

/-! ## Quantifiers -/

/-- What can be repeated: not what looks around, and not nothing. -/
def Rule.isRepeatable : Rule → Bool
  | .empty => false
  | .look _ _ _ => false
  | .groupSet _ => false
  | _ => true

/-- The largest number of 64 bits as a maximum is none. -/
def maximum (n : Nat) : Option Nat := if n + 1 = UInt64.size then none else some n

/-- The bounds in braces, after the opening one. -/
def bounds : Read (Nat × Option Nat) := do
  skipBlanks
  let low ← match ← rest with
    | ',' :: _ => pure 0
    | cs =>
      match number? cs with
      | some (n, cs) =>
        setRest cs
        pure n
      | none => refuse
  skipBlanks
  let high : Option Nat ← match ← rest with
    | '\x7d' :: _ => pure (maximum low)
    | ',' :: cs =>
      setRest cs
      skipBlanks
      match number? (← rest) with
      | some (n, cs) =>
        setRest cs
        pure (maximum n)
      | none => pure none
    | _ => refuse
  skipBlanks
  match ← rest with
  | '\x7d' :: cs =>
    setRest cs
    pure (low, high)
  | _ => refuse

/-- Reads a piece if it is there, and nothing otherwise. -/
def optional {α : Type} (r : Read α) : Read (Option α) := fun s =>
  match r s with
  | some (a, t) => some (some a, t)
  | none => some (none, s)

/-- The bounds of a quantifier if one comes next. -/
def quantifier? : Read (Option (Nat × Option Nat)) := do
  match ← rest with
  | '?' :: cs =>
    setRest cs
    pure (some (0, some 1))
  | '*' :: cs =>
    setRest cs
    pure (some (0, none))
  | '+' :: cs =>
    setRest cs
    pure (some (1, none))
  | '\x7b' :: _ => optional (do
    setRest ((← rest).drop 1)
    bounds)
  | _ => pure none

/-- Puts the quantifier that comes next, if one does, on a rule. -/
def quantified (r : Rule) : Read Rule := do
  skipBlanks
  match ← quantifier? with
  | none => pure r
  | some (least, most) =>
    if ¬ r.isRepeatable then refuse
    else
      skipBlanks
      let lazy ← match ← rest with
        | '?' :: cs =>
          setRest cs
          pure true
        | _ => pure false
      let r := Rule.repetition least most lazy r
      match ← rest with
      | '+' :: cs =>
        setRest cs
        pure (.atomic r)
      | _ => pure r

/-! ## Groups -/

/-- The closing parenthesis of a group. -/
def close : Read Unit := do
  skipBlanks
  match ← rest with
  | ')' :: cs => setRest cs
  | _ => refuse

def openGroup : Read Nat := do
  modify fun s => { s with groups := s.groups + 1 }
  pure (← get).groups

/-- The outcome of reading flags: they hold from here on, or for a group that begins here. -/
inductive FlagsEnd where
  | here
  | group

/-- Sets a flag; those that the dialect does not know are refused. -/
def Flags.set? (f : Flags) (c : Char) (on : Bool) : Option Flags :=
  match c with
  | 'i' => some { f with fold := on }
  | 'm' => some { f with multiline := on }
  | 's' => some { f with dotAll := on }
  | 'x' => some { f with spaced := on }
  | 'u' => if on then some f else none
  | _ => none

/--
Reads flags after a question mark, where the text after it had `start` characters. At least one
character stands before the end, and one more after a sign that comes first.
-/
def readFlags (start : Nat) : Nat → Bool → Read FlagsEnd
  | 0, _ => refuse
  | fuel + 1, on => do
    skipBlanks
    match ← rest with
    | [] => refuse
    | c :: cs =>
      let taken := start - (cs.length + 1)
      setRest cs
      if c = ')' then
        if taken = 0 ∨ (¬ on ∧ taken = 1) then refuse else pure .here
      else if c = ':' then
        if ¬ on ∧ taken = 1 then refuse else pure .group
      else if c = '-' then
        if on then readFlags start fuel false else refuse
      else
        match (← flags).set? c on with
        | none => refuse
        | some f =>
          modify fun s => { s with flags := f }
          readFlags start fuel on

/-- A rule as a test: a reference tests whether its group has begun. -/
def Rule.asTest : Rule → Rule
  | .backref index _ => .groupSet index
  | r => r

def Rule.isGroupSet : Rule → Bool
  | .groupSet _ => true
  | _ => false

/-- A conditional of the given test, whose body holds its two branches. -/
def conditionalOf (test body : Rule) : Rule :=
  let (yes, no) : Rule × Rule := match body with
    | .alternation [yes, no] => (yes, no)
    | .alternation (yes :: no) => (yes, .alternation no)
    | body => (body, .empty)
  match yes, no with
  | .empty, .empty => test
  | yes, no => .conditional test yes no

/-- How deep groups can be nested. -/
def depthLimit : Nat := 64

/-- The rules of a sequence: a single one stands alone. -/
def sequence : List Rule → Rule
  | [] => .empty
  | [r] => r
  | rs => .concat rs

def keep (r : Rule) (rs : List Rule) : List Rule :=
  match r with
  | .empty => rs
  | r => r :: rs

mutual

/-- A rule with its alternatives, up to a closing parenthesis or the end. -/
def readRule : Nat → Nat → Read Rule
  | 0, _ => refuse
  | fuel + 1, depth => do
    let first ← readBranch fuel depth []
    skipBlanks
    match ← rest with
    | '|' :: _ => readAlternatives fuel depth [first]
    | _ =>
      let s ← get
      if s.numbered ∧ ¬ s.names.isEmpty then refuse else pure first

def readAlternatives : Nat → Nat → List Rule → Read Rule
  | 0, _, _ => refuse
  | fuel + 1, depth, branches => do
    match ← rest with
    | '|' :: cs =>
      setRest cs
      let next ← readBranch fuel depth []
      skipBlanks
      readAlternatives fuel depth (next :: branches)
    | _ => pure (.alternation branches.reverse)

/-- Pieces, until one takes nothing. -/
def readBranch : Nat → Nat → List Rule → Read Rule
  | 0, _, _ => refuse
  | fuel + 1, depth, items => do
    let before := (← rest).length
    if before = 0 then pure (sequence items.reverse)
    else
      let r ← quantified (← readAtom fuel depth)
      if (← rest).length = before then pure (sequence items.reverse)
      else readBranch fuel depth (keep r items)

def readAtom : Nat → Nat → Read Rule
  | 0, _ => refuse
  | fuel + 1, depth => do
    skipBlanks
    let f ← flags
    match ← rest with
    | [] => pure .empty
    | c :: cs =>
      let taken (r : Rule) : Read Rule := do
        setRest cs
        pure r
      match c with
      | '.' => taken (.any f.dotAll)
      | '^' => taken (.assertion (if f.multiline then .lineStart else .textStart))
      | '$' => taken (.assertion (if f.multiline then .lineEnd else .textEnd))
      | '(' => do
        setRest cs
        readGroup fuel (depth + 1)
      | '\\' => do
        setRest cs
        escape
      | '[' => do
        setRest cs
        readClass
      | '+' | '*' | '?' | '|' | ')' => pure .empty
      | c => taken (.one (.char c) f.fold)

/-- A group, after its opening parenthesis. -/
def readGroup : Nat → Nat → Read Rule
  | 0, _ => refuse
  | fuel + 1, depth => do
    if depthLimit ≤ depth then refuse
    else
      skipBlanks
      match ← rest with
      | '?' :: '=' :: cs => readLook fuel depth false false cs
      | '?' :: '!' :: cs => readLook fuel depth false true cs
      | '?' :: '<' :: '=' :: cs => readLook fuel depth true false cs
      | '?' :: '<' :: '!' :: cs => readLook fuel depth true true cs
      | '?' :: '<' :: cs => readNamed fuel depth cs
      | '?' :: 'P' :: '<' :: cs => readNamed fuel depth cs
      | '?' :: 'P' :: '=' :: cs => do
        setRest cs
        pure (.backref (← groupId (some ')')) (← flags).fold)
      | '?' :: '>' :: cs => do
        setRest cs
        let r ← readRule fuel depth
        close
        pure (.atomic r)
      | '?' :: '(' :: cs => do
        setRest cs
        readConditional fuel depth
      | '?' :: cs => do
        setRest cs
        let saved ← flags
        match ← readFlags cs.length (cs.length + 1) true with
        | .here => pure .empty
        | .group =>
          let r ← readRule fuel depth
          close
          modify fun s => { s with flags := saved }
          pure r
      | _ => do
        let n ← openGroup
        let r ← readRule fuel depth
        close
        pure (.group n r)

def readLook : Nat → Nat → Bool → Bool → List Char → Read Rule
  | 0, _, _, _, _ => refuse
  | fuel + 1, depth, behind, negative, cs => do
    setRest cs
    let r ← readRule fuel depth
    close
    pure (.look behind negative r)

def readNamed : Nat → Nat → List Char → Read Rule
  | 0, _, _ => refuse
  | fuel + 1, depth, cs => do
    setRest cs
    let name ← name (some '>')
    let n ← openGroup
    modify fun s => { s with names := (name, n) :: s.names }
    let r ← readRule fuel depth
    close
    pure (.group n r)

/-- A conditional, after the parenthesis of its test; only a group alone is a conditional. -/
def readConditional : Nat → Nat → Read Rule
  | 0, _ => refuse
  | fuel + 1, depth => do
    let test ← match ← rest with
      | [] => refuse
      | '<' :: cs => do
        setRest cs
        pure (Rule.groupSet (← groupId (some '>')))
      | '\'' :: cs => do
        setRest cs
        pure (Rule.groupSet (← groupId (some '\'')))
      | c :: _ =>
        if c.isDigit ∨ c = '+' ∨ c = '-' then do pure (Rule.groupSet (← groupId none))
        else do pure (← readRule fuel depth).asTest
    close
    let before := (← rest).length
    let body ← readRule fuel depth
    if (← rest).length = before ∧ ¬ test.isGroupSet then refuse
    else
      close
      pure (conditionalOf test body)

end

/-- The rule of a text with the groups it refers to, which must be among its groups. -/
def read? (text : String) : Option (Rule × List Nat) := do
  let fuel := 8 * (text.length + 2)
  let (r, s) ← readRule fuel 0 { rest := text.toList }
  if s.rest.isEmpty ∧ s.refs.all (fun n => 0 < n ∧ n ≤ s.groups) then
    pure (r, s.refs.eraseDups)
  else none

end Specimen.Regex.Acceptance
