import Specimen.Regex.Reader
/-!
# Reading a pattern by descent

The tree of a pattern can be read with a cursor that goes over the characters in place. Each kind
of construct has its own procedure; the procedures call each other, for a group also around in a
circle, and one that has read too far sets the cursor back. Nothing in their text says that this
ends or that the cursor stays inside the pattern. So they get fuel, which a loop uses for its
turns and a group for the groups in it, and they keep a record of where the cursor was: `descend`
gives no result where the fuel is used up, and `Event.IsSafe` says what a record should say.
-/

namespace Specimen.Regex

namespace Descent

/-- What moves the cursor when it is called. -/
inductive Procedure where
  | bump
  | eat
  | expect
  | alternation
  | concat
  | quantified
  | braces
  | number
  | atom
  | group
  | groupBody
  | skipGroups
  | name
  | escape
  | escapedChar
  | hex
  | charClass
  | classCategory
  deriving DecidableEq, Repr

/-- The loops of the procedures. -/
inductive Loop where
  | branches
  | items
  | quantifiers
  | digits
  | word
  | comment
  | flags
  | nesting
  | members
  deriving DecidableEq, Repr

/-- What a procedure does that might go wrong. -/
inductive Event where
  /-- The cursor is set to a position. -/
  | moved (position : Nat)
  /-- The cursor goes back by one from a position. -/
  | wentBack (position : Nat)
  /-- The characters between two positions are taken out. -/
  | sliced (start stop : Nat)
  /-- A group is closed while so many are counted as open. -/
  | closed (depth : Nat)
  /-- A turn of a loop went from one position to another, and one more turn follows. -/
  | turned (l : Loop) (start stop : Nat)
  /-- A call went from one position to another, and ended with a value or without. -/
  | returned (p : Procedure) (start stop : Nat) (succeeded : Bool)
  deriving DecidableEq, Repr

/-- The event keeps the cursor in a pattern of that length and its counters above zero, and a
turn that is not the last one, or an atom that is read, brings the cursor forward. -/
def Event.IsSafe (length : Nat) : Event → Prop
  | moved position => position ≤ length
  | wentBack position => 0 < position
  | sliced start stop => start ≤ stop ∧ stop ≤ length
  | closed depth => 0 < depth
  | turned _ start stop => start < stop
  | returned p start stop succeeded =>
    start ≤ stop ∧ stop ≤ length ∧
      (p = .atom → succeeded = true → start < length → start < stop)

structure Cursor where
  position : Nat := 0
  groups : Groups := {}
  /-- What was done, the latest first. -/
  record : List Event := []

end Descent

/-- A computation on the characters of a pattern and a cursor. It has no result if its fuel does
not last; what it did to the cursor is kept if it fails. -/
abbrev Descent (α : Type) : Type :=
  ReaderT (List Char) (ExceptT PatternError (StateT Descent.Cursor Option)) α

namespace Descent

variable {α σ : Type}

/-! ## The cursor -/

def position : Descent Nat := do return (← get).position

def groups : Descent Groups := do return (← get).groups

/-- The next character. -/
def peek : Descent (Option Char) := do return (← read)[← position]?

def peekAt (offset : Nat) : Descent (Option Char) := do return (← read)[(← position) + offset]?

def lookingAt (text : List Char) : Descent Bool := do
  return text.isPrefixOf ((← read).drop (← position))

def note (e : Event) : Descent Unit := modify fun c => { c with record := e :: c.record }

def moveTo (position : Nat) : Descent Unit := do
  note (.moved position)
  modify fun c => { c with position }

def advance (n : Nat) : Descent Unit := do moveTo ((← position) + n)

/-- Takes back the last character. -/
def back : Descent Unit := do
  let position ← position
  note (.wentBack position)
  moveTo (position - 1)

/-- Puts on record where a procedure was called and where it returned. -/
def call (p : Procedure) (x : Descent α) : Descent α := fun chars => ExceptT.mk fun c => do
  let (r, c') ← x chars c
  return (r, { c' with record := .returned p c.position c'.position r.isOk :: c'.record })

/-- Takes the next character. -/
def bump : Descent (Option Char) := call .bump do
  match ← peek with
  | none => return none
  | some c =>
    advance 1
    return some c

/-- Takes the next character if it is `c`. -/
def eat (c : Char) : Descent Bool := call .eat do
  if (← peek) = some c then
    advance 1
    return true
  else return false

def slice (start stop : Nat) : Descent (List Char) := do
  note (.sliced start stop)
  return ((← read).take stop).drop start

def complain (f : Fault) : Descent α := do throw (.at (← position) f)

def expect (c : Char) : Descent Unit := call .expect do
  if ← eat c then return () else complain (.expected c)

/-- Opens a capturing group and answers with its index. -/
def openGroup (name : Option String) : Descent Nat := do
  let groups ← groups
  let index := groups.count + 1
  let names := match name with
    | none => groups.names
    | some n => (n, index) :: groups.names
  modify fun c => { c with groups := ⟨index, names⟩ }
  return index

/-! ## Loops -/

def outOfFuel : Descent α := fun _ => ExceptT.mk fun _ => none

/-- Takes turns, each of them with what the one before has left, until one ends the loop. -/
def loop (l : Loop) (turn : σ → Descent (σ ⊕ α)) : Nat → σ → Descent α
  | 0, _ => outOfFuel
  | fuel + 1, s => do
    let start ← position
    match ← turn s with
    | .inr a => return a
    | .inl s =>
      note (.turned l start (← position))
      loop l turn fuel s

/-- Takes characters as long as they have a property. -/
def skipWhile (l : Loop) (p : Char → Bool) (fuel : Nat) : Descent Unit :=
  loop l (fun () => do
    if (← peek).any p then
      advance 1
      return .inl ()
    else return .inr ()) fuel ()

/-! ## Escapes -/

def hexDigits : Nat → Nat → Descent Nat
  | 0, value => return value
  | digits + 1, value => do
    match (← bump).bind hexDigit? with
    | some d => hexDigits digits (value * 16 + d)
    | none => complain .incompleteHex

def hex (digits : Nat) : Descent Char := call .hex do
  let code ← hexDigits digits 0
  if isCodePoint code then return Char.ofNat code else complain .invalidCodePoint

def escapedChar : Descent Char := call .escapedChar do
  match ← bump with
  | none => complain .escapeAtEnd
  | some c =>
    match c with
    | 'n' => return '\n'
    | 't' => return '\t'
    | 'r' => return '\r'
    | 'f' => return '\x0c'
    | 'v' => return '\x0b'
    | 'a' => return '\x07'
    | 'b' => return '\x08'
    | '0' => return '\x00'
    | 'x' => hex 2
    | 'u' => hex 4
    | 'U' => hex 8
    | c =>
      if c.isAlphanum then
        back
        complain (.badEscape c)
      else return c

def referTo (index : Nat) : Descent Construct := do
  if (← groups).count < index then throw (.unknownGroup (toString index))
  else return .backref index

/-- A reference by its first digit and, if there is one, its second. -/
def backref (c : Char) : Descent Construct := do
  let first := c.toNat - '0'.toNat
  match (← peek).filter Char.isDigit with
  | some d =>
    advance 1
    referTo (first * 10 + (d.toNat - '0'.toNat))
  | none => referTo first

def escape : Descent Construct := call .escape do
  match ← bump with
  | none => complain .escapeAtEnd
  | some c =>
    match category? c, anchor? c with
    | some k, _ => return .charClass false [.category k]
    | none, some a => return .anchor a
    | none, none =>
      if '1' ≤ c ∧ c ≤ '9' then backref c
      else
        back
        return .literal (← escapedChar)

/-! ## Classes -/

def classCategory : Descent (Option Category) := call .classCategory do
  match (← peek).bind category? with
  | none => return none
  | some k =>
    advance 1
    return some k

/-- The character or the category that begins with `c`. -/
def single (c : Char) : Descent ClassItem := do
  if c = '\\' then
    match ← classCategory with
    | some k => return .category k
    | none => return .char (← escapedChar)
  else return .char c

def rangeEnd : Descent Char := do
  match ← bump with
  | none => complain .unterminatedSet
  | some c => if c = '\\' then escapedChar else return c

/-- Makes a range of a character if a hyphen and an end follow it. -/
def ranged : ClassItem → Descent ClassItem
  | .char first => do
    if (← peek) = some '-' ∧ (← peekAt 1).any (· ≠ ']') then
      advance 1
      let last ← rangeEnd
      if last < first then complain .badRange else return .range first last
    else return .char first
  | item => return item

/-- The member of a class that begins with `c`. -/
def member (c : Char) : Descent ClassItem := do ranged (← single c)

def charClass (fuel : Nat) : Descent Construct := call .charClass do
  let negated ← eat '^'
  let items ← loop .members (fun (first, items) => do
    match ← bump with
    | none => complain .unterminatedSet
    | some c =>
      if c = ']' ∧ ¬ first then return .inr items.reverse
      else
        let item ← member c
        return .inl (false, item :: items)) fuel (true, [])
  match negated, items with
  | true, [.char c] => return .notLiteral c
  | _, _ => return .charClass negated items

/-! ## Quantifiers -/

def number (fuel : Nat) : Descent (Option Nat) := call .number do
  let start ← position
  skipWhile .digits Char.isDigit fuel
  let stop ← position
  if start = stop then return none else return number? (← slice start stop)

/-- One or two numbers, with a comma between them. -/
def bounds (fuel : Nat) : Descent (Option (Nat × Option Nat)) := do
  let least ← number fuel
  if ← eat ',' then
    let most ← number fuel
    return some (least.getD 0, most)
  else return least.map fun n => (n, some n)

/-- Takes the closing brace; without it or without bounds the cursor is set back to the opening
one. -/
def closeBraces (start : Nat) :
    Option (Nat × Option Nat) → Descent (Option (Nat × Option Nat))
  | none => do
    moveTo start
    return none
  | some (least, most) => do
    if ← eat '\x7d' then
      if most.any (· < least) then complain .leastAboveMost else return some (least, most)
    else
      moveTo start
      return none

/-- The bounds in braces, if the brace does not stand for itself. -/
def braces (fuel : Nat) : Descent (Option (Nat × Option Nat)) := call .braces do
  let start ← position
  advance 1
  let found ← bounds fuel
  closeBraces start found

/-- The bounds that a quantifier stands for. -/
def quantifierBounds (fuel : Nat) : Descent (Option (Nat × Option Nat)) := do
  match ← peek with
  | some '*' =>
    advance 1
    return some (0, none)
  | some '+' =>
    advance 1
    return some (1, none)
  | some '?' =>
    advance 1
    return some (0, some 1)
  | some '\x7b' => braces fuel
  | _ => return none

/-- Takes a lazy or possessive suffix. -/
def suffix : Descent Unit := do
  if ← eat '?' then return ()
  else
    let _ ← eat '+'
    return ()

def quantifier (fuel : Nat) : Descent (Option (Nat × Option Nat)) := do
  match ← quantifierBounds fuel with
  | none => return none
  | some b =>
    suffix
    return some b

/-- Reads the quantifiers of a construct. -/
def quantified (fuel : Nat) (c : Construct) : Descent Construct := call .quantified <|
  loop .quantifiers (fun c => do
    match ← quantifier fuel with
    | none => return .inr c
    | some (least, most) => return .inl (.repetition least most c)) fuel c

/-! ## Groups -/

def name (terminator : Char) (fuel : Nat) : Descent String := call .name do
  let word ← loop .word (fun word => do
    match ← bump with
    | none => complain .badNameCharacter
    | some c =>
      if c = terminator then return .inr word
      else if Text.isAlphanumeric c ∨ c = '_' then return .inl (c :: word)
      else complain .badNameCharacter) fuel []
  if word.isEmpty then complain .missingName else return String.ofList word.reverse

def comment (fuel : Nat) : Descent Unit :=
  loop .comment (fun () => do
    match ← bump with
    | none => complain .unterminatedComment
    | some c => if c = ')' then return .inr () else return .inl ()) fuel ()

/-- Reads up to the parenthesis that closes the outermost of `depth` open groups. -/
def skipGroups (depth fuel : Nat) : Descent Unit := call .skipGroups <|
  loop .nesting (fun depth => do
    match ← bump with
    | none => complain .unterminatedGroup
    | some c =>
      if c = '\\' then
        let _ ← bump
        return .inl depth
      else if c = '(' then return .inl (depth + 1)
      else if c = ')' then
        note (.closed depth)
        if depth - 1 = 0 then return .inr () else return .inl (depth - 1)
      else return .inl depth) fuel depth

/-- The body of a group and its parenthesis; `inner` reads the body. -/
def groupBody (inner : Descent Construct) (index : Option Nat) : Descent Construct :=
  call .groupBody do
    let body ← inner
    expect ')'
    return .group index body

/-- A named group, after the name's opening bracket. -/
def named (inner : Descent Construct) (fuel : Nat) : Descent Construct := do
  let n ← name '>' fuel
  let index ← openGroup n
  groupBody inner index

def namedGroup (inner : Descent Construct) (fuel : Nat) : Descent Construct := do
  let _ ← eat 'P'
  advance 1
  named inner fuel

def namedBackref (fuel : Nat) : Descent Construct := do
  advance 2
  let n ← name ')' fuel
  match (← groups).names.lookup n with
  | some index => return .backref index
  | none => throw (.unknownGroup n)

def inlineFlags (inner : Descent Construct) (fuel : Nat) : Descent Construct := do
  skipWhile .flags isFlag fuel
  if ← eat ':' then groupBody inner none
  else
    expect ')'
    return .skipped .inlineFlags

/-- A group after its parenthesis and a question mark. -/
def marked (inner : Descent Construct) (fuel : Nat) : Descent Construct := do
  if ← eat ':' then groupBody inner none
  else
    let lookbehind := (← lookingAt ['<', '=']) || (← lookingAt ['<', '!'])
    if (← lookingAt ['P', '<']) || ((← lookingAt ['<']) && !lookbehind) then
      namedGroup inner fuel
    else if ← lookingAt ['P', '='] then namedBackref fuel
    else if lookbehind || (← lookingAt ['=']) || (← lookingAt ['!']) then
      advance (if lookbehind then 2 else 1)
      let _ ← groupBody inner none
      return .skipped (if lookbehind then .lookbehind else .lookahead)
    else if ← eat '#' then
      comment fuel
      return .skipped .comment
    else if ← eat '(' then
      skipGroups 2 fuel
      return .skipped .conditional
    else inlineFlags inner fuel

/-- A group after its parenthesis. -/
def group (inner : Descent Construct) (fuel : Nat) : Descent Construct := call .group do
  if ← eat '?' then marked inner fuel
  else
    let index ← openGroup none
    groupBody inner index

/-! ## Constructs -/

/-- A construct without its quantifiers; none at the end of the pattern. -/
def atom (inner : Descent Construct) (fuel : Nat) : Descent Construct := call .atom do
  match ← bump with
  | none => return .empty
  | some c =>
    match c with
    | '(' => group inner fuel
    | '[' => charClass fuel
    | '.' => return .any
    | '^' => return .anchor .start
    | '$' => return .anchor .stop
    | '\\' => escape
    | '*' | '+' | '?' =>
      back
      complain .nothingToRepeat
    | '\x7b' =>
      back
      if (← braces fuel).isSome then complain .nothingToRepeat
      else
        advance 1
        return .literal '\x7b'
    | c => return .literal c

def concat (inner : Descent Construct) (fuel : Nat) : Descent Construct := call .concat do
  let items ← loop .items (fun items => do
    match ← peek with
    | none => return .inr items
    | some c =>
      if c = '|' ∨ c = ')' then return .inr items
      else
        let item ← quantified fuel (← atom inner fuel)
        return .inl (item :: items)) fuel []
  return .sequence items.reverse

def branches (inner : Descent Construct) (fuel : Nat) : Descent Construct := call .alternation do
  let first ← concat inner fuel
  let all ← loop .branches (fun all => do
    if ← eat '|' then
      let branch ← concat inner fuel
      return .inl (branch :: all)
    else return .inr all) fuel [first]
  return .choice all.reverse

/-- The construct up to the end of the pattern or an unmatched parenthesis, with groups that are
nested less than `depth` deep. -/
def alternation (fuel : Nat) : Nat → Descent Construct
  | 0 => outOfFuel
  | depth + 1 => branches (alternation fuel depth) fuel

/-- The tree of the whole pattern. -/
def tree (fuel : Nat) : Descent Construct := do
  let tree ← alternation fuel fuel
  if (← position) < (← read).length then complain .unbalancedParenthesis else return tree

end Descent

/-- Reads a pattern by descent, with loops of at most `fuel` turns and at most `fuel` constructs
inside each other. -/
def descend (fuel : Nat) (pattern : String) :
    Option (Except PatternError Construct × Descent.Cursor) :=
  Descent.tree fuel pattern.toList {}

end Specimen.Regex
