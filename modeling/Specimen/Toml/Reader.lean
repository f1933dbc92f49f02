import Specimen.Toml.Scalar
import Specimen.Toml.Table
/-!
# Configuration texts

`Toml.read?` reads a TOML text into an object. Values nest less than eighty
deep, and so do dotted keys.
-/

namespace Specimen.Toml

/-- A reader of a piece, which fails where the text is none. -/
abbrev Read (α : Type) := StateT (List Char) Option α

def refuse {α : Type} : Read α := fun _ => none

/-- Takes a character if it comes next. -/
def accept (c : Char) : Read Bool := fun cs =>
  match cs with
  | x :: rest => if x = c then some (true, rest) else some (false, cs)
  | [] => some (false, [])

/-- Takes a character, which must come next. -/
def expect (c : Char) : Read Unit := do
  if ← accept c then pure () else refuse

def skipBlanks : Read Unit := modify (·.dropWhile isBlank)

/-- Takes a comment, if there is one, up to the end of the line. -/
def skipComment : Read Unit := do
  if ← accept '#' then
    modify (·.dropWhile isTextChar)

/-- Takes a line end, if there is one. -/
def acceptLineEnd : Read Bool := fun cs =>
  let rest := dropLineEnd cs
  some (rest.length < cs.length, rest)

/-- Takes what may follow at the end of a line; then the line or the text must end. -/
def endLine : Read Unit := do
  skipBlanks
  skipComment
  if !(← acceptLineEnd) && !(← get).isEmpty then refuse

/-- Takes blanks, comments and line ends. -/
def skipSpace : Nat → Read Unit
  | 0 => pure ()
  | fuel + 1 => do
    skipBlanks
    skipComment
    if ← acceptLineEnd then skipSpace fuel

/-! ## Keys -/

def isKeyChar (c : Char) : Bool := c.isAlphanum || c = '_' || c = '-'

/-- One part of a key. -/
def keyPart : Read String := fun cs =>
  match quotedLine? cs with
  | some r => some r
  | none =>
    let name := cs.takeWhile isKeyChar
    if name.isEmpty then none else some (String.ofList name, cs.dropWhile isKeyChar)

def keyParts : Nat → Read (List String)
  | 0 => refuse
  | fuel + 1 => do
    skipBlanks
    let name ← keyPart
    skipBlanks
    if ← accept '.' then pure (name :: (← keyParts fuel)) else pure [name]

/-- How deep values and keys may nest. -/
def depthLimit : Nat := 80

/-- A key, as the path to a table and a name in it. -/
def key : Read (List String × String) := do
  let parts ← keyParts (depthLimit - 1)
  match parts.getLast? with
  | some name => pure (parts.dropLast, name)
  | none => refuse

/-! ## Values -/

def scalar : Read Json := fun cs =>
  match cs with
  | '"' :: _ | '\'' :: _ => (quoted? cs).map fun (s, rest) => (.str s, rest)
  | _ => word? cs

mutual

/-- A value with at most `depth` more lists and tables inside each other. -/
def value (depth : Nat) : Nat → Read Json
  | 0 => refuse
  | fuel + 1 => do
    if ← accept '[' then
      if depth = 0 then refuse else pure (.arr (← listItems (depth - 1) fuel))
    else if ← accept '\x7b' then
      if depth = 0 then refuse
      else
        skipBlanks
        if ← accept '\x7d' then pure (.obj [])
        else pure (Item.table .header (← tableItems (depth - 1) fuel [])).toJson
    else scalar

/-- The items of a list and its end. -/
def listItems (depth : Nat) : Nat → Read (List Json)
  | 0 => refuse
  | fuel + 1 => do
    skipSpace (← get).length
    if ← accept ']' then pure []
    else
      let v ← value depth fuel
      skipSpace (← get).length
      if ← accept ',' then pure (v :: (← listItems depth fuel))
      else
        expect ']'
        pure [v]

/-- The pairs of a table on one line and its end. -/
def tableItems (depth : Nat) : Nat → Entries → Read Entries
  | 0, _ => refuse
  | fuel + 1, es => do
    let (path, name) ← key
    expect '='
    skipBlanks
    let v ← value depth fuel
    skipBlanks
    match Entries.assign path name v es with
    | none => refuse
    | some es =>
      if ← accept ',' then tableItems depth fuel es
      else
        expect '\x7d'
        pure es

end

/-! ## Documents -/

/-- What has been read: the tables, and the path of the header that holds. -/
structure Document where
  entries : Entries := []
  header : List String := []

/-- Goes on with changed tables, if the change was good. -/
def Document.change (es : Option Entries) (header : List String) : Read Document :=
  match es with
  | some entries => pure { entries, header }
  | none => refuse

/-- A header behind its opening bracket. -/
def header (d : Document) : Read Document := do
  let isItem ← accept '['
  let (path, name) ← key
  expect ']'
  if isItem then
    expect ']'
    Document.change (d.entries.openItem path name) (path ++ [name])
  else Document.change (d.entries.openTable path name) (path ++ [name])

/-- A key with its value. -/
def pair (d : Document) : Read Document := do
  let (path, name) ← key
  expect '='
  skipBlanks
  let v ← value (depthLimit - 1) (2 * (← get).length + 2)
  Document.change (d.entries.assignIn d.header path name v) d.header

/-- One line: nothing, a header, or a key with its value. -/
def line (d : Document) : Read Document := do
  skipBlanks
  match ← get with
  | [] | '#' :: _ | '\n' :: _ | '\r' :: _ => pure d
  | '[' :: rest => do
    set rest
    header d
  | _ => pair d

def lines : Nat → Document → Read Document
  | 0, _ => refuse
  | fuel + 1, d => do
    if (← get).isEmpty then pure d
    else
      let d ← line d
      endLine
      lines fuel d

/-- The object that a text describes; a byte order mark at its front is let pass. -/
def read? (text : String) : Option Json :=
  let cs := match text.toList with
    | '\ufeff' :: rest => rest
    | cs => cs
  (lines (cs.length + 1) {} cs).map fun (d, _) => (Item.table .header d.entries).toJson

end Specimen.Toml
