import Specimen.Regex.Construct
import Specimen.Random.Draw
/-!
# Random text of a construct tree

A `Draft` is the text written so far with what the constructs need to know about it. `write` adds
the text of a construct: a repetition is continued by coin flips past its minimum, a group
records its text for the references to it, a start anchor throws away what was written before it
and an end anchor lets nothing be written after it. A word boundary is made true by a filler in
front of the next character, where that is needed.
-/

namespace Specimen.Regex

structure Draft where
  text : Array Char := #[]
  /-- The text of each group, the latest first. -/
  captures : List (Nat × List Char) := []
  /-- How many start anchors have thrown the text away. -/
  restarts : Nat := 0
  /-- The length of the text at a word boundary that is still to be made true. -/
  boundary : Option Nat := none
  /-- Whether an end anchor was met. -/
  ended : Bool := false

/-- The characters of ASCII, in ascending order. -/
def ascii : List Char := (List.range 128).map Char.ofNat

/-- The characters that fill a word boundary after a character that is not of a word. -/
def wordFillers : List Char := "abcdefghijklmnopqrstuvwxyz0123456789_".toList

namespace Draft

/-- The filler that a word boundary needs between two characters: none if they differ in kind. -/
def filler (before : Option Char) (c : Char) : Draw (Option Char) :=
  let beforeIsWord := before.any isWordChar
  if beforeIsWord = isWordChar c then
    if beforeIsWord then pure (some ' ') else Draw.pick wordFillers
  else pure none

/-- Writes a character, after the filler of a boundary that waits for it. -/
def push (d : Draft) (c : Char) : Draw Draft :=
  match d.boundary with
  | none => pure { d with text := d.text.push c }
  | some position => do
    let before := if position = 0 then none else d.text[position - 1]?
    match ← filler before c with
    | none => pure { d with text := d.text.push c, boundary := none }
    | some f => pure { d with text := (d.text.push f).push c, boundary := none }

def pushAll (d : Draft) : List Char → Draw Draft
  | [] => pure d
  | c :: cs => do (← d.push c).pushAll cs

def pushOption (d : Draft) : Option Char → Draw Draft
  | none => pure d
  | some c => d.push c

def anchor (d : Draft) : Anchor → Draft
  | .start => { d with text := #[], restarts := d.restarts + 1, boundary := none }
  | .stop => { d with ended := true }
  | .wordBoundary => { d with boundary := some d.text.size }
  | .notWordBoundary => d

/-- Records the text of a group that was opened at an earlier state of the draft. -/
def capture (d : Draft) (opened : Draft) (index : Option Nat) : Draft :=
  match index with
  | none => d
  | some i =>
    let text :=
      if opened.restarts = d.restarts then d.text.toList.drop opened.text.size else d.text.toList
    { d with captures := (i, text) :: d.captures }

end Draft

/-! ## Characters -/

/-- A character of ASCII other than `c`. -/
def otherAscii (c : Char) : Draw Char := do
  let n ← Draw.repeatUntil (Draw.below32 128) (Draw.shrinks_below32 128)
    fun n => Char.ofNat n ≠ c
  pure (Char.ofNat n)

/-- A character from `first` to `last`; a code that is no character gives `first`. -/
def charBetween (first last : Char) : Draw Char := do
  let n := first.toNat + (← Draw.below32 (last.toNat - first.toNat + 1))
  pure (if n < 0xD800 ∨ 0xDFFF < n then Char.ofNat n else first)

/-- A member of a class item; the categories have those of ASCII. -/
def itemChar : ClassItem → Draw (Option Char)
  | .char c => pure (some c)
  | .range first last => do pure (some (← charBetween first last))
  | .category k => Draw.pick (ascii.filter k.has)

/-- A character of a class, if it has one. -/
def classChar (negated : Bool) (items : List ClassItem) : Draw (Option Char) :=
  if negated then Draw.pick (ascii.filter fun c => !items.any (·.has c))
  else do
    match ← Draw.pick items with
    | none => pure none
    | some i => itemChar i

/-! ## Repetition -/

/-- So many steps, unless the draft ends before. -/
def writeTimes (step : Draft → Draw Draft) : Nat → Draft → Draw Draft
  | 0, d => pure d
  | n + 1, d => if d.ended then pure d else do writeTimes step n (← step d)

/-- At most so many steps, each after a coin that says to go on. -/
def writeUpTo (step : Draft → Draw Draft) : Nat → Draft → Draw Draft
  | 0, d => pure d
  | n + 1, d =>
    if d.ended then pure d
    else do
      if ← Draw.coin then pure d else writeUpTo step n (← step d)

/-- Steps after coins that say to go on; the coins take words of the source, so it ends. -/
def writeOn (step : Draft → Draw Draft) (d : Draft) : Draw Draft := fun s =>
  writeUpTo step (s.remaining + 1) d s

/-- From `least` to `most` steps. -/
def writeRepeated (step : Draft → Draw Draft) (least : Nat) (most : Option Nat) (d : Draft) :
    Draw Draft :=
  match most with
  | none => do writeOn step (← writeTimes step least d)
  | some m => do writeUpTo step (m - least) (← writeTimes step (min least m) d)

/-! ## Constructs -/

mutual

/-- Writes the text of a construct, unless the draft has ended. -/
def write : Construct → Draft → Draw Draft
  | c, d => if d.ended then pure d else writeConstruct c d

def writeConstruct : Construct → Draft → Draw Draft
  | .empty, d => pure d
  | .skipped _, d => pure d
  | .literal c, d => d.push c
  | .notLiteral c, d => do d.push (← otherAscii c)
  | .any, d => do d.push (Char.ofNat (0x20 + (← Draw.below32 95)))
  | .charClass negated items, d => do d.pushOption (← classChar negated items)
  | .concat items, d => writeAll items d
  | .alternation branches, d =>
    match branches with
    | [] => pure d
    | branches => do writeNth branches (← Draw.index branches.length) d
  | .repetition least most body, d => writeRepeated (fun d => write body d) least most d
  | .group index body, d => do pure ((← write body d).capture d index)
  | .backref index, d => d.pushAll ((d.captures.lookup index).getD [])
  | .anchor a, d => pure (d.anchor a)

def writeAll : List Construct → Draft → Draw Draft
  | [], d => pure d
  | c :: cs, d => do writeAll cs (← write c d)

def writeNth : List Construct → Nat → Draft → Draw Draft
  | [], _, d => pure d
  | c :: _, 0, d => write c d
  | _ :: cs, n + 1, d => writeNth cs n d

end

/-- The text of one walk through a tree. -/
def candidate (c : Construct) : Draw String := do
  pure (String.ofList (← write c {}).text.toList)

end Specimen.Regex
