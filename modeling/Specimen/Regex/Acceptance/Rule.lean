import Specimen.Regex.Acceptance.CharSet
/-!
# Acceptance rules

A rule says which texts are accepted. It is run from a place in the text, a position with the
spans of the groups that the rule refers to, and gives the places where it can end, in the order
of preference and each once. An atomic rule keeps only the first.
-/

namespace Specimen.Regex.Acceptance

/-- A condition on a position. -/
inductive Assertion where
  | textStart
  | textEnd
  /-- Nothing but line breaks follows. -/
  | blankEnd
  | lineStart
  | lineEnd
  | wordBoundary
  | notWordBoundary
  | wordStart
  | wordEnd
  /-- No word character stands before. -/
  | wordStartHalf
  /-- No word character follows. -/
  | wordEndHalf
  deriving DecidableEq, Repr

/-- What a text must be like from a position on. -/
inductive Rule where
  | empty
  /-- One character of a set; with `fold`, up to case. -/
  | one (set : CharSet) (fold : Bool)
  /-- One character of any kind; a line break only with `newline`. -/
  | any (newline : Bool)
  | assertion (a : Assertion)
  | concat (items : List Rule)
  | alternation (branches : List Rule)
  | repetition (least : Nat) (most : Option Nat) (lazy : Bool) (body : Rule)
  | group (index : Nat) (body : Rule)
  | backref (index : Nat) (fold : Bool)
  /-- The first way to match the body, and no other. -/
  | atomic (body : Rule)
  | look (behind negative : Bool) (body : Rule)
  /-- A group has begun. -/
  | groupSet (index : Nat)
  | conditional (test yes no : Rule)
  deriving Inhabited, Repr

/--
Where a group began last and where it ended last. A group that has begun again still has the end
of the time before.
-/
structure Span where
  start : Option Nat := none
  stop : Option Nat := none
  deriving DecidableEq, Repr

/-- A position, and the spans of some groups by their numbers. -/
structure Place where
  position : Nat
  spans : List (Nat × Span)
  deriving DecidableEq, Repr

namespace Place

/-- The start of a text, with no group begun. -/
def start (groups : List Nat) : Place := ⟨0, groups.map fun i => (i, {})⟩

def span (p : Place) (index : Nat) : Span := (p.spans.lookup index).getD {}

/-- Changes the span of a group, if it is one of those that are kept. -/
def update (p : Place) (index : Nat) (f : Span → Span) : Place :=
  { p with spans := p.spans.map fun (i, s) => (i, if i = index then f s else s) }

/-- A group begins here. -/
def enter (p : Place) (index : Nat) : Place :=
  p.update index fun s => { s with start := some p.position }

/-- A group ends here. -/
def leave (p : Place) (index : Nat) : Place :=
  p.update index fun s => { s with stop := some p.position }

end Place

/-- The places of a list, each at its first occurrence. -/
def distinct (ps : List Place) : List Place :=
  (ps.foldl (fun acc p => if acc.contains p then acc else p :: acc) []).reverse

/-! ## Leaves -/

def wordAt (text : Array Char) (position : Nat) : Bool :=
  (text[position]?).any Text.isWordChar

def wordBefore (text : Array Char) (position : Nat) : Bool :=
  match position with
  | 0 => false
  | n + 1 => wordAt text n

def Assertion.holds (a : Assertion) (text : Array Char) (position : Nat) : Bool :=
  let before := wordBefore text position
  let after := wordAt text position
  match a with
  | textStart => position = 0
  | textEnd => position = text.size
  | blankEnd => (text.toList.drop position).all (· = '\n')
  | lineStart => position = 0 || text[position - 1]? = some '\n'
  | lineEnd => position = text.size || text[position]? = some '\n'
  | wordBoundary => before != after
  | notWordBoundary => before == after
  | wordStart => !before && after
  | wordEnd => before && !after
  | wordStartHalf => !before
  | wordEndHalf => !after

/-- The place after a character that satisfies a test. -/
def stepIf (text : Array Char) (test : Char → Bool) (p : Place) : List Place :=
  match text[p.position]? with
  | some c => if test c then [{ p with position := p.position + 1 }] else []
  | none => []

/-! ## References -/

/-- The characters at the start of a text that fill so many bytes, if some do exactly. -/
def leadingBytes : List Char → Nat → Option (List Char)
  | _, 0 => some []
  | [], _ + 1 => none
  | c :: cs, n + 1 =>
    if c.utf8Size ≤ n + 1 then (leadingBytes cs (n + 1 - c.utf8Size)).map (c :: ·) else none

/-- Whether a text begins with another, up to case. -/
def foldBegins : List Char → List Char → Bool
  | [], _ => true
  | _ :: _, [] => false
  | c :: cs, d :: ds => Text.sameFold c d && foldBegins cs ds

/-- Whether a text contains another, up to case. -/
def foldContains (part : List Char) : List Char → Bool
  | [] => part.isEmpty
  | c :: cs => foldBegins part (c :: cs) || foldContains part cs

/--
Whether a text of as many bytes stands for the text of a group. Up to case it does if it
differs only in the case of ASCII letters, and where it has other characters if the group's
text occurs in it up to case.
-/
def repeats (fold : Bool) (group text : List Char) : Bool :=
  group = text ||
    fold &&
      if text.all (·.toNat < 128) then group.map Char.toLower = text.map Char.toLower
      else foldContains group text

/-- The place after the text of a group comes again. -/
def stepBack (text : Array Char) (fold : Bool) (s : Span) (p : Place) : List Place :=
  match s.start, s.stop with
  | some start, some stop =>
    let chars := text.toList
    let group := (chars.drop start).take (stop - start)
    let bytes := group.foldl (fun n c => n + c.utf8Size) 0
    match leadingBytes (chars.drop p.position) bytes with
    | some next =>
      if repeats fold group next then [{ p with position := p.position + next.length }] else []
    | none => []
  | _, _ => []

/-! ## Repetition -/

/-- What a search has seen: where it was with how much to do, and the
places found, last first. -/
structure Search where
  visited : List (Nat × Option Nat × Place) := []
  found : List Place := []

def Search.emit (s : Search) (p : Place) : Search :=
  if s.found.contains p then s else { s with found := p :: s.found }

/--
Searches the ends of from `least` to `most` rounds of a body, depth first. Without a limit a
round past the minimum that stays where it is ends the repetition, so `fuel` beyond the minimum
and the length of the text is never used up.
-/
def explore (body : Place → List Place) (lazy : Bool) :
    Nat → Nat → Option Nat → Place → Search → Search
  | 0, _, _, _, s => s
  | fuel + 1, least, most, p, s =>
    if s.visited.contains (least, most, p) then s
    else
      let s := { s with visited := (least, most, p) :: s.visited }
      let round (s : Search) (q : Place) : Search :=
        if least = 0 ∧ most = none ∧ q.position = p.position then s.emit q
        else explore body lazy fuel (least - 1) (most.map (· - 1)) q s
      if 0 < least then (body p).foldl round s
      else if most = some 0 then s.emit p
      else if lazy then (body p).foldl round (s.emit p)
      else ((body p).foldl round s).emit p

/--
The ends of a repetition. Of more rounds than the text is long some stay where they
are, and one of those is as good as many, so larger bounds are lowered to that. A
maximum below the minimum wins.
-/
def repeatFrom (text : Array Char) (body : Place → List Place) (lazy : Bool) (least : Nat)
    (most : Option Nat) (p : Place) : List Place :=
  let least := min (min least (most.getD least)) (text.size + 2)
  let limit := least + text.size + 2
  (explore body lazy (limit + 1) least (most.map (min limit)) p {}).found.reverse

/-! ## Rules -/

mutual

/-- The places where a rule can end, from a place. -/
def run (text : Array Char) : Rule → Place → List Place
  | .empty, p => [p]
  | .one set fold, p => stepIf text (set.has fold) p
  | .any newline, p => stepIf text (fun c => newline || c ≠ '\n') p
  | .assertion a, p => if a.holds text p.position then [p] else []
  | .concat items, p => runAll text items [p]
  | .alternation branches, p => distinct (runAny text branches p)
  | .repetition least most lazy body, p =>
    repeatFrom text (fun q => run text body q) lazy least most p
  | .group index body, p => distinct ((run text body (p.enter index)).map (·.leave index))
  | .backref index fold, p => stepBack text fold (p.span index) p
  | .atomic body, p => (run text body p).take 1
  | .look behind negative body, p =>
    let ends :=
      if behind then
        (List.range (p.position + 1)).flatMap fun back =>
          (run text body { p with position := p.position - back }).filter fun q =>
            q.position = p.position
      else run text body p
    if negative then if ends.isEmpty then [p] else []
    else distinct (ends.map fun q => { q with position := p.position })
  | .groupSet index, p => if (p.span index).start.isSome then [p] else []
  | .conditional test yes no, p =>
    match run text test p with
    | q :: _ => run text yes q
    | [] => run text no p

def runAll (text : Array Char) : List Rule → List Place → List Place
  | [], ps => ps
  | r :: rs, ps => runAll text rs (distinct (ps.flatMap fun p => run text r p))

def runAny (text : Array Char) : List Rule → Place → List Place
  | [], _ => []
  | r :: rs, p => run text r p ++ runAny text rs p

end

/-- Whether a rule that refers to these groups has a way to match from the start of a text. -/
def Rule.accepts (r : Rule) (groups : List Nat) (text : String) : Bool :=
  !(run text.toList.toArray r (.start groups)).isEmpty

end Specimen.Regex.Acceptance
