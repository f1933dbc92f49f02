import Specimen.Regex.Acceptance.Shape
/-!
# The automaton of a plain rule

A plain rule is run by an automaton over UTF-8 bytes, once from its start and once from its end.
Repetition copies its body, so an automaton may become too large to be built. `Rule.size` is what
it takes, in bytes, and `Rule.hasAutomaton` says whether there is room for it.
-/

namespace Specimen.Regex.Acceptance

open Text

/-! ## Bytes of sets -/

/-- The code points at which membership in a set may change, in no order. -/
def rangeCuts (rs : Ranges) : List Nat := rs.flatMap fun (first, last) => [first, last + 1]

def charCuts (cs : List Char) : List Nat := cs.flatMap fun c => [c.toNat, c.toNat + 1]

/-- The case variants of the characters of a short range, and of ASCII for a long one. -/
def foldCuts (first last : Char) : List Nat :=
  let codes :=
    if last.toNat - first.toNat < 512 then
      List.range' first.toNat (last.toNat - first.toNat + 1)
    else List.range' 0x41 0x3A
  charCuts (codes.flatMap fun n => foldClass (Char.ofNat n))

mutual

def CharSet.cuts (fold : Bool) : CharSet → List Nat
  | .char c => if fold then charCuts (foldClass c) else charCuts [c]
  | .range first last =>
    first.toNat :: (last.toNat + 1) :: if fold then foldCuts first last else []
  | .digit => rangeCuts decimalDigitRanges
  | .space => rangeCuts blankRanges
  | .word => rangeCuts (letterRanges ++ decimalDigitRanges ++ wordJoinRanges)
  | .named _ => 0x212A :: 0x212B :: 0x17F :: 0x180 :: List.range 129
  | .union sets => allCuts fold sets
  | .combine _ left right => left.cuts fold ++ right.cuts fold
  | .complement s => s.cuts fold

def allCuts (fold : Bool) : List CharSet → List Nat
  | [] => []
  | s :: rest => s.cuts fold ++ allCuts fold rest

end

/-- The range from each cut to the one before the next, if it lies in the set. -/
def rangesBetween (has : Char → Bool) : List Nat → Ranges
  | a :: b :: rest =>
    let more := rangesBetween has (b :: rest)
    if a < b ∧ Nat.isValidChar a ∧ has (Char.ofNat a) then (a, b - 1) :: more else more
  | _ => []

/-- Ranges that touch, as one. -/
def joinRanges : Ranges → Ranges
  | [] => []
  | (a, b) :: rest =>
    match joinRanges rest with
    | (c, d) :: more => if c = b + 1 then (a, d) :: more else (a, b) :: (c, d) :: more
    | [] => [(a, b)]

/-- The characters of a set as ranges. -/
def CharSet.ranges (set : CharSet) (fold : Bool) : Ranges :=
  let cuts := 0 :: 0xD800 :: 0xE000 :: 0x110000 :: set.cuts fold
  joinRanges (rangesBetween (set.has fold) (cuts.mergeSort (· ≤ ·)))

/-- Ranges of bytes, one after the other. -/
abbrev ByteRanges := List (Nat × Nat)

/-- The numbers from `first` to `last` by their digits in base 64, of
which `n` follow the first. -/
def digitRanges : Nat → Nat → Nat → List ByteRanges
  | 0, first, last => [[(first, last)]]
  | n + 1, first, last =>
    let unit := Nat.pow 64 (n + 1)
    let (a, low) := (first / unit, first % unit)
    let (b, high) := (last / unit, last % unit)
    let all (a b : Nat) : ByteRanges := (a, b) :: List.replicate (n + 1) (0, 63)
    let within (d low high : Nat) : List ByteRanges := (digitRanges n low high).map ((d, d) :: ·)
    if a = b then if low = 0 ∧ high = unit - 1 then [all a a] else within a low high
    else
      let start := if low = 0 then a else a + 1
      let stop := if high = unit - 1 then b + 1 else b
      (if low = 0 then [] else within a low (unit - 1)) ++
        (if start < stop then [all start (stop - 1)] else []) ++
          if high = unit - 1 then [] else within b 0 high

/-- The UTF-8 bytes of the code points from `first` to `last`. -/
def utf8Ranges (first last : Nat) : List ByteRanges :=
  let lengths :=
    [(0, 0x7F, 0), (0x80, 0x7FF, 0xC0), (0x800, 0xFFFF, 0xE0), (0x10000, 0x10FFFF, 0xF0)]
  lengths.zipIdx.flatMap fun ((low, high, lead), follow) =>
    let a := max first low
    let b := min last high
    if b < a then []
    else
      (digitRanges follow a b).map fun digits =>
        digits.zipIdx.map fun ((x, y), i) =>
          let mark := if i = 0 then lead else 0x80
          (x + mark, y + mark)

/-- The ways on from a state with these ways to an end, by their first bytes. -/
def branches (ways : List ByteRanges) : List (List ByteRanges) :=
  (ways.splitBy fun a b => a.head? = b.head?).map fun ways => ways.map List.tail

/-- The states that are reached in so many steps, each as the ways from it to an end. -/
def states : Nat → List ByteRanges → List (List ByteRanges)
  | 0, _ => []
  | n + 1, ways =>
    if ways.all List.isEmpty then [] else ways :: (branches ways).flatMap (states n)

/-- How many bytes of each way are not shared with the way before it. -/
def unshared : ByteRanges → List ByteRanges → Nat
  | _, [] => 0
  | before, way :: rest =>
    let shared := ((before.zip way).takeWhile fun (a, b) => a = b).length
    way.length - shared + unshared way rest

/-! ## Sizes -/

/-- What a state takes, without its transitions. -/
def stateSize : Nat := 32

/-- What a transition over bytes takes. -/
def transitionSize : Nat := 8

/-- What a transition over nothing takes. -/
def jumpSize : Nat := 4

/-- What the automaton of a set takes. Forward it has each state once, backward it is a tree. -/
def CharSet.size (backward : Bool) (set : CharSet) (fold : Bool) : Nat :=
  let rs := set.ranges fold
  let ways := rs.flatMap fun (a, b) => utf8Ranges a b
  match rs with
  | [] => stateSize
  | (a, b) :: rest =>
    if a = b ∧ rest = [] then stateSize * (Char.ofNat a).utf8Size
    else if rs.all (·.2 < 128) then 2 * stateSize + transitionSize * rs.length
    else if backward then
      2 * stateSize + jumpSize * ways.length + stateSize * unshared [] ways
    else
      (states 5 ways).eraseDups.foldl
        (fun n s => n + (stateSize + transitionSize * (branches s).length)) stateSize

/-- The set of a rule for one character. -/
def Rule.charSet? : Rule → Option (CharSet × Bool)
  | .one set fold => some (set, fold)
  | .any true => some (.complement (.union []), false)
  | .any false => some (.complement (.char '\n'), false)
  | _ => none

/-- What a choice between two ways takes. -/
def forkSize : Nat := stateSize + 2 * jumpSize

namespace Rule

mutual

/-- Whether a rule takes no characters. -/
def isStill : Rule → Bool
  | .empty | .assertion _ => true
  | .concat items => allStill items
  | .alternation branches => allStill branches
  | .repetition _ most _ body => most = some 0 || body.isStill
  | .group _ body => body.isStill
  | _ => false

def allStill : List Rule → Bool
  | [] => true
  | r :: rs => r.isStill && allStill rs

end

mutual

/-- What the automaton of a plain rule takes. -/
def size (backward : Bool) : Rule → Nat
  | .one set fold => set.size backward fold
  | .any newline => ((any newline).charSet?.map fun (s, f) => s.size backward f).getD 0
  | .concat items => sizes backward items
  | .alternation branches =>
    match branches.mapM charSet? with
    | some sets =>
      CharSet.size backward (.union (sets.map (·.1))) (sets.any (·.2))
    | none => sizes backward branches + 2 * stateSize + jumpSize * branches.length
  | .group _ body => body.size backward + if backward then 0 else 2 * stateSize
  | .repetition least most _ body =>
    let least := if body.isStill then min least 1 else least
    let most := if body.isStill then some (min (most.getD 1) 1) else most
    let once := body.size backward
    match most with
    | none =>
      if least = 0 then once + if body.shape [] |>.least |> (0 < ·) then forkSize
        else 2 * forkSize + stateSize
      else least * once + forkSize
    | some most =>
      if most = least then max stateSize (least * once)
      else max stateSize (least * once) + stateSize + (most - least) * (once + forkSize)
  | _ => stateSize

def sizes (backward : Bool) : List Rule → Nat
  | [] => 0
  | r :: rs => r.size backward + sizes backward rs

end

mutual

/-- How many pieces a rule has when every repetition is written out. -/
def pieces : Rule → Nat
  | .concat items => allPieces items
  | .alternation branches => allPieces branches + 1
  | .group _ body => body.pieces + 1
  | .repetition least most _ body => (max (least + 1) (most.getD 0)) * (body.pieces + 1)
  | _ => 1

def allPieces : List Rule → Nat
  | [] => 1
  | r :: rs => r.pieces + allPieces rs

end

mutual

/-- Whether all bounds of repetitions are in order and fit in 32 bits. -/
def boundsFit : Rule → Bool
  | .concat items => allBoundsFit items
  | .alternation branches => allBoundsFit branches
  | .group _ body => body.boundsFit
  | .repetition least most _ body =>
    least < UInt32.size && most.all (fun m => least ≤ m && m < UInt32.size) && body.boundsFit
  | _ => true

def allBoundsFit : List Rule → Bool
  | [] => true
  | r :: rs => r.boundsFit && allBoundsFit rs

end

/-- How much an automaton may take. -/
def sizeLimit : Nat := 10 * 1024 * 1024

/-- Whether there is room for the automaton of a plain rule. Of a few
pieces no one is that large. -/
def hasAutomaton (r : Rule) : Bool :=
  r.boundsFit &&
    (r.pieces ≤ 64 || (r.size false + 5 * stateSize ≤ sizeLimit && r.size true ≤ sizeLimit))

end Rule

end Specimen.Regex.Acceptance
