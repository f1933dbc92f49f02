import Specimen.Regex.Token
/-!
# Reading regular expressions

The tokens of a pattern are put together by a machine with a stack of the groups that are open.
-/

namespace Specimen.Regex

/-- The part of a group that is read: complete branches and the items of the last, in reverse. -/
structure Level where
  branches : List Construct := []
  items : List Construct := []

namespace Level

def push (l : Level) (c : Construct) : Level := { l with items := c :: l.items }

/-- Ends a branch. -/
def bar (l : Level) : Level := ⟨.sequence l.items.reverse :: l.branches, []⟩

/-- The construct of all that was read. -/
def construct (l : Level) : Construct := .choice l.bar.branches.reverse

end Level

/-- The innermost group, and those around it with what they opened. -/
structure Reader where
  level : Level := {}
  stack : List (Opening × Level) := []

namespace Reader

/-- The construct of a group with the given body. -/
def grouped : Opening → Construct → Construct
  | .group index, body => .group index body
  | .look k, _ => .skipped k

def step (r : Reader) : Token → Except PatternError Reader
  | .atom c => .ok { r with level := r.level.push c }
  | .quantifier least most blame =>
    match r.level.items with
    | [] => fail blame .nothingToRepeat
    | c :: items =>
      let level := { r.level with items := .repetition least most c :: items }
      .ok { r with level }
  | .bar => .ok { r with level := r.level.bar }
  | .opening o => .ok ⟨{}, (o, r.level) :: r.stack⟩
  | .closing position =>
    match r.stack with
    | [] => fail position .unbalancedParenthesis
    | (o, outer) :: stack => .ok ⟨outer.push (grouped o r.level.construct), stack⟩
  | .fault e => .error e

/-- The tree of a pattern of so many characters, if no group is left open. -/
def finish (r : Reader) (length : Nat) : Except PatternError Construct :=
  match r.stack with
  | [] => .ok r.level.construct
  | _ :: _ => fail length (.expected ')')

end Reader

/-- The construct tree of a pattern. -/
def parse (pattern : String) : Except PatternError Construct := do
  let r ← (tokens pattern).foldlM Reader.step {}
  r.finish pattern.length

end Specimen.Regex
