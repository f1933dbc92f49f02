import Specimen.Regex.Acceptance.Rule
/-!
# The shape of a rule

How many characters a rule takes, whether that is the same for all its matches, and whether it is
plain: plain rules need no memory of how they came to match, so an automaton can run them.
-/

namespace Specimen.Regex.Acceptance

structure Shape where
  /-- The fewest characters of a match. -/
  least : Nat := 0
  /-- All matches are of that length. -/
  fixed : Bool := true
  /-- The rule needs no memory. -/
  plain : Bool := true
  deriving DecidableEq, Repr

namespace Shape

/-- One rule after the other. -/
def append (a b : Shape) : Shape := ⟨a.least + b.least, a.fixed && b.fixed, a.plain && b.plain⟩

/-- One rule or the other. -/
def either (a b : Shape) : Shape :=
  ⟨min a.least b.least, a.fixed && b.fixed && a.least = b.least, a.plain && b.plain⟩

/-- The shape of a sequence. -/
def sequence (shapes : List Shape) : Shape := shapes.foldr append {}

/-- The shape of a choice. -/
def choice : List Shape → Shape
  | [] => {}
  | s :: rest => rest.foldl either s

/-- The same match, found with memory. -/
def withMemory (s : Shape) : Shape := { s with plain := false }

end Shape

/-- Whether a condition looks at no more than the ends of a line. -/
def Assertion.isPlain : Assertion → Bool
  | .textStart | .textEnd | .lineStart | .lineEnd => true
  | _ => false

namespace Rule

mutual

/-- The shape of a rule; the groups of `refs` are those that something refers to. -/
def shape (refs : List Nat) : Rule → Shape
  | .empty => {}
  | .one _ _ => { least := 1 }
  | .any _ => { least := 1 }
  | .assertion a => { plain := a.isPlain }
  | .concat items => .sequence (shapes refs items)
  | .alternation branches => .choice (shapes refs branches)
  | .repetition least most _ body =>
    let s := body.shape refs
    ⟨s.least * least, s.fixed && most = some least, s.plain⟩
  | .group index body =>
    let s := body.shape refs
    if refs.contains index then s.withMemory else s
  | .backref _ _ => { fixed := false, plain := false }
  | .atomic body => (body.shape refs).withMemory
  | .look _ _ _ => { plain := false }
  | .groupSet _ => { plain := false }
  | .conditional test yes no =>
    let t := test.shape refs
    let y := yes.shape refs
    let n := no.shape refs
    ⟨t.least + min y.least n.least,
      t.fixed && y.fixed && n.fixed && t.least + y.least = n.least, false⟩

def shapes (refs : List Nat) : List Rule → List Shape
  | [] => []
  | r :: rs => r.shape refs :: shapes refs rs

end

end Rule

end Specimen.Regex.Acceptance
