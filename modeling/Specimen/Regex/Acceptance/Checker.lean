import Specimen.Regex.Acceptance.Automaton
import Specimen.Regex.Acceptance.Reader
/-!
# Checkers

A pattern has a checker for whole texts if the dialect can read it and its rule can be run: plain
parts are left to automata, which must have room, and what looks behind must be plain or know how
far to look.
-/

namespace Specimen.Regex.Acceptance

namespace Rule

/-- Whether a rule can be left to an automaton; an `inner` one cannot,
for it may be left again. -/
def isWhole (refs : List Nat) (inner : Bool) (r : Rule) : Bool := !inner && (r.shape refs).plain

/-- How many rules at the start of a list are left to an automaton together. -/
def plainStart (shapes : List Shape) : Nat :=
  (shapes.takeWhile fun s => s.fixed && s.plain).length

/-- How many rules at the end of a list are left to an automaton together. -/
def plainEnd (inner : Bool) (shapes : List Shape) : Nat :=
  (shapes.reverse.takeWhile fun s => s.plain && (!inner || s.fixed)).length

/-- Whether a rule can look behind: it is plain or knows how far, and so is each alternative. -/
def looksBehind (refs : List Nat) : Rule → Bool
  | .alternation branches => branches.all fun r =>
    let s := r.shape refs
    s.fixed || s.plain
  | r =>
    let s := r.shape refs
    s.fixed || s.plain

mutual

/-- Whether the parts of a rule can be run. -/
def partsRun (refs : List Nat) : Rule → Bool → Bool
  | .concat items, inner =>
    let ss := shapes refs items
    let start := plainStart ss
    let stop := items.length - plainEnd inner (ss.drop start)
    (Rule.concat (items.take start)).hasAutomaton &&
      (Rule.concat (items.drop stop)).hasAutomaton && middleRuns refs start stop items
  | .alternation branches, inner => branchesRun refs inner branches
  | .repetition least most _ body, inner =>
    let inner := inner || !((least = 0 && most = some 1) || (body.shape refs).plain)
    if body.isWhole refs inner then body.hasAutomaton else partsRun refs body inner
  | .group _ body, inner =>
    if body.isWhole refs inner then body.hasAutomaton else partsRun refs body inner
  | .atomic body, _ =>
    if body.isWhole refs false then body.hasAutomaton else partsRun refs body false
  | .look behind _ body, _ =>
    (!behind || body.looksBehind refs) &&
      if body.isWhole refs false then body.hasAutomaton else partsRun refs body false
  | .conditional test yes no, inner =>
    (if test.isWhole refs inner then test.hasAutomaton else partsRun refs test inner) &&
      (if yes.isWhole refs inner then yes.hasAutomaton else partsRun refs yes inner) &&
        if no.isWhole refs inner then no.hasAutomaton else partsRun refs no inner
  | _, _ => true

/-- Whether the rules of a list from the place `start` to the place `stop` can be run. -/
def middleRuns (refs : List Nat) : Nat → Nat → List Rule → Bool
  | _, _, [] => true
  | _, 0, _ => true
  | 0, stop + 1, r :: rs => partsRun refs r true && middleRuns refs 0 stop rs
  | start + 1, stop + 1, _ :: rs => middleRuns refs start stop rs

def branchesRun (refs : List Nat) (inner : Bool) : List Rule → Bool
  | [] => true
  | r :: rs =>
    (if r.isWhole refs inner then r.hasAutomaton else partsRun refs r inner) &&
      branchesRun refs inner rs

end

/-- Whether a rule can be run. -/
def canRun (r : Rule) (refs : List Nat) : Bool :=
  if r.isWhole refs false then r.hasAutomaton else r.partsRun refs false

end Rule

/-- The check that a pattern puts on a whole text, if there is one. -/
def check? (pattern : String) : Option (String → Bool) := do
  let (rule, refs) ← read? ("\\A(?:" ++ pattern ++ ")\\z")
  if rule.canRun refs then pure (rule.accepts refs) else none

end Specimen.Regex.Acceptance
