import Specimen.Proofs.Regex.Characters
import Specimen.Proofs.Regex.Language
/-!
# Walks that tell what they do

`Traced.write` walks through a tree like `write` and tells on the way what it does: how many
words it takes from the source, which characters it writes, and which anchors it executes. What
is done inside a capturing group is told once more when the group is closed. A `Recital` of a
plain draw is a draw that does the same and tells it.
-/

namespace Specimen.Regex

open Specimen.Random

/-- What a walk does. -/
inductive Step where
  /-- So many words are taken from the source. -/
  | draw (words : Nat)
  /-- A construct writes a character. -/
  | write (c : Char)
  /-- A word boundary is filled. -/
  | fill (c : Char)
  /-- An anchor is executed. -/
  | anchor (a : Anchor)
  deriving DecidableEq

/-- What a walk did, and what it did inside each capturing group, in the order of their ends. -/
structure Trace where
  steps : List Step := []
  groups : List (Nat × List Step) := []

namespace Trace

instance : Append Trace := ⟨fun a b => ⟨a.steps ++ b.steps, a.groups ++ b.groups⟩⟩

@[simp] theorem steps_append (a b : Trace) : (a ++ b).steps = a.steps ++ b.steps := rfl

@[simp] theorem groups_append (a b : Trace) : (a ++ b).groups = a.groups ++ b.groups := rfl

theorem append_empty (a : Trace) : a ++ ({} : Trace) = a := by
  show Trace.mk (a.steps ++ []) (a.groups ++ []) = a
  rw [List.append_nil, List.append_nil]

end Trace

/-- How many words some steps take from the source. -/
def wordsDrawn : List Step → Nat
  | [] => 0
  | .draw n :: es => n + wordsDrawn es
  | _ :: es => wordsDrawn es

theorem wordsDrawn_append (es fs : List Step) :
    wordsDrawn (es ++ fs) = wordsDrawn es + wordsDrawn fs := by
  induction es with
  | nil => simp [wordsDrawn]
  | cons e es ih => cases e <;> simp [wordsDrawn, ih, Nat.add_assoc]

/-- A draw that tells what it did, if the source lasts. -/
def Traced (α : Type) := Source → Option (α × Trace × Source)

namespace Traced

variable {α β : Type}

instance : Monad Traced where
  pure a := fun s => some (a, {}, s)
  bind x f := fun s =>
    (x s).bind fun first => (f first.1 first.2.2).map fun second =>
      (second.1, first.2.1 ++ second.2.1, second.2.2)

/-- A plain draw, told by the number of words that it takes. -/
def draw (d : Draw α) : Traced α := fun s =>
  (d s).map fun result => (result.1, ⟨[.draw (s.remaining - result.2.remaining)], []⟩, result.2)

/-- Steps that take nothing from the source. -/
def tell (steps : List Step) (a : α) : Traced α := fun s => some (a, ⟨steps, []⟩, s)

/-! ## Characters -/

def push (d : Draft) (c : Char) : Traced Draft :=
  match d.boundary with
  | none => tell [.write c] { d with text := d.text.push c }
  | some position => do
    let before := if position = 0 then none else d.text[position - 1]?
    match ← draw (Draft.filler before c) with
    | none => tell [.write c] { d with text := d.text.push c, boundary := none }
    | some f =>
      tell [.fill f, .write c] { d with text := (d.text.push f).push c, boundary := none }

def pushAll (d : Draft) : List Char → Traced Draft
  | [] => pure d
  | c :: cs => do pushAll (← push d c) cs

def pushOption (d : Draft) : Option Char → Traced Draft
  | none => pure d
  | some c => push d c

/-! ## Constructs -/

def writeTimes (step : Draft → Traced Draft) : Nat → Draft → Traced Draft
  | 0, d => pure d
  | n + 1, d => if d.ended then pure d else do writeTimes step n (← step d)

def writeUpTo (step : Draft → Traced Draft) : Nat → Draft → Traced Draft
  | 0, d => pure d
  | n + 1, d =>
    if d.ended then pure d
    else do
      if ← draw Draw.coin then pure d else writeUpTo step n (← step d)

def writeOn (step : Draft → Traced Draft) (d : Draft) : Traced Draft := fun s =>
  writeUpTo step (s.remaining + 1) d s

def writeRepeated (step : Draft → Traced Draft) (least : Nat) (most : Option Nat) (d : Draft) :
    Traced Draft :=
  match most with
  | none => do writeOn step (← writeTimes step least d)
  | some m => do writeUpTo step (m - least) (← writeTimes step (min least m) d)

/-- Records the text of a group, and tells what was done inside if it captures. -/
def close (opened : Draft) (index : Option Nat) (body : Traced Draft) : Traced Draft := fun s =>
  (body s).map fun result =>
    (result.1.capture opened index,
      { result.2.1 with
        groups := result.2.1.groups ++ index.toList.map fun i => (i, result.2.1.steps) },
      result.2.2)

mutual

/-- `Regex.write`, told step by step. -/
def write : Construct → Draft → Traced Draft
  | c, d => if d.ended then pure d else writeConstruct c d

def writeConstruct : Construct → Draft → Traced Draft
  | .empty, d => pure d
  | .skipped _, d => pure d
  | .literal c, d => push d c
  | .notLiteral c, d => do push d (← draw (otherAscii c))
  | .any, d => do push d (Char.ofNat (0x20 + (← draw (Draw.below32 95))))
  | .charClass negated items, d => do pushOption d (← draw (classChar negated items))
  | .concat items, d => writeAll items d
  | .alternation branches, d =>
    match branches with
    | [] => pure d
    | branches => do writeNth branches (← draw (Draw.index branches.length)) d
  | .repetition least most body, d => writeRepeated (fun d => write body d) least most d
  | .group index body, d => close d index (write body d)
  | .backref index, d => pushAll d ((d.captures.lookup index).getD [])
  | .anchor a, d => tell [.anchor a] (d.anchor a)

def writeAll : List Construct → Draft → Traced Draft
  | [], d => pure d
  | c :: cs, d => do writeAll cs (← write c d)

def writeNth : List Construct → Nat → Draft → Traced Draft
  | [], _, d => pure d
  | c :: _, 0, d => write c d
  | _ :: cs, n + 1, d => writeNth cs n d

end

theorem bind_eq_some {x : Traced α} {f : α → Traced β} {s t : Source} {b : β} {trace : Trace} :
    (x >>= f) s = some (b, trace, t) ↔
      ∃ a first u second, x s = some (a, first, u) ∧ f a u = some (b, second, t) ∧
        trace = first ++ second := by
  change ((x s).bind fun first => (f first.1 first.2.2).map fun second =>
    (second.1, first.2.1 ++ second.2.1, second.2.2)) = some (b, trace, t) ↔ _
  constructor
  · intro h
    obtain ⟨⟨a, first, u⟩, hx, h⟩ := Option.bind_eq_some_iff.1 h
    obtain ⟨⟨b', second, t'⟩, hf, h⟩ := Option.map_eq_some_iff.1 h
    cases h
    exact ⟨a, first, u, second, hx, hf, rfl⟩
  · rintro ⟨a, first, u, second, hx, hf, rfl⟩
    exact Option.bind_eq_some_iff.2 ⟨_, hx, Option.map_eq_some_iff.2 ⟨_, hf, rfl⟩⟩

end Traced

/-! ## Telling and doing -/

/-- A traced draw does the same as a plain one, tells how many words it takes, and its value and
what it tells are related. -/
structure Recital {α : Type} (x : Traced α) (d : Draw α) (Q : α → Trace → Prop) : Prop where
  same : ∀ s, (x s).map (fun result => (result.1, result.2.2)) = d s
  words : ∀ {s a trace t}, x s = some (a, trace, t) →
    s.remaining = t.remaining + wordsDrawn trace.steps
  related : ∀ {s a trace t}, x s = some (a, trace, t) → Q a trace

namespace Recital

variable {α β : Type} {x : Traced α} {d : Draw α} {Q R : α → Trace → Prop}

theorem mono (h : Recital x d Q) (hQ : ∀ a trace, Q a trace → R a trace) : Recital x d R :=
  ⟨h.same, h.words, fun hx => hQ _ _ (h.related hx)⟩

theorem pure {a : α} (h : Q a {}) : Recital (pure a) (pure a) Q := by
  refine ⟨fun s => rfl, fun hx => ?_, fun hx => ?_⟩
  · cases hx
    rfl
  · cases hx
    exact h

theorem tell {steps : List Step} {a : α} (hwords : wordsDrawn steps = 0) (h : Q a ⟨steps, []⟩) :
    Recital (.tell steps a) (Pure.pure a) Q := by
  refine ⟨fun s => rfl, fun hx => ?_, fun hx => ?_⟩
  · cases hx
    rw [hwords, Nat.add_zero]
  · cases hx
    exact h

theorem draw (hkeeps : d.Keeps) {P : α → Prop} (hP : ∀ s a t, d s = some (a, t) → P a) :
    Recital (.draw d) d fun a trace => P a ∧ ∃ n, trace = ⟨[.draw n], []⟩ := by
  refine ⟨fun s => ?_, fun {s a trace t} hx => ?_, fun {s a trace t} hx => ?_⟩
  · show ((d s).map _).map _ = d s
    cases d s <;> rfl
  · obtain ⟨result, hd, hx⟩ := Option.map_eq_some_iff.1 hx
    cases hx
    have hle := hkeeps s _ _ hd
    simp only [wordsDrawn]
    omega
  · obtain ⟨result, hd, hx⟩ := Option.map_eq_some_iff.1 hx
    cases hx
    exact ⟨hP s _ _ hd, _, rfl⟩

theorem bind {f : α → Traced β} {g : α → Draw β} {S : β → Trace → Prop} (hx : Recital x d Q)
    (hf : ∀ a first, Q a first → Recital (f a) (g a) fun b second => S b (first ++ second)) :
    Recital (x >>= f) (d >>= g) S := by
  refine ⟨fun s => ?_, fun h => ?_, fun h => ?_⟩
  · have hsame := hx.same s
    change ((x s).bind fun first => (f first.1 first.2.2).map _).map _ =
      (d s).bind fun result => g result.1 result.2
    rw [← hsame]
    cases hfirst : x s with
    | none => rfl
    | some first =>
        obtain ⟨a, trace, u⟩ := first
        have hrest := (hf a trace (hx.related hfirst)).same u
        rw [Option.map_some, Option.bind_some, Option.bind_some, ← hrest, Option.map_map]
        rfl
  · obtain ⟨a, first, u, second, hfirst, hsecond, rfl⟩ := Traced.bind_eq_some.1 h
    have hle := hx.words hfirst
    have hle' := (hf a first (hx.related hfirst)).words hsecond
    rw [Trace.steps_append, wordsDrawn_append]
    omega
  · obtain ⟨a, first, u, second, hfirst, hsecond, rfl⟩ := Traced.bind_eq_some.1 h
    exact (hf a first (hx.related hfirst)).related hsecond

/-- What is told of a plain result. -/
theorem exists_trace (h : Recital x d Q) {s t : Source} {a : α} (hd : d s = some (a, t)) :
    ∃ trace, x s = some (a, trace, t) ∧ s.remaining = t.remaining + wordsDrawn trace.steps ∧
      Q a trace := by
  rw [← h.same s] at hd
  obtain ⟨⟨a', trace, t'⟩, hx, hsame⟩ := Option.map_eq_some_iff.1 hd
  cases hsame
  exact ⟨trace, hx, h.words hx, h.related hx⟩

end Recital

end Specimen.Regex
