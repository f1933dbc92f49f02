import Specimen.Proofs.Guarded.Basic
import Specimen.Proofs.Regex.Account
import Specimen.Proofs.Regex.WellFormed
/-!
# A walk through a tree over a text in bytes

`Guarded.write` walks through a tree like `write`, but the text that it writes is a string whose
places are counted in bytes, and what a group captures and what stands before a word boundary are
slices of that string. A slice has a result only between two places inside the text that both lie
between characters, and a range of code points only if it ascends. A walk through the tree of a
pattern never asks for another one (`Tracks.write`): a place that is kept is the end of the text
as it was then, and the text only grows until a start anchor throws it away, place and all.
-/

namespace Specimen

open Specimen.Random Regex

/-- A draft over a string. -/
structure Buffer where
  text : String := ""
  /-- The text of each group, the latest first. -/
  captures : List (Nat × String) := []
  /-- How many start anchors have thrown the text away. -/
  restarts : Nat := 0
  /-- The end of the text at a word boundary that is still to be made true. -/
  boundary : Option String.Pos.Raw := none
  /-- Whether an end anchor was met. -/
  ended : Bool := false

namespace Guarded

/-! ## Slices -/

/-- The text before a place. -/
def sliceTo (text : String) (place : String.Pos.Raw) : Guarded String :=
  if h : place.IsValid text then pure (text.sliceTo (text.pos place h)).copy
  else fault (.noSlice text place.byteIdx)

/-- The text after a place. -/
def sliceFrom (text : String) (place : String.Pos.Raw) : Guarded String :=
  if h : place.IsValid text then pure (text.sliceFrom (text.pos place h)).copy
  else fault (.noSlice text place.byteIdx)

section Slices

variable (before after : String)

theorem isValid_rawEndPos : before.rawEndPos.IsValid (before ++ after) :=
  String.Pos.Raw.isValid_iff_exists_append.2 ⟨before, after, rfl, rfl⟩

theorem splits_pos (h : before.rawEndPos.IsValid (before ++ after)) :
    ((before ++ after).pos before.rawEndPos h).Splits before after :=
  ⟨rfl, String.offset_pos⟩

theorem sliceTo_append : sliceTo (before ++ after) before.rawEndPos = pure before := by
  rw [sliceTo, dif_pos (isValid_rawEndPos before after),
    (String.Pos.splits _).eq_left (splits_pos before after _)]

example : sliceTo "é" ⟨1⟩ = fault (.noSlice "é" 1) := rfl

theorem sliceFrom_append : sliceFrom (before ++ after) before.rawEndPos = pure after := by
  rw [sliceFrom, dif_pos (isValid_rawEndPos before after),
    (String.Pos.splits _).eq_right (splits_pos before after _)]

end Slices

/-! ## Characters -/

/-- `Draft.filler`. -/
def filler (before : Option Char) (c : Char) : GuardedDraw (Option Char) :=
  let beforeIsWord := before.any isWordChar
  if beforeIsWord = isWordChar c then
    if beforeIsWord then pure (some ' ') else pick wordFillers
  else pure none

/-- `Draft.push`. -/
def push (b : Buffer) (c : Char) : GuardedDraw Buffer :=
  match b.boundary with
  | none => pure { b with text := b.text.push c }
  | some place => do
    let before ← sliceTo b.text place
    match ← filler before.toList.getLast? c with
    | none => pure { b with text := b.text.push c, boundary := none }
    | some f => pure { b with text := (b.text.push f).push c, boundary := none }

def pushAll (b : Buffer) : List Char → GuardedDraw Buffer
  | [] => pure b
  | c :: cs => do pushAll (← push b c) cs

def pushOption (b : Buffer) : Option Char → GuardedDraw Buffer
  | none => pure b
  | some c => push b c

/-- `Draft.anchor`. -/
def anchor (b : Buffer) : Anchor → Buffer
  | .start => { b with text := "", restarts := b.restarts + 1, boundary := none }
  | .stop => { b with ended := true }
  | .wordBoundary => { b with boundary := some b.text.rawEndPos }
  | .notWordBoundary => b

/-- `Draft.capture`: without a start anchor inside, what was written
since the group was opened. -/
def capture (b : Buffer) (opened : Buffer) (index : Option Nat) : Guarded Buffer :=
  match index with
  | none => pure b
  | some i => do
    let text ← if opened.restarts = b.restarts then sliceFrom b.text opened.text.rawEndPos
      else pure b.text
    pure { b with captures := (i, text) :: b.captures }

/-- A code point from `first` to `last`. -/
def codePoint (first last : Nat) : GuardedDraw Nat := do
  range first last
  pure (first + (← ofDraw (Draw.below32 (last - first + 1))))

/-- `Regex.otherAscii`, which asks for the same range at each try. -/
def otherAscii (c : Char) : GuardedDraw Char := do
  range 0 0x7f
  ofDraw (Regex.otherAscii c)

/-- `Regex.charBetween`. -/
def charBetween (first last : Char) : GuardedDraw Char := do
  let n ← codePoint first.toNat last.toNat
  pure (if n < 0xD800 ∨ 0xDFFF < n then Char.ofNat n else first)

/-- `Regex.itemChar`. -/
def itemChar : ClassItem → GuardedDraw (Option Char)
  | .char c => pure (some c)
  | .range first last => do pure (some (← charBetween first last))
  | .category k => pick (ascii.filter k.has)

/-- `Regex.classChar`. -/
def classChar (negated : Bool) (items : List ClassItem) : GuardedDraw (Option Char) :=
  if negated then pick (ascii.filter fun c => !items.any (·.has c))
  else do
    match ← pick items with
    | none => pure none
    | some i => itemChar i

/-! ## Constructs -/

def writeTimes (step : Buffer → GuardedDraw Buffer) : Nat → Buffer → GuardedDraw Buffer
  | 0, b => pure b
  | n + 1, b => if b.ended then pure b else do writeTimes step n (← step b)

def writeUpTo (step : Buffer → GuardedDraw Buffer) : Nat → Buffer → GuardedDraw Buffer
  | 0, b => pure b
  | n + 1, b =>
    if b.ended then pure b
    else do
      if ← ofDraw Draw.coin then pure b else writeUpTo step n (← step b)

def writeOn (step : Buffer → GuardedDraw Buffer) (b : Buffer) : GuardedDraw Buffer := fun s =>
  writeUpTo step (s.remaining + 1) b s

def writeRepeated (step : Buffer → GuardedDraw Buffer) (least : Nat) (most : Option Nat)
    (b : Buffer) : GuardedDraw Buffer :=
  match most with
  | none => do writeOn step (← writeTimes step least b)
  | some m => do writeUpTo step (m - least) (← writeTimes step (min least m) b)

mutual

/-- `Regex.write`, over a string. -/
def write : Construct → Buffer → GuardedDraw Buffer
  | c, b => if b.ended then pure b else writeConstruct c b

def writeConstruct : Construct → Buffer → GuardedDraw Buffer
  | .empty, b => pure b
  | .skipped _, b => pure b
  | .literal c, b => push b c
  | .notLiteral c, b => do push b (← otherAscii c)
  | .any, b => do push b (Char.ofNat (← codePoint 0x20 0x7e))
  | .charClass negated items, b => do pushOption b (← classChar negated items)
  | .concat items, b => writeAll items b
  | .alternation branches, b =>
    match branches with
    | [] => pure b
    | branches => do writeNth branches (← index branches.length) b
  | .repetition least most body, b => writeRepeated (fun b => write body b) least most b
  | .group index body, b => do capture (← write body b) b index
  | .backref index, b => pushAll b ((b.captures.lookup index).getD "").toList
  | .anchor a, b => pure (anchor b a)

def writeAll : List Construct → Buffer → GuardedDraw Buffer
  | [], b => pure b
  | c :: cs, b => do writeAll cs (← write c b)

def writeNth : List Construct → Nat → Buffer → GuardedDraw Buffer
  | [], _, b => pure b
  | c :: _, 0, b => write c b
  | _ :: cs, n + 1, b => writeNth cs n b

end

/-- `Regex.candidate`. -/
def candidate (c : Construct) : GuardedDraw String := do pure (← write c {}).text

/-- `Regex.search`. -/
def search (accept : String → Bool) (c : Construct) : Nat → String → GuardedDraw String
  | 0, last => pure last
  | n + 1, _ => do
    let text ← candidate c
    if accept text then pure text else search accept c n text

end Guarded

/-! ## The string of a draft -/

/-- A buffer holds what a draft holds, with places in bytes. -/
structure Buffer.Holds (b : Buffer) (d : Draft) : Prop where
  text : b.text = String.ofList d.text.toList
  captures : b.captures = d.captures.map fun g => (g.1, String.ofList g.2)
  restarts : b.restarts = d.restarts
  boundary : b.boundary =
    d.boundary.map fun n => (String.ofList (d.text.toList.take n)).rawEndPos
  boundary_le : ∀ n ∈ d.boundary, n ≤ d.text.size
  ended : b.ended = d.ended

namespace Buffer.Holds

open Guarded

variable {b opened : Buffer} {d d' : Draft}

theorem start : Holds {} {} := ⟨rfl, rfl, rfl, rfl, nofun, rfl⟩

theorem push (h : b.Holds d) (c : Char) :
    Holds { b with text := b.text.push c, boundary := none }
      { d with text := d.text.push c, boundary := none } := by
  refine ⟨?_, h.captures, h.restarts, rfl, nofun, h.ended⟩
  exact String.toList_inj.1 (by simp [h.text])

theorem anchor (h : b.Holds d) (a : Anchor) : (Guarded.anchor b a).Holds (d.anchor a) := by
  cases a with
  | start => exact ⟨rfl, h.captures, congrArg (· + 1) h.restarts, rfl, nofun, h.ended⟩
  | stop => exact ⟨h.text, h.captures, h.restarts, h.boundary, h.boundary_le, rfl⟩
  | wordBoundary =>
      refine ⟨h.text, h.captures, h.restarts, ?_, ?_, h.ended⟩
      · simp only [Guarded.anchor, Draft.anchor, Option.map_some, h.text]
        rw [← Array.length_toList, List.take_length]
      · simp [Draft.anchor]
  | notWordBoundary => exact h

theorem lookup_captures (h : b.Holds d) (i : Nat) :
    ((b.captures.lookup i).getD "").toList = (d.captures.lookup i).getD [] := by
  rw [h.captures]
  induction d.captures with
  | nil => rfl
  | cons g gs ih =>
      obtain ⟨j, cs⟩ := g
      simp only [List.map_cons, List.lookup_cons]
      split
      · exact String.toList_ofList
      · exact ih

/-- What stands before a word boundary can be read. -/
theorem sliceTo_boundary (h : b.Holds d) {n : Nat} (hn : n ≤ d.text.size) :
    ∃ before, sliceTo b.text (String.ofList (d.text.toList.take n)).rawEndPos = pure before ∧
      before.toList.getLast? = if n = 0 then none else d.text[n - 1]? := by
  refine ⟨String.ofList (d.text.toList.take n), ?_, ?_⟩
  · have hsplit : b.text = String.ofList (d.text.toList.take n) ++
        String.ofList (d.text.toList.drop n) := by
      rw [h.text, ← String.ofList_append, List.take_append_drop]
    rw [hsplit, sliceTo_append]
  · rw [String.toList_ofList, List.getLast?_take]
    split
    · rfl
    · have hlt : n - 1 < d.text.size := by omega
      simp [hlt]

/-- A group that is closed can capture its text: without a start anchor since it was opened, the
text then is where the text now begins. -/
theorem capture (h : b.Holds d) (hopened : opened.Holds d') (index : Option Nat)
    (hgrown : d'.restarts = d.restarts → ∃ more, d.text.toList = d'.text.toList ++ more) :
    ∃ closed, Guarded.capture b opened index = pure closed ∧
      closed.Holds (d.capture d' index) := by
  cases index with
  | none => exact ⟨b, rfl, h⟩
  | some i =>
      have hclosed : ∀ cs, Holds { b with captures := (i, String.ofList cs) :: b.captures }
          { d with captures := (i, cs) :: d.captures } := fun cs =>
        ⟨h.text, by rw [h.captures]; rfl, h.restarts, h.boundary, h.boundary_le, h.ended⟩
      have hiff : opened.restarts = b.restarts ↔ d'.restarts = d.restarts := by
        rw [hopened.restarts, h.restarts]
      by_cases hsame : d'.restarts = d.restarts
      · obtain ⟨more, hmore⟩ := hgrown hsame
        have htext : b.text = opened.text ++ String.ofList more := by
          rw [h.text, hmore, String.ofList_append, hopened.text]
        have hdrop : d.text.toList.drop d'.text.size = more := by
          rw [hmore, ← Array.length_toList, List.drop_left]
        have hslice : sliceFrom b.text opened.text.rawEndPos = pure (String.ofList more) :=
          htext ▸ sliceFrom_append _ _
        simp only [Guarded.capture, Draft.capture, if_pos (hiff.2 hsame), if_pos hsame, hslice,
          hdrop]
        exact ⟨_, rfl, hclosed more⟩
      · simp only [Guarded.capture, Draft.capture, if_neg (mt hiff.1 hsame), if_neg hsame]
        exact ⟨_, rfl, h.text ▸ hclosed d.text.toList⟩

end Buffer.Holds

namespace Tracks

open Buffer Guarded

variable {b : Buffer} {d : Draft}

theorem filler (before : Option Char) (c : Char) :
    Tracks Eq (Guarded.filler before c) (Draft.filler before c) := by
  unfold Guarded.filler Draft.filler
  dsimp only
  split
  · split
    · exact pure rfl
    · exact pick _
  · exact pure rfl

theorem push (h : b.Holds d) (c : Char) : Tracks Holds (Guarded.push b c) (d.push c) := by
  have hb := h.boundary
  cases hn : d.boundary with
  | none =>
      rw [hn, Option.map_none] at hb
      simp only [Guarded.push, Draft.push, hb, hn]
      exact pure (h.push c)
  | some n =>
      rw [hn, Option.map_some] at hb
      obtain ⟨before, hslice, hlast⟩ := h.sliceTo_boundary (h.boundary_le n hn)
      simp only [Guarded.push, Draft.push, hb, hn]
      refine check hslice ?_
      rw [hlast]
      refine (filler _ c).bind ?_
      rintro f _ rfl -
      cases f with
      | none => exact pure (h.push c)
      | some f => exact pure ((h.push f).push c)

theorem pushAll (h : b.Holds d) (cs : List Char) :
    Tracks Holds (Guarded.pushAll b cs) (d.pushAll cs) := by
  induction cs generalizing b d with
  | nil => exact pure h
  | cons c cs ih => exact (push h c).bind fun _ _ h' _ => ih h'

theorem pushOption (h : b.Holds d) (c : Option Char) :
    Tracks Holds (Guarded.pushOption b c) (d.pushOption c) := by
  cases c with
  | none => exact pure h
  | some c => exact push h c

/-! ## Characters of classes -/

theorem codePoint {α β : Type} {R : α → β → Prop} {first last : Nat} {f : Nat → GuardedDraw α}
    {g : Nat → Draw β} (h : first ≤ last) (hf : ∀ n, Tracks R (f (first + n)) (g n)) :
    Tracks R (Guarded.codePoint first last >>= f) (Draw.below32 (last - first + 1) >>= g) := by
  rw [Guarded.codePoint, bind_assoc]
  refine check (range_of_le (by omega)) ?_
  rw [bind_assoc]
  refine (ofDraw _).bind ?_
  rintro n _ rfl -
  rw [pure_bind]
  exact hf n

theorem otherAscii (c : Char) : Tracks Eq (Guarded.otherAscii c) (Regex.otherAscii c) :=
  check (range_of_le (by omega)) (ofDraw _)

theorem charBetween {first last : Char} (h : first ≤ last) :
    Tracks Eq (Guarded.charBetween first last) (Regex.charBetween first last) :=
  codePoint h fun _ => pure rfl

theorem itemChar {i : ClassItem} (h : i.IsOrdered) :
    Tracks Eq (Guarded.itemChar i) (Regex.itemChar i) := by
  cases i with
  | char c => exact pure rfl
  | range first last =>
      refine (charBetween h).bind ?_
      rintro c _ rfl -
      exact pure rfl
  | category k => exact pick _

theorem classChar {negated : Bool} {items : List ClassItem} (hne : items ≠ [])
    (h : ∀ i ∈ items, i.IsOrdered) :
    Tracks Eq (Guarded.classChar negated items) (Regex.classChar negated items) := by
  unfold Guarded.classChar Regex.classChar
  split
  · exact pick _
  · refine (pick items).bind ?_
    rintro i _ rfl ⟨s, t, hi⟩
    obtain ⟨i, hmem, rfl⟩ := Draw.mem_of_pick hne hi
    exact itemChar (h i hmem)

/-! ## Repetitions -/

section Steps

variable {step : Buffer → GuardedDraw Buffer} {plain : Draft → Draw Draft}
  (hstep : ∀ {b : Buffer} {d : Draft}, b.Holds d → Tracks Holds (step b) (plain d))

include hstep

theorem writeTimes (h : b.Holds d) (n : Nat) :
    Tracks Holds (Guarded.writeTimes step n b) (Regex.writeTimes plain n d) := by
  induction n generalizing b d with
  | zero => exact pure h
  | succ n ih =>
      rw [Guarded.writeTimes, Regex.writeTimes, h.ended]
      split
      · exact pure h
      · exact (hstep h).bind fun _ _ h' _ => ih h'

theorem writeUpTo (h : b.Holds d) (n : Nat) :
    Tracks Holds (Guarded.writeUpTo step n b) (Regex.writeUpTo plain n d) := by
  induction n generalizing b d with
  | zero => exact pure h
  | succ n ih =>
      rw [Guarded.writeUpTo, Regex.writeUpTo, h.ended]
      split
      · exact pure h
      · refine (ofDraw _).bind ?_
        rintro heads _ rfl -
        cases heads with
        | true => exact pure h
        | false => exact (hstep h).bind fun _ _ h' _ => ih h'

theorem writeRepeated (h : b.Holds d) (least : Nat) (most : Option Nat) :
    Tracks Holds (Guarded.writeRepeated step least most b)
      (Regex.writeRepeated plain least most d) := by
  cases most with
  | none =>
      exact (writeTimes hstep h least).bind fun _ _ h' _ s =>
        writeUpTo hstep h' (s.remaining + 1) s
  | some m => exact (writeTimes hstep h _).bind fun _ _ h' _ => writeUpTo hstep h' (m - least)

end Steps

/-! ## Constructs -/

section Lists

variable {cs : List Construct}
  (hcs : ∀ c ∈ cs, ∀ {b : Buffer} {d : Draft}, b.Holds d →
    Tracks Holds (Guarded.write c b) (Regex.write c d))

include hcs

theorem writeAll (h : b.Holds d) :
    Tracks Holds (Guarded.writeAll cs b) (Regex.writeAll cs d) := by
  induction cs generalizing b d with
  | nil =>
      rw [Guarded.writeAll, Regex.writeAll]
      exact pure h
  | cons c cs ih =>
      rw [List.forall_mem_cons] at hcs
      rw [Guarded.writeAll, Regex.writeAll]
      exact (hcs.1 h).bind fun _ _ h' _ => ih hcs.2 h'

theorem writeNth (h : b.Holds d) (n : Nat) :
    Tracks Holds (Guarded.writeNth cs n b) (Regex.writeNth cs n d) := by
  induction cs generalizing n with
  | nil =>
      rw [Guarded.writeNth, Regex.writeNth]
      exact pure h
  | cons c cs ih =>
      rw [List.forall_mem_cons] at hcs
      cases n with
      | zero =>
          rw [Guarded.writeNth, Regex.writeNth]
          exact hcs.1 h
      | succ n =>
          rw [Guarded.writeNth, Regex.writeNth]
          exact ih hcs.2 n

end Lists

/-- A draft that was not started again still begins with the text that it had. -/
theorem grown_of_write {c : Construct} {d' : Draft} {s t : Source}
    (h : Regex.write c d s = some (d', t)) (hsame : d.restarts = d'.restarts) :
    ∃ more, d'.text.toList = d.text.toList ++ more := by
  obtain ⟨trace, -, -, hleads⟩ := (recital_write c d).exists_trace h
  have hrestarts := hleads.makes.restarts_eq
  have hstart : Step.anchor .start ∉ trace.steps := List.count_eq_zero.1 (by omega)
  exact ⟨_, hleads.makes.text_of_no_start hstart⟩

/-- A walk through a well-formed tree makes no fault. -/
theorem write {c : Construct} (hc : c.IsWellFormed) (h : b.Holds d) :
    Tracks Holds (Guarded.write c b) (Regex.write c d) := by
  induction c using Construct.induction_parts generalizing b d with
  | h c ih =>
  have hparts : ∀ e ∈ c.parts, ∀ {b : Buffer} {d : Draft}, b.Holds d →
      Tracks Holds (Guarded.write e b) (Regex.write e d) := fun e he _ _ h =>
    ih e he (fun n hn => hc n (Construct.mem_nodes.2 (.inr ⟨e, he, hn⟩))) h
  have hself := hc c c.self_mem_nodes
  rw [Guarded.write, Regex.write, h.ended]
  split
  · exact pure h
  cases c with
  | empty =>
      rw [Guarded.writeConstruct, Regex.writeConstruct]
      exact pure h
  | literal x =>
      rw [Guarded.writeConstruct, Regex.writeConstruct]
      exact push h x
  | notLiteral x =>
      rw [Guarded.writeConstruct, Regex.writeConstruct]
      refine (otherAscii x).bind ?_
      rintro y _ rfl -
      exact push h y
  | any =>
      rw [Guarded.writeConstruct, Regex.writeConstruct]
      exact codePoint (by decide) fun n => push h _
  | charClass negated items =>
      rw [Guarded.writeConstruct, Regex.writeConstruct]
      refine (classChar hself.1 hself.2).bind ?_
      rintro x _ rfl -
      exact pushOption h x
  | concat items =>
      rw [Guarded.writeConstruct, Regex.writeConstruct]
      exact writeAll hparts h
  | alternation branches =>
      cases branches with
      | nil =>
          simp only [Guarded.writeConstruct, Regex.writeConstruct]
          exact pure h
      | cons e branches =>
          simp only [Guarded.writeConstruct, Regex.writeConstruct]
          refine (index (Nat.zero_lt_succ _)).bind ?_
          rintro n _ rfl -
          exact writeNth hparts h n
  | repetition least most body =>
      rw [Guarded.writeConstruct, Regex.writeConstruct]
      exact writeRepeated (hparts body List.mem_cons_self) h least most
  | group index body =>
      rw [Guarded.writeConstruct, Regex.writeConstruct]
      refine (hparts body List.mem_cons_self h).bind ?_
      rintro b' d' h' ⟨s, t, hwrite⟩
      obtain ⟨closed, hclosed, hholds⟩ :=
        h'.capture h index fun hsame => grown_of_write hwrite hsame
      rw [hclosed]
      exact pure hholds
  | backref index =>
      rw [Guarded.writeConstruct, Regex.writeConstruct]
      rw [h.lookup_captures]
      exact pushAll h _
  | anchor a =>
      rw [Guarded.writeConstruct, Regex.writeConstruct]
      exact pure (h.anchor a)
  | skipped k =>
      rw [Guarded.writeConstruct, Regex.writeConstruct]
      exact pure h

theorem candidate {c : Construct} (hc : c.IsWellFormed) :
    Tracks Eq (Guarded.candidate c) (Regex.candidate c) :=
  (write hc .start).bind fun _ _ h _ => pure h.text

theorem search {c : Construct} (hc : c.IsWellFormed) (accept : String → Bool) (n : Nat)
    (last : String) :
    Tracks Eq (Guarded.search accept c n last) (Regex.search accept c n last) := by
  induction n generalizing last with
  | zero => exact pure rfl
  | succ n ih =>
      refine (candidate hc).bind ?_
      rintro text _ rfl -
      split
      · exact pure rfl
      · exact ih text

end Tracks

end Specimen
