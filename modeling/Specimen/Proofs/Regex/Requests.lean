import Specimen.Proofs.Random.Range
import Specimen.Proofs.Regex.Characters
import Specimen.Proofs.Regex.Groups
import Specimen.Proofs.Regex.WellFormed
import Specimen.Regex.Writer
/-!
# What a walk through a tree asks of the source

`Logged.write` walks through a tree like `write` and lists on the way from which ranges of code
points it draws and how many things it chooses between. Forgetting the list gives the plain
walk, and all requests come from the constructs of the tree (`logs_write`). The tree of a
pattern is well-formed, so none of its requests is empty, except for a class that excludes all
of ASCII (`treeSoundness_of_parse`).
-/

namespace Specimen.Regex

open Specimen.Random

/-- What is asked of the source. -/
inductive Request where
  /-- A code point from `first` to `last`. -/
  | range (first last : Nat)
  /-- One of so many things. -/
  | choice (size : Nat)
  /-- A character of ASCII that a class does not exclude. -/
  | complement (excluded : List ClassItem)

/-- There is nothing that could be drawn. -/
def Request.IsEmpty : Request → Prop
  | .range first last => last < first
  | .choice size => size = 0
  | .complement excluded => ∀ c ∈ ascii, excluded.any (·.has c)

instance : DecidablePred Request.IsEmpty
  | .range first last => inferInstanceAs (Decidable (last < first))
  | .choice size => inferInstanceAs (Decidable (size = 0))
  | .complement excluded => inferInstanceAs (Decidable (∀ c ∈ ascii, excluded.any (·.has c)))

/-- A draw that lists what it asks for, also if the source ends before it has a value. -/
def Logged (α : Type) := Source → List Request × Option (α × Source)

namespace Logged

variable {α β : Type}

instance : Monad Logged where
  pure a := fun s => ([], some (a, s))
  bind x f := fun s =>
    ((x s).1 ++ (x s).2.elim [] fun p => (f p.1 p.2).1, (x s).2.bind fun p => (f p.1 p.2).2)

/-- A draw that is not from a range and no choice. -/
def draw (d : Draw α) : Logged α := fun s => ([], d s)

/-- A draw for a request; one that is made again and again is listed once. -/
def asking (r : Request) (d : Draw α) : Logged α := fun s => ([r], d s)

/-- How far a code point is from the first of its range. -/
def offset (first last : Nat) : Logged Nat :=
  asking (.range first last) (Draw.below32 (last - first + 1))

def pick (items : List α) : Logged (Option α) := asking (.choice items.length) (Draw.pick items)

/-! ## Characters -/

def filler (before : Option Char) (c : Char) : Logged (Option Char) :=
  let beforeIsWord := before.any isWordChar
  if beforeIsWord = isWordChar c then
    if beforeIsWord then pure (some ' ') else pick wordFillers
  else pure none

def push (d : Draft) (c : Char) : Logged Draft :=
  match d.boundary with
  | none => pure { d with text := d.text.push c }
  | some position => do
    let before := if position = 0 then none else d.text[position - 1]?
    match ← filler before c with
    | none => pure { d with text := d.text.push c, boundary := none }
    | some f => pure { d with text := (d.text.push f).push c, boundary := none }

def pushAll (d : Draft) : List Char → Logged Draft
  | [] => pure d
  | c :: cs => do pushAll (← push d c) cs

def pushOption (d : Draft) : Option Char → Logged Draft
  | none => pure d
  | some c => push d c

def otherAscii (c : Char) : Logged Char := asking (.range 0 0x7f) (Regex.otherAscii c)

def charBetween (first last : Char) : Logged Char := do
  let n := first.toNat + (← offset first.toNat last.toNat)
  pure (if n < 0xD800 ∨ 0xDFFF < n then Char.ofNat n else first)

def itemChar : ClassItem → Logged (Option Char)
  | .char c => pure (some c)
  | .range first last => do pure (some (← charBetween first last))
  | .category k => pick (ascii.filter k.has)

def classChar (negated : Bool) (items : List ClassItem) : Logged (Option Char) :=
  if negated then
    asking (.complement items) (Draw.pick (ascii.filter fun c => !items.any (·.has c)))
  else do
    match ← pick items with
    | none => pure none
    | some i => itemChar i

/-! ## Constructs -/

def writeTimes (step : Draft → Logged Draft) : Nat → Draft → Logged Draft
  | 0, d => pure d
  | n + 1, d => if d.ended then pure d else do writeTimes step n (← step d)

def writeUpTo (step : Draft → Logged Draft) : Nat → Draft → Logged Draft
  | 0, d => pure d
  | n + 1, d =>
    if d.ended then pure d
    else do
      if ← draw Draw.coin then pure d else writeUpTo step n (← step d)

def writeOn (step : Draft → Logged Draft) (d : Draft) : Logged Draft := fun s =>
  writeUpTo step (s.remaining + 1) d s

def writeRepeated (step : Draft → Logged Draft) (least : Nat) (most : Option Nat) (d : Draft) :
    Logged Draft :=
  match most with
  | none => do writeOn step (← writeTimes step least d)
  | some m => do writeUpTo step (m - least) (← writeTimes step (min least m) d)

mutual

/-- `Regex.write` with a list of the requests. -/
def write : Construct → Draft → Logged Draft
  | c, d => if d.ended then pure d else writeConstruct c d

def writeConstruct : Construct → Draft → Logged Draft
  | .empty, d => pure d
  | .skipped _, d => pure d
  | .literal c, d => push d c
  | .notLiteral c, d => do push d (← otherAscii c)
  | .any, d => do push d (Char.ofNat (0x20 + (← offset 0x20 0x7e)))
  | .charClass negated items, d => do pushOption d (← classChar negated items)
  | .concat items, d => writeAll items d
  | .alternation branches, d =>
    match branches with
    | [] => asking (.choice 0) (pure d)
    | branches => do writeNth branches (← asking (.choice branches.length)
        (Draw.index branches.length)) d
  | .repetition least most body, d => writeRepeated (fun d => write body d) least most d
  | .group index body, d => do pure ((← write body d).capture d index)
  | .backref index, d => pushAll d ((d.captures.lookup index).getD [])
  | .anchor a, d => pure (d.anchor a)

def writeAll : List Construct → Draft → Logged Draft
  | [], d => pure d
  | c :: cs, d => do writeAll cs (← write c d)

def writeNth : List Construct → Nat → Draft → Logged Draft
  | [], _, d => pure d
  | c :: _, 0, d => write c d
  | _ :: cs, n + 1, d => writeNth cs n d

end

end Logged

/-! ## Forgetting the list -/

/-- The requests that a class item makes. -/
def ClassItem.request? : ClassItem → Option Request
  | .char _ => none
  | .range first last => some (.range first.toNat last.toNat)
  | .category k => some (.choice (ascii.filter k.has).length)

/-- The requests that a construct itself makes, besides those for the
fillers of word boundaries. -/
def Construct.requests : Construct → List Request
  | .notLiteral _ => [.range 0 0x7f]
  | .any => [.range 0x20 0x7e]
  | .charClass true items => [.complement items]
  | .charClass false items => .choice items.length :: items.filterMap (·.request?)
  | .alternation branches => [.choice branches.length]
  | _ => []

/-- A logged draw draws the same as a plain one, and everything that
it asks for has a property. -/
def Logs {α : Type} (P : Request → Prop) (x : Logged α) (d : Draw α) : Prop :=
  ∀ s, (x s).2 = d s ∧ ∀ r ∈ (x s).1, P r

namespace Logs

variable {P : Request → Prop} {α β : Type}

theorem pure (a : α) : Logs P (pure a) (pure a) := fun _ => ⟨rfl, nofun⟩

theorem draw (d : Draw α) : Logs P (.draw d) d := fun _ => ⟨rfl, nofun⟩

theorem asking {r : Request} (hr : P r) (d : Draw α) : Logs P (.asking r d) d :=
  fun _ => ⟨rfl, List.forall_mem_singleton.2 hr⟩

/-- What is done with a value only counts for values that can be drawn. -/
theorem bind_of {x : Logged α} {d : Draw α} {f : α → Logged β} {g : α → Draw β}
    (hx : Logs P x d) (hf : ∀ a s t, d s = some (a, t) → Logs P (f a) (g a)) :
    Logs P (x >>= f) (d >>= g) := by
  intro s
  obtain ⟨hd, hlog⟩ := hx s
  have hvalue : ((x >>= f) s).2 = (x s).2.bind fun p => (f p.1 p.2).2 := rfl
  have hlist : ((x >>= f) s).1 = (x s).1 ++ (x s).2.elim [] fun p => (f p.1 p.2).1 := rfl
  rw [hvalue, hlist, hd]
  change _ = (d s).bind (fun p => g p.1 p.2) ∧ _
  cases hs : d s with
  | none => simpa using hlog
  | some p =>
      obtain ⟨a, t⟩ := p
      obtain ⟨hg, hmore⟩ := hf a s t hs t
      exact ⟨hg, List.forall_mem_append.2 ⟨hlog, hmore⟩⟩

theorem bind {x : Logged α} {d : Draw α} {f : α → Logged β} {g : α → Draw β}
    (hx : Logs P x d) (hf : ∀ a, Logs P (f a) (g a)) : Logs P (x >>= f) (d >>= g) :=
  hx.bind_of fun a _ _ _ => hf a

/-! ### Characters -/

section Characters

variable (hfill : P (.choice wordFillers.length))

include hfill

theorem filler (before : Option Char) (c : Char) :
    Logs P (.filler before c) (Draft.filler before c) := by
  unfold Logged.filler Draft.filler
  dsimp only
  split
  · split
    · exact .pure _
    · exact .asking hfill _
  · exact .pure _

theorem push (d : Draft) (c : Char) : Logs P (.push d c) (d.push c) := by
  unfold Logged.push Draft.push
  cases d.boundary with
  | none => exact .pure _
  | some position =>
      refine (filler hfill _ c).bind fun f => ?_
      cases f <;> exact .pure _

theorem pushAll (d : Draft) (cs : List Char) : Logs P (.pushAll d cs) (d.pushAll cs) := by
  induction cs generalizing d with
  | nil => exact .pure _
  | cons c cs ih => exact (push hfill d c).bind ih

theorem pushOption (d : Draft) (c : Option Char) : Logs P (.pushOption d c)
    (d.pushOption c) := by
  cases c with
  | none => exact .pure _
  | some c => exact push hfill d c

end Characters

theorem itemChar {i : ClassItem} (hi : ∀ r ∈ i.request?, P r) :
    Logs P (.itemChar i) (Regex.itemChar i) := by
  cases i with
  | char c => exact .pure _
  | range first last =>
      have hcode : Logs P (.charBetween first last) (Regex.charBetween first last) :=
        (asking (hi _ rfl) _).bind fun _ => .pure _
      exact hcode.bind fun _ => .pure _
  | category k => exact .asking (hi _ rfl) _

theorem classChar {negated : Bool} {items : List ClassItem}
    (hP : ∀ r ∈ (Construct.charClass negated items).requests, P r) :
    Logs P (.classChar negated items) (Regex.classChar negated items) := by
  cases negated with
  | true => exact .asking (hP _ List.mem_cons_self) _
  | false =>
      obtain ⟨hchoice, hitems⟩ := List.forall_mem_cons.1 hP
      refine (asking hchoice _).bind_of fun i s t hi => ?_
      cases i with
      | none => exact .pure _
      | some i =>
          have hne : items ≠ [] := by
            rintro rfl
            cases hi
          obtain ⟨j, hj, hsame⟩ := Draw.mem_of_pick hne hi
          cases hsame
          exact itemChar fun r hr => hitems r (List.mem_filterMap.2 ⟨i, hj, hr⟩)

/-! ### Constructs -/

section Steps

variable {step : Draft → Logged Draft} {step' : Draft → Draw Draft}
  (hstep : ∀ d, Logs P (step d) (step' d))

include hstep

theorem writeTimes (n : Nat) (d : Draft) :
    Logs P (.writeTimes step n d) (Regex.writeTimes step' n d) := by
  induction n generalizing d with
  | zero => exact .pure _
  | succ n ih =>
      unfold Logged.writeTimes Regex.writeTimes
      split
      · exact .pure _
      · exact (hstep d).bind ih

theorem writeUpTo (n : Nat) (d : Draft) :
    Logs P (.writeUpTo step n d) (Regex.writeUpTo step' n d) := by
  induction n generalizing d with
  | zero => exact .pure _
  | succ n ih =>
      unfold Logged.writeUpTo Regex.writeUpTo
      split
      · exact .pure _
      · refine (draw Draw.coin).bind fun stop => ?_
        split
        · exact .pure _
        · exact (hstep d).bind ih

theorem writeRepeated (least : Nat) (most : Option Nat) (d : Draft) :
    Logs P (.writeRepeated step least most d) (Regex.writeRepeated step' least most d) := by
  cases most with
  | none =>
      refine (writeTimes hstep least d).bind fun d' s => ?_
      exact writeUpTo hstep (s.remaining + 1) d' s
  | some m => exact (writeTimes hstep (min least m) d).bind (writeUpTo hstep (m - least))

end Steps

theorem writeAll {cs : List Construct}
    (hcs : ∀ c ∈ cs, ∀ d, Logs P (.write c d) (Regex.write c d)) (d : Draft) :
    Logs P (.writeAll cs d) (Regex.writeAll cs d) := by
  induction cs generalizing d with
  | nil =>
      rw [Logged.writeAll, Regex.writeAll]
      exact .pure _
  | cons c cs ih =>
      rw [List.forall_mem_cons] at hcs
      rw [Logged.writeAll, Regex.writeAll]
      exact (hcs.1 d).bind (ih hcs.2)

theorem writeNth {cs : List Construct}
    (hcs : ∀ c ∈ cs, ∀ d, Logs P (.write c d) (Regex.write c d)) (n : Nat) (d : Draft) :
    Logs P (.writeNth cs n d) (Regex.writeNth cs n d) := by
  induction cs generalizing n with
  | nil =>
      rw [Logged.writeNth, Regex.writeNth]
      exact .pure _
  | cons c cs ih =>
      rw [List.forall_mem_cons] at hcs
      cases n with
      | zero =>
          rw [Logged.writeNth, Regex.writeNth]
          exact hcs.1 d
      | succ n =>
          rw [Logged.writeNth, Regex.writeNth]
          exact ih hcs.2 n

end Logs

/-- A walk through a tree asks for what its constructs ask for, and for fillers of boundaries. -/
theorem logs_write {P : Request → Prop} (hfill : P (.choice wordFillers.length)) (c : Construct)
    (hP : ∀ n ∈ c.nodes, ∀ r ∈ n.requests, P r) (d : Draft) :
    Logs P (.write c d) (write c d) := by
  induction c using Construct.induction_parts generalizing d with
  | h c ih =>
  have hself := hP c c.self_mem_nodes
  have hparts : ∀ e ∈ c.parts, ∀ d, Logs P (.write e d) (write e d) := fun e he =>
    ih e he fun n hn => hP n (Construct.mem_nodes.2 (.inr ⟨e, he, hn⟩))
  rw [Logged.write, write]
  split
  · exact .pure _
  cases c with
  | empty =>
      rw [Logged.writeConstruct, writeConstruct]
      exact .pure _
  | literal x =>
      rw [Logged.writeConstruct, writeConstruct]
      exact .push hfill d x
  | notLiteral x =>
      rw [Logged.writeConstruct, writeConstruct]
      exact (Logs.asking (hself _ List.mem_cons_self) _).bind fun _ => .push hfill d _
  | any =>
      rw [Logged.writeConstruct, writeConstruct]
      exact (Logs.asking (hself _ List.mem_cons_self) _).bind fun _ => .push hfill d _
  | charClass negated items =>
      rw [Logged.writeConstruct, writeConstruct]
      exact (Logs.classChar hself).bind fun _ => .pushOption hfill d _
  | concat items =>
      rw [Logged.writeConstruct, writeConstruct]
      exact .writeAll hparts d
  | alternation branches =>
      cases branches with
      | nil =>
          simp only [Logged.writeConstruct, writeConstruct]
          exact .asking (hself _ List.mem_cons_self) _
      | cons b branches =>
          simp only [Logged.writeConstruct, writeConstruct]
          exact (Logs.asking (hself _ List.mem_cons_self) _).bind fun n => .writeNth hparts n d
  | repetition least most body =>
      rw [Logged.writeConstruct, writeConstruct]
      exact .writeRepeated (hparts body List.mem_cons_self) least most d
  | group index body =>
      rw [Logged.writeConstruct, writeConstruct]
      exact (hparts body List.mem_cons_self d).bind fun _ => .pure _
  | backref index =>
      rw [Logged.writeConstruct, writeConstruct]
      exact .pushAll hfill d _
  | anchor a =>
      rw [Logged.writeConstruct, writeConstruct]
      exact .pure _
  | skipped k =>
      rw [Logged.writeConstruct, writeConstruct]
      exact .pure _

/-! ## Trees of patterns -/

/-- A construct with the parts it needs asks for nothing empty, unless it is a class
that excludes all of ASCII. -/
theorem Construct.IsFormed.eq_complement {n : Construct} (h : n.IsFormed) {r : Request}
    (hr : r ∈ n.requests) (hempty : r.IsEmpty) :
    ∃ items, n = .charClass true items ∧ r = .complement items := by
  cases n with
  | notLiteral c =>
      obtain rfl := List.mem_singleton.1 hr
      exact absurd hempty (by decide)
  | any =>
      obtain rfl := List.mem_singleton.1 hr
      exact absurd hempty (by decide)
  | alternation branches =>
      obtain rfl := List.mem_singleton.1 hr
      have hlength : 2 ≤ branches.length := h
      have hzero : branches.length = 0 := hempty
      omega
  | charClass negated items =>
      cases negated with
      | true => exact ⟨items, rfl, List.mem_singleton.1 hr⟩
      | false =>
          obtain ⟨hne, hordered⟩ := h
          rcases List.mem_cons.1 hr with rfl | hitem
          · exact absurd (List.length_eq_zero_iff.1 hempty) hne
          · obtain ⟨i, hi, hrequest⟩ := List.mem_filterMap.1 hitem
            cases i with
            | char c => cases hrequest
            | range first last =>
                cases hrequest
                exact absurd (hordered _ hi) (Nat.not_le_of_lt hempty)
            | category k =>
                cases hrequest
                exact absurd (List.length_eq_zero_iff.1 hempty) (exists_category k)
  | _ => cases hr

/-- What holds of the tree of a pattern, and what it asks of a source. -/
structure TreeSoundness (pattern : String) (tree : Construct) : Prop where
  concat : ∀ items, .concat items ∈ tree.nodes → 2 ≤ items.length
  alternation : ∀ branches, .alternation branches ∈ tree.nodes → 2 ≤ branches.length
  members : ∀ negated items, .charClass negated items ∈ tree.nodes → items ≠ []
  range : ∀ negated items first last, .charClass negated items ∈ tree.nodes →
    .range first last ∈ items → first ≤ last
  repetition : ∀ least most body, .repetition least (some most) body ∈ tree.nodes → least ≤ most
  backref : ∀ i, .backref i ∈ tree.nodes → 1 ≤ i ∧ i ≤ groupCount pattern
  distinct : tree.indices.Nodup
  counted : ∀ i ∈ tree.indices, 1 ≤ i ∧ i ≤ groupCount pattern
  /-- The groups are numbered in the order in which they begin. -/
  increasing : tree.indices.Pairwise (· < ·)
  /-- A walk asks for nothing empty but a character that a class does not exclude. -/
  requests : ∀ d s, (Logged.write tree d s).2 = write tree d s ∧
    ∀ r ∈ (Logged.write tree d s).1, r.IsEmpty → ∃ items, r = .complement items ∧
      .charClass true items ∈ tree.nodes ∧ ∀ c ∈ ascii, items.any (·.has c)

/-- Every pattern that is read has a well-formed tree, which asks for nothing that cannot be
drawn unless one of its classes excludes all of ASCII. -/
theorem treeSoundness_of_parse {pattern : String} {tree : Construct}
    (h : parse pattern = .ok tree) : TreeSoundness pattern tree where
  concat _ hn := isWellFormed_of_parse h _ hn
  alternation _ hn := isWellFormed_of_parse h _ hn
  members _ _ hn := (isWellFormed_of_parse h _ hn).1
  range _ _ _ _ hn hi := (isWellFormed_of_parse h _ hn).2 _ hi
  repetition _ _ _ hn := isWellFormed_of_parse h _ hn _ rfl
  backref _ hi := le_groupCount_of_backref h hi
  distinct := (indices_sublist_range' h).nodup List.nodup_range'
  counted i hi := by
    have hmem := List.mem_range'_1.1 ((indices_sublist_range' h).subset hi)
    omega
  increasing := (List.pairwise_lt_range' 1).sublist (indices_sublist_range' h)
  requests := by
    refine logs_write (fun hempty => absurd hempty (by decide)) tree fun n hn r hr hempty => ?_
    obtain ⟨items, rfl, rfl⟩ := (isWellFormed_of_parse h n hn).eq_complement hr hempty
    exact ⟨items, rfl, hn, hempty⟩

/-- Two groups, one of them with a name, references to both, and a class without ASCII. -/
def referring : String := "(?P<w>[a-f\\d]\x7b2,3\x7d)x|(b)[^\\x00-\\x7f]\\2(?P=w)"

theorem treeSoundness_referring :
    ∃ tree, parse referring = .ok tree ∧ TreeSoundness referring tree := by
  have h : parse referring = .ok (.alternation
      [.concat [.group (some 1) (.repetition 2 (some 3)
          (.charClass false [.range 'a' 'f', .category .digit])), .literal 'x'],
        .concat [.group (some 2) (.literal 'b'), .charClass true [.range '\x00' '\x7f'],
          .backref 2, .backref 1]]) := by cbv
  exact ⟨_, h, treeSoundness_of_parse h⟩

end Specimen.Regex
