import Specimen.Proofs.Regex.Characters
import Specimen.Proofs.Regex.Attempts
/-!
# What is written belongs to the language

Writing a construct appends a word of it to the draft, and the captures of the draft are the
bindings that the word leaves. This holds as long as the draft is open: no end anchor was met and
no word boundary waits for its filler. A tree without anchors keeps it open, and then the text
that a group has written is what follows the text it found.
-/

namespace Specimen.Regex

open Specimen.Random

/-- The bindings of the groups that a draft remembers. -/
def Draft.env (d : Draft) : Env := fun i => d.captures.lookup i

/-- A draft that the next construct is appended to as it is. -/
structure Draft.IsOpen (d : Draft) : Prop where
  ended : d.ended = false
  boundary : d.boundary = none

/-- Between two drafts a word of a construct has been written. -/
structure Wrote (c : Construct) (d d' : Draft) : Prop where
  isOpen : d'.IsOpen
  restarts : d'.restarts = d.restarts
  word : ∃ w, d'.text.toList = d.text.toList ++ w ∧ Matches Construct.Admits d.env c w d'.env

/-- A step that writes a word of a construct onto every open draft. -/
def Writes (c : Construct) (step : Draft → Draw Draft) : Prop :=
  ∀ {d d' : Draft} {s t : Source}, d.IsOpen → step d s = some (d', t) → Wrote c d d'

variable {c : Construct} {d d' : Draft} {s t : Source}

/-! ## Characters -/

theorem push_eq_some {x : Char} (hd : d.IsOpen) (h : d.push x s = some (d', t)) :
    d' = { d with text := d.text.push x } := by
  obtain ⟨text, captures, restarts, boundary, ended⟩ := d
  obtain rfl : boundary = none := hd.boundary
  exact (Draw.pure_eq_some.1 h).1.symm

theorem wrote_of_push {x : Char} (hd : d.IsOpen) (hx : c.Admits x)
    (h : d.push x s = some (d', t)) : Wrote c d d' := by
  rw [push_eq_some hd h]
  exact ⟨⟨hd.ended, hd.boundary⟩, rfl, [x], Array.toList_push, .char hx⟩

theorem pushAll_eq_some {cs : List Char} (hd : d.IsOpen) (h : d.pushAll cs s = some (d', t)) :
    d' = { d with text := d.text ++ cs.toArray } := by
  induction cs generalizing d s with
  | nil =>
      obtain ⟨rfl, -⟩ := Draw.pure_eq_some.1 h
      simp
  | cons x cs ih =>
      obtain ⟨d₁, u, hpush, h⟩ := Draw.bind_eq_some.1 h
      have hfirst := push_eq_some hd hpush
      have hopen : d₁.IsOpen := by
        rw [hfirst]
        exact ⟨hd.ended, hd.boundary⟩
      rw [ih hopen h, hfirst]
      simp

/-! ## Sequences and repetitions -/

theorem Wrote.nil (hd : d.IsOpen) : Wrote (.concat []) d d :=
  ⟨hd, rfl, [], by simp, .nil⟩

theorem Wrote.cons {cs : List Construct} {d₁ : Draft} (h : Wrote c d d₁)
    (h' : Wrote (.concat cs) d₁ d') : Wrote (.concat (c :: cs)) d d' := by
  obtain ⟨w, hw, hmatch⟩ := h.word
  obtain ⟨w', hw', hmatch'⟩ := h'.word
  refine ⟨h'.isOpen, h'.restarts.trans h.restarts, w ++ w', ?_, .cons hmatch hmatch'⟩
  rw [hw', hw, List.append_assoc]

theorem Wrote.append {cs ds : List Construct} {d₁ : Draft} (h : Wrote (.concat cs) d d₁)
    (h' : Wrote (.concat ds) d₁ d') : Wrote (.concat (cs ++ ds)) d d' := by
  obtain ⟨w, hw, hmatch⟩ := h.word
  obtain ⟨w', hw', hmatch'⟩ := h'.word
  refine ⟨h'.isOpen, h'.restarts.trans h.restarts, w ++ w', ?_, hmatch.append hmatch' ?_⟩
  · rw [hw', hw, List.append_assoc]
  · exact fun es x hx => hx

theorem wrote_of_writeTimes {step : Draft → Draw Draft} (hstep : Writes c step) {n : Nat}
    (hd : d.IsOpen) (h : writeTimes step n d s = some (d', t)) :
    Wrote (.concat (List.replicate n c)) d d' := by
  induction n generalizing d s with
  | zero =>
      obtain ⟨rfl, -⟩ := Draw.pure_eq_some.1 h
      exact .nil hd
  | succ n ih =>
      simp only [writeTimes, hd.ended, Bool.false_eq_true, if_false] at h
      obtain ⟨d₁, u, hfirst, h⟩ := Draw.bind_eq_some.1 h
      have hwrote := hstep hd hfirst
      exact .cons hwrote (ih hwrote.isOpen h)

theorem wrote_of_writeUpTo {step : Draft → Draw Draft} (hstep : Writes c step) {n : Nat}
    (hd : d.IsOpen) (h : writeUpTo step n d s = some (d', t)) :
    ∃ k ≤ n, Wrote (.concat (List.replicate k c)) d d' := by
  induction n generalizing d s with
  | zero =>
      obtain ⟨rfl, -⟩ := Draw.pure_eq_some.1 h
      exact ⟨0, Nat.le_refl _, .nil hd⟩
  | succ n ih =>
      simp only [writeUpTo, hd.ended, Bool.false_eq_true, if_false] at h
      obtain ⟨stop, u, -, h⟩ := Draw.bind_eq_some.1 h
      cases stop with
      | true =>
          obtain ⟨rfl, -⟩ := Draw.pure_eq_some.1 h
          exact ⟨0, Nat.zero_le _, .nil hd⟩
      | false =>
          obtain ⟨d₁, v, hfirst, h⟩ := Draw.bind_eq_some.1 h
          have hwrote := hstep hd hfirst
          obtain ⟨k, hk, hrest⟩ := ih hwrote.isOpen h
          exact ⟨k + 1, Nat.succ_le_succ hk, .cons hwrote hrest⟩

theorem wrote_of_writeRepeated {step : Draft → Draw Draft} (hstep : Writes c step) {least : Nat}
    {most : Option Nat} (hle : ∀ m ∈ most, least ≤ m) (hd : d.IsOpen)
    (h : writeRepeated step least most d s = some (d', t)) :
    Wrote (.repetition least most c) d d' := by
  have hcopies : ∀ {i j : Nat} {d₁ : Draft}, Wrote (.concat (List.replicate i c)) d d₁ →
      Wrote (.concat (List.replicate j c)) d₁ d' → least ≤ i + j → (∀ m ∈ most, i + j ≤ m) →
      Wrote (.repetition least most c) d d' := by
    intro i j d₁ hi hj hleast hmost
    have hall := hi.append hj
    rw [List.replicate_append_replicate] at hall
    obtain ⟨w, hw, hmatch⟩ := hall.word
    exact ⟨hall.isOpen, hall.restarts, w, hw, .repetition hleast hmost hmatch⟩
  cases most with
  | none =>
      obtain ⟨d₁, u, hfirst, h⟩ := Draw.bind_eq_some.1 h
      have hi := wrote_of_writeTimes hstep hd hfirst
      obtain ⟨k, -, hj⟩ := wrote_of_writeUpTo hstep hi.isOpen h
      exact hcopies hi hj (Nat.le_add_right _ _) (by simp)
  | some m =>
      have hm := hle m rfl
      obtain ⟨d₁, u, hfirst, h⟩ := Draw.bind_eq_some.1 h
      have hi := wrote_of_writeTimes hstep hd hfirst
      obtain ⟨k, hk, hj⟩ := wrote_of_writeUpTo hstep hi.isOpen h
      rw [Nat.min_eq_left hm] at hi
      refine hcopies hi hj (Nat.le_add_right _ _) fun m' hm' => ?_
      cases hm'
      omega

theorem wrote_of_writeAll {cs : List Construct} (hcs : ∀ c ∈ cs, Writes c (write c))
    (hd : d.IsOpen) (h : writeAll cs d s = some (d', t)) : Wrote (.concat cs) d d' := by
  induction cs generalizing d s with
  | nil =>
      rw [writeAll] at h
      obtain ⟨rfl, -⟩ := Draw.pure_eq_some.1 h
      exact .nil hd
  | cons c cs ih =>
      rw [writeAll] at h
      obtain ⟨d₁, u, hfirst, h⟩ := Draw.bind_eq_some.1 h
      have hwrote := hcs c List.mem_cons_self hd hfirst
      exact .cons hwrote (ih (fun e he => hcs e (List.mem_cons_of_mem _ he)) hwrote.isOpen h)

theorem writeNth_eq_write {cs : List Construct} {n : Nat} (hn : n < cs.length) :
    ∃ c ∈ cs, writeNth cs n d = write c d := by
  induction cs generalizing n with
  | nil => cases hn
  | cons c cs ih =>
      cases n with
      | zero => exact ⟨c, List.mem_cons_self, by rw [writeNth]⟩
      | succ n =>
          obtain ⟨e, he, hwrite⟩ := ih (Nat.lt_of_succ_lt_succ hn)
          exact ⟨e, List.mem_cons_of_mem _ he, by rw [writeNth, hwrite]⟩

/-! ## Groups -/

theorem env_capture {opened : Draft} (i : Nat) (hrestarts : d.restarts = opened.restarts)
    {w : List Char} (hw : d.text.toList = opened.text.toList ++ w) :
    (d.capture opened (some i)).env = d.env.bind i w := by
  funext j
  simp only [Draft.capture, Draft.env, Env.bind, hrestarts, if_true, List.lookup_cons, hw]
  rw [← Array.length_toList, List.drop_left]
  by_cases hj : j = i
  · simp [hj]
  · rw [if_neg hj, beq_eq_false_iff_ne.2 hj]

/-- The text of a group is what was written since it was opened. -/
theorem Wrote.capture (index : Option Nat) (h : Wrote c d d') :
    Wrote (.group index c) d (d'.capture d index) := by
  obtain ⟨w, hw, hmatch⟩ := h.word
  cases index with
  | none => exact ⟨h.isOpen, h.restarts, w, hw, .group hmatch⟩
  | some i =>
      refine ⟨⟨h.isOpen.ended, h.isOpen.boundary⟩, h.restarts, w, hw, ?_⟩
      rw [env_capture i h.restarts hw]
      exact .capture hmatch

/-! ## Trees -/

/-- Whether a construct itself keeps the draft open and has a word to write. -/
def Construct.IsWritable : Construct → Prop
  | .anchor _ | .skipped _ => False
  | .charClass true items => ∃ c ∈ ascii, items.any (·.has c) = false
  | _ => True

/-- Writing a construct writes one of its words. -/
theorem writes_write (c : Construct) (hformed : c.IsWellFormed)
    (hwritable : ∀ n ∈ c.nodes, n.IsWritable) : Writes c (write c) := by
  induction c using Construct.induction_parts with
  | h c ih =>
  have hself := hwritable c c.self_mem_nodes
  have hformedSelf := hformed c c.self_mem_nodes
  have hparts : ∀ e ∈ c.parts, Writes e (write e) := by
    intro e he
    exact ih e he (fun n hn => hformed n (Construct.mem_nodes.2 (.inr ⟨e, he, hn⟩)))
      (fun n hn => hwritable n (Construct.mem_nodes.2 (.inr ⟨e, he, hn⟩)))
  intro d d' s t hd h
  -- An open draft has not ended, so the construct is written and not left out.
  rw [write, hd.ended, if_neg Bool.false_ne_true] at h
  cases c with
  | empty =>
      rw [writeConstruct] at h
      obtain ⟨rfl, -⟩ := Draw.pure_eq_some.1 h
      exact ⟨hd, rfl, [], by simp, .empty⟩
  | literal x =>
      rw [writeConstruct] at h
      exact wrote_of_push hd rfl h
  | notLiteral x =>
      rw [writeConstruct] at h
      obtain ⟨y, u, hy, h⟩ := Draw.bind_eq_some.1 h
      exact wrote_of_push hd (ne_of_otherAscii hy) h
  | any =>
      rw [writeConstruct] at h
      obtain ⟨n, u, hn, h⟩ := Draw.bind_eq_some.1 h
      exact wrote_of_push hd (admits_any_of_below32 hn) h
  | charClass negated items =>
      rw [writeConstruct] at h
      obtain ⟨x, u, hx, h⟩ := Draw.bind_eq_some.1 h
      have hadmits : ∃ y, x = some y ∧ (Construct.charClass negated items).Admits y := by
        cases negated with
        | true => exact admits_of_negatedClassChar hself hx
        | false => exact admits_of_classChar hformedSelf.1 hformedSelf.2 hx
      obtain ⟨y, rfl, hy⟩ := hadmits
      exact wrote_of_push hd hy h
  | concat items =>
      rw [writeConstruct] at h
      exact wrote_of_writeAll hparts hd h
  | alternation branches =>
      cases branches with
      | nil => cases hformedSelf
      | cons b branches =>
          simp only [writeConstruct] at h
          obtain ⟨n, u, hn, h⟩ := Draw.bind_eq_some.1 h
          obtain ⟨e, he, hwrite⟩ := writeNth_eq_write (Draw.lt_of_index (by simp) hn)
          rw [hwrite] at h
          have hwrote := hparts e he hd h
          obtain ⟨w, hw, hmatch⟩ := hwrote.word
          exact ⟨hwrote.isOpen, hwrote.restarts, w, hw, .alternation he hmatch⟩
  | repetition least most body =>
      rw [writeConstruct] at h
      exact wrote_of_writeRepeated (hparts body List.mem_cons_self) hformedSelf hd h
  | group index body =>
      rw [writeConstruct] at h
      obtain ⟨d₁, u, hbody, h⟩ := Draw.bind_eq_some.1 h
      obtain ⟨rfl, -⟩ := Draw.pure_eq_some.1 h
      exact (hparts body List.mem_cons_self hd hbody).capture index
  | backref index =>
      rw [writeConstruct] at h
      rw [pushAll_eq_some hd h]
      exact ⟨⟨hd.ended, hd.boundary⟩, rfl, _, by simp [Draft.env], .backref⟩
  | anchor a => exact hself.elim
  | skipped k => exact hself.elim

/-! ## Texts -/

theorem language_of_candidate {text : String} (hformed : c.IsWellFormed)
    (hwritable : ∀ n ∈ c.nodes, n.IsWritable) (h : candidate c s = some (text, t)) :
    c.Language text.toList := by
  obtain ⟨d, u, hwrite, h⟩ := Draw.bind_eq_some.1 h
  obtain ⟨rfl, -⟩ := Draw.pure_eq_some.1 h
  have hwrote := writes_write c hformed hwritable ⟨rfl, rfl⟩ hwrite
  obtain ⟨w, hw, hmatch⟩ := hwrote.word
  refine ⟨d.env, ?_⟩
  rw [String.toList_ofList, hw]
  exact hmatch

/-- What a search ends with is the text of one of its walks. -/
theorem exists_candidate_of_search {accept : String → Bool} {n : Nat} {last text : String}
    (hn : 0 < n) (h : search accept c n last s = some (text, t)) :
    ∃ u u', candidate c u = some (text, u') := by
  obtain ⟨i, hchosen⟩ := (search_eq_some_iff hn).1 h
  exact exists_candidate_of_walkAt hchosen.walk_eq

/-- For a pattern without anchors and skipped constructs whose excluding classes all leave a
character of ASCII, every walk through its tree that ends makes a word of its language, and so
does every synthesis, whatever the check says. -/
theorem text_mem_language {pattern : String} {tree : Construct}
    (hparse : parse pattern = .ok tree) (hanchor : ∀ a, Construct.anchor a ∉ tree.nodes)
    (hskipped : ∀ k, Construct.skipped k ∉ tree.nodes)
    (hclass : ∀ items, Construct.charClass true items ∈ tree.nodes →
      ∃ c : Char, c.toNat < 128 ∧ items.any (·.has c) = false) :
    (∀ s text t, candidate tree s = some (text, t) → tree.Language text.toList) ∧
      ∀ (check? : String → Option (String → Bool)) (synthesizer : Synthesizer) (minLength : Nat),
        ∃ draw, synthesizer.synthesize check? pattern minLength =
            .ok (draw, synthesizer.remember pattern) ∧
          ∀ s text t, draw s = some (text, t) → tree.Language text.toList := by
  have hwritable : ∀ n ∈ tree.nodes, n.IsWritable := by
    intro n hn
    cases n with
    | anchor a => exact hanchor a hn
    | skipped k => exact hskipped k hn
    | charClass negated items =>
        cases negated with
        | true =>
            obtain ⟨c, hc, hleft⟩ := hclass items hn
            exact ⟨c, mem_ascii.2 hc, hleft⟩
        | false => trivial
    | _ => trivial
  have hcandidate : ∀ s text t, candidate tree s = some (text, t) → tree.Language text.toList :=
    fun s text t h => language_of_candidate (isWellFormed_of_parse hparse) hwritable h
  refine ⟨hcandidate, fun check? synthesizer minLength => ?_⟩
  refine ⟨_, by rw [Synthesizer.synthesize_eq, hparse]; rfl, fun s text t h => ?_⟩
  obtain ⟨u, u', hu⟩ := exists_candidate_of_search (by decide) h
  exact hcandidate u text u' hu

/-- One or two letters, the same again, and a character after them. -/
def doubled : Construct :=
  .concat [.group (some 1) (.repetition 1 (some 2) (.charClass false [.char 'a', .char 'b'])),
    .backref 1, .charClass true [.char 'c', .char 'd']]

theorem text_mem_language_doubled :
    parse "([ab]{1,2})\\1[^cd]" = .ok doubled ∧
      (∀ s text t, candidate doubled s = some (text, t) → doubled.Language text.toList) ∧
      ∀ (check? : String → Option (String → Bool)) (synthesizer : Synthesizer) (minLength : Nat),
        ∃ draw, synthesizer.synthesize check? "([ab]{1,2})\\1[^cd]" minLength =
            .ok (draw, synthesizer.remember "([ab]{1,2})\\1[^cd]") ∧
          ∀ s text t, draw s = some (text, t) → doubled.Language text.toList := by
  have hparse : parse "([ab]{1,2})\\1[^cd]" = .ok doubled := rfl
  have hnodes : ∀ items, Construct.charClass true items ∈ doubled.nodes →
      items = [.char 'c', .char 'd'] := by
    intro items h
    simpa [doubled, Construct.nodes, Construct.nodesOf] using h
  refine ⟨hparse, text_mem_language hparse ?_ ?_ ?_⟩
  · simp [doubled, Construct.nodes, Construct.nodesOf]
  · simp [doubled, Construct.nodes, Construct.nodesOf]
  · intro items h
    exact ⟨'x', by decide, by rw [hnodes items h]; rfl⟩

end Specimen.Regex
