import Specimen.Proofs.Random.Reach
import Specimen.Proofs.Regex.Soundness
/-!
# Every word that can be drawn is written

For each word of a tree that keeps to the characters the walk draws, some random words make the
walk write just that word. The random words of a construct are put together from those of its
parts: a choice needs the number of the branch, a repetition a coin before each copy past its
minimum and one more to stop, unless it has as many copies as it may have.
-/

namespace Specimen.Regex

open Specimen.Random

/-- The characters that a class item is drawn as: a category has only those of ASCII. -/
def ClassItem.Draws (i : ClassItem) (d : Char) : Prop :=
  i.has d = true ∧ match i with
    | .category _ => d.toNat < 128
    | .char _ | .range _ _ => True

/-- The characters that are drawn for a construct, among those that it stands for. -/
def Construct.Draws (c : Construct) (d : Char) : Prop :=
  c.Admits d ∧ match c with
    | .any => 0x20 ≤ d.toNat ∧ d.toNat ≤ 0x7e
    | .notLiteral _ | .charClass true _ => d.toNat < 128
    | .charClass false items => ∃ i ∈ items, i.Draws d
    | _ => True

/-! ## Characters -/

theorem reaches_otherAscii {c d : Char} (hne : d ≠ c) (hd : d.toNat < 128) :
    (otherAscii c).Reaches d := by
  have hcode : (Draw.below32 128).Reaches d.toNat := Draw.reaches_below32 hd (by decide)
  have hother : (Draw.repeatUntil (Draw.below32 128) (Draw.shrinks_below32 128)
      fun n => Char.ofNat n ≠ c).Reaches d.toNat :=
    Draw.reaches_repeatUntil hcode (by simpa using hne)
  have hchar := hother.map (f := Char.ofNat)
  rwa [Char.ofNat_toNat] at hchar

theorem reaches_charBetween {first last d : Char} (hfirst : first ≤ d) (hlast : d ≤ last) :
    (charBetween first last).Reaches d := by
  have hle : first.toNat ≤ d.toNat := hfirst
  have hle' : d.toNat ≤ last.toNat := hlast
  have hlt : last.toNat < 0x110000 := by
    rcases last.valid with h | h <;> simp only [Char.toNat_val] at h <;> omega
  have hcode : (Draw.below32 (last.toNat - first.toNat + 1)).Reaches (d.toNat - first.toNat) :=
    Draw.reaches_below32 (by omega) (by simp only [UInt32.size]; omega)
  have hvalid : d.toNat < 0xD800 ∨ 0xDFFF < d.toNat := by
    rcases d.valid with h | h <;> simp only [Char.toNat_val] at h <;> omega
  refine hcode.bind ?_
  rw [show first.toNat + (d.toNat - first.toNat) = d.toNat by omega]
  simp only [if_pos hvalid, Char.ofNat_toNat]
  exact Draw.reaches_pure d

theorem length_filter_ascii_le (f : Char → Bool) : (ascii.filter f).length ≤ UInt64.size := by
  have hle := List.length_filter_le f ascii
  have hascii : ascii.length = 128 := by simp [ascii]
  simp only [UInt64.size]
  omega

theorem reaches_itemChar {i : ClassItem} {d : Char} (h : i.Draws d) :
    (itemChar i).Reaches (some d) := by
  obtain ⟨hhas, hdraw⟩ := h
  cases i with
  | char c =>
      obtain rfl : c = d := by simpa [ClassItem.has] using hhas
      exact Draw.reaches_pure _
  | range first last =>
      have hmem : first ≤ d ∧ d ≤ last := by simpa [ClassItem.has] using hhas
      exact (reaches_charBetween hmem.1 hmem.2).map
  | category k =>
      have hmem : d ∈ ascii.filter k.has := List.mem_filter.2 ⟨mem_ascii.2 hdraw, hhas⟩
      exact Draw.reaches_pick hmem (length_filter_ascii_le _)

theorem reaches_classChar {negated : Bool} {items : List ClassItem} {d : Char}
    (h : (Construct.charClass negated items).Draws d) (hlength : items.length ≤ UInt64.size) :
    (classChar negated items).Reaches (some d) := by
  obtain ⟨hadmits, hdraw⟩ := h
  cases negated with
  | true =>
      have hmem : d ∈ ascii.filter fun c => !items.any (·.has c) :=
        List.mem_filter.2 ⟨mem_ascii.2 hdraw, by simpa [Construct.Admits] using hadmits⟩
      exact Draw.reaches_pick hmem (length_filter_ascii_le _)
  | false =>
      obtain ⟨i, hi, hdraw⟩ := hdraw
      exact (Draw.reaches_pick hi hlength).bind (reaches_itemChar hdraw)

/-! ## Steps -/

/-- Between two drafts a certain word has been written, which leaves certain bindings. -/
structure Appends (w : List Char) (env : Env) (d d' : Draft) : Prop where
  isOpen : d'.IsOpen
  restarts : d'.restarts = d.restarts
  text : d'.text.toList = d.text.toList ++ w
  env : d'.env = env

/-- A step that can write each drawn word of a construct onto every open draft. -/
def CanWrite (c : Construct) (step : Draft → Draw Draft) : Prop :=
  ∀ {d : Draft} {w : List Char} {env : Env}, d.IsOpen → Matches Construct.Draws d.env c w env →
    ∃ d', (step d).Reaches d' ∧ Appends w env d d'

variable {c : Construct} {d d' : Draft} {w : List Char} {env : Env}

theorem not_draws_concat (items : List Construct) (x : Char) :
    ¬ (Construct.concat items).Draws x := fun h => h.1

theorem Appends.refl (hd : d.IsOpen) : Appends [] d.env d d := ⟨hd, rfl, by simp, rfl⟩

theorem Appends.trans {d₁ : Draft} {w' : List Char} {env₁ : Env} (h : Appends w env₁ d d₁)
    (h' : Appends w' env d₁ d') : Appends (w ++ w') env d d' :=
  ⟨h'.isOpen, h'.restarts.trans h.restarts, by rw [h'.text, h.text, List.append_assoc], h'.env⟩

theorem reaches_push {x : Char} (hd : d.IsOpen) :
    ∃ d', (d.push x).Reaches d' ∧ Appends [x] d.env d d' := by
  obtain ⟨text, captures, restarts, boundary, ended⟩ := d
  obtain rfl : boundary = none := hd.boundary
  exact ⟨_, Draw.reaches_pure _, ⟨hd.ended, rfl⟩, rfl, Array.toList_push, rfl⟩

theorem reaches_pushAll {cs : List Char} (hd : d.IsOpen) :
    ∃ d', (d.pushAll cs).Reaches d' ∧ Appends cs d.env d d' := by
  induction cs generalizing d with
  | nil => exact ⟨d, Draw.reaches_pure d, .refl hd⟩
  | cons x cs ih =>
      obtain ⟨d₁, hpush, hone⟩ := reaches_push (x := x) hd
      obtain ⟨d', hrest, hall⟩ := ih hone.isOpen
      rw [hone.env] at hall
      exact ⟨d', hpush.bind hrest, hone.trans hall⟩

/-! ## Sequences and repetitions -/

theorem canWrite_writeAll {cs : List Construct} (hcs : ∀ c ∈ cs, CanWrite c (write c)) :
    CanWrite (.concat cs) (writeAll cs) := by
  intro d w env hd h
  induction cs generalizing d w with
  | nil =>
      cases h with
      | char hx => exact absurd hx (not_draws_concat _ _)
      | nil =>
          rw [writeAll]
          exact ⟨d, Draw.reaches_pure d, .refl hd⟩
  | cons c cs ih =>
      cases h with
      | char hx => exact absurd hx (not_draws_concat _ _)
      | cons hc hrest =>
          rw [List.forall_mem_cons] at hcs
          obtain ⟨d₁, hfirst, hone⟩ := hcs.1 hd hc
          rw [← hone.env] at hrest
          obtain ⟨d', hlast, hall⟩ := ih hcs.2 hone.isOpen hrest
          rw [writeAll]
          exact ⟨d', hfirst.bind hlast, hone.trans hall⟩

section Repetition

variable {step : Draft → Draw Draft} (hstep : CanWrite c step)
include hstep

theorem canWrite_writeTimes (n : Nat) :
    CanWrite (.concat (List.replicate n c)) (writeTimes step n) := by
  intro d w env hd h
  induction n generalizing d w with
  | zero =>
      cases h with
      | char hx => exact absurd hx (not_draws_concat _ _)
      | nil => exact ⟨d, Draw.reaches_pure d, .refl hd⟩
  | succ n ih =>
      cases h with
      | char hx => exact absurd hx (not_draws_concat _ _)
      | cons hc hrest =>
          obtain ⟨d₁, hfirst, hone⟩ := hstep hd hc
          rw [← hone.env] at hrest
          obtain ⟨d', hlast, hall⟩ := ih hone.isOpen hrest
          refine ⟨d', ?_, hone.trans hall⟩
          simp only [writeTimes, hd.ended, Bool.false_eq_true, if_false]
          exact hfirst.bind hlast

/-- Some words make an optional repetition write so many copies and then go on from there; each
copy takes at least the words of its coin. -/
theorem exists_words_of_copies {k : Nat} (hd : d.IsOpen)
    (h : Matches Construct.Draws d.env (.concat (List.replicate k c)) w env) :
    ∃ d' words, Appends w env d d' ∧ k ≤ words.length ∧
      ∀ n (s : Source), writeUpTo step (k + n) d (s.after words) = writeUpTo step n d' s := by
  induction k generalizing d w with
  | zero =>
      cases h with
      | char hx => exact absurd hx (not_draws_concat _ _)
      | nil => exact ⟨d, [], .refl hd, Nat.le_refl _, fun n s => by rw [Nat.zero_add]; rfl⟩
  | succ k ih =>
      cases h with
      | char hx => exact absurd hx (not_draws_concat _ _)
      | cons hc hrest =>
          obtain ⟨d₁, ⟨words, hfirst⟩, hone⟩ := hstep hd hc
          rw [← hone.env] at hrest
          obtain ⟨d', more, hall, hlength, hgo⟩ := ih hone.isOpen hrest
          obtain ⟨low, high, hcoin⟩ := Draw.exists_spells_coin false
          refine ⟨d', [low, high] ++ (words ++ more), hone.trans hall, ?_, fun n s => ?_⟩
          · simp only [List.length_append, List.length_cons, List.length_nil]
            omega
          · rw [show k + 1 + n = k + n + 1 by omega, writeUpTo, hd.ended,
              if_neg Bool.false_ne_true,
              Source.after_append, hcoin.bind_apply, if_neg Bool.false_ne_true,
              Source.after_append, hfirst.bind_apply, hgo]

omit hstep in
variable (step) in
/-- A coin can stop an optional repetition wherever it goes on. -/
theorem exists_words_of_stop (hd : d.IsOpen) :
    ∃ words, ∀ n, Draw.Spells words (writeUpTo step (n + 1) d) d := by
  obtain ⟨low, high, hcoin⟩ := Draw.exists_spells_coin true
  refine ⟨[low, high], fun n s => ?_⟩
  rw [writeUpTo, hd.ended, if_neg Bool.false_ne_true, hcoin.bind_apply]
  rfl

theorem canWrite_writeUpTo {k n : Nat} (hk : k ≤ n) :
    CanWrite (.concat (List.replicate k c)) (writeUpTo step n) := by
  intro d w env hd h
  obtain ⟨d', words, happends, -, hgo⟩ := exists_words_of_copies hstep hd h
  refine ⟨d', ?_, happends⟩
  obtain ⟨m, rfl⟩ := Nat.exists_eq_add_of_le hk
  cases m with
  | zero => exact ⟨words, fun s => hgo 0 s⟩
  | succ m =>
      obtain ⟨more, hstop⟩ := exists_words_of_stop step happends.isOpen
      exact ⟨words ++ more, fun s => by rw [Source.after_append, hgo, hstop]⟩

/-- The rounds of an unlimited repetition are limited by the words in the source, which
are enough for the coins. -/
theorem canWrite_writeOn (k : Nat) :
    CanWrite (.concat (List.replicate k c)) (writeOn step) := by
  intro d w env hd h
  obtain ⟨d', words, happends, hlength, hgo⟩ := exists_words_of_copies hstep hd h
  obtain ⟨more, hstop⟩ := exists_words_of_stop step happends.isOpen
  refine ⟨d', ⟨words ++ more, fun s => ?_⟩, happends⟩
  rw [writeOn, Source.remaining_after, List.length_append]
  obtain ⟨m, hm⟩ : ∃ m, words.length + more.length + s.remaining + 1 = k + (m + 1) :=
    ⟨words.length + more.length + s.remaining - k, by omega⟩
  rw [hm, Source.after_append, hgo, hstop]

theorem canWrite_writeRepeated (least : Nat) (most : Option Nat) :
    CanWrite (.repetition least most c) (writeRepeated step least most) := by
  intro d w env hd h
  cases h with
  | char hx => exact hx.1.elim
  | @repetition _ _ _ k _ _ _ hleast hmost hcopies =>
      obtain ⟨j, rfl⟩ := Nat.exists_eq_add_of_le hleast
      rw [← List.replicate_append_replicate] at hcopies
      obtain ⟨w₁, env₁, w₂, rfl, hfirst, hrest⟩ := hcopies.exists_append not_draws_concat
      obtain ⟨d₁, hreach, hone⟩ := canWrite_writeTimes hstep least hd hfirst
      rw [← hone.env] at hrest
      cases most with
      | none =>
          obtain ⟨d', hlast, hall⟩ := canWrite_writeOn hstep j hone.isOpen hrest
          exact ⟨d', hreach.bind hlast, hone.trans hall⟩
      | some m =>
          have hm := hmost m rfl
          obtain ⟨d', hlast, hall⟩ :=
            canWrite_writeUpTo hstep (show j ≤ m - least by omega) hone.isOpen hrest
          refine ⟨d', ?_, hone.trans hall⟩
          rw [writeRepeated, Nat.min_eq_left (by omega)]
          exact hreach.bind hlast

end Repetition

/-! ## Trees -/

theorem exists_writeNth {cs : List Construct} (hc : c ∈ cs) (d : Draft) :
    ∃ n < cs.length, writeNth cs n d = write c d := by
  induction cs with
  | nil => cases hc
  | cons b cs ih =>
      rcases List.mem_cons.1 hc with rfl | hc
      · exact ⟨0, Nat.succ_pos _, by rw [writeNth]⟩
      · obtain ⟨n, hn, hwrite⟩ := ih hc
        exact ⟨n + 1, Nat.succ_lt_succ hn, by rw [writeNth, hwrite]⟩

theorem Appends.capture (h : Appends w env d d') (i : Nat) :
    Appends w (env.bind i w) d (d'.capture d (some i)) := by
  refine ⟨⟨h.isOpen.ended, h.isOpen.boundary⟩, h.restarts, h.text, ?_⟩
  rw [env_capture i h.restarts h.text, h.env]

/-- Every drawn word of a construct can be written, if the lists it chooses
from have lengths of 64 bits. -/
theorem canWrite_write (c : Construct) (hwidth : ∀ n ∈ c.nodes, n.width ≤ UInt64.size) :
    CanWrite c (write c) := by
  induction c using Construct.induction_parts with
  | h c ih =>
  have hself := hwidth c c.self_mem_nodes
  have hparts : ∀ e ∈ c.parts, CanWrite e (write e) := by
    intro e he
    exact ih e he fun n hn => hwidth n (Construct.mem_nodes.2 (.inr ⟨e, he, hn⟩))
  intro d w env hd h
  rw [write, hd.ended, if_neg Bool.false_ne_true]
  cases h with
  | empty =>
      rw [writeConstruct]
      exact ⟨d, Draw.reaches_pure d, .refl hd⟩
  | @char _ _ x hx =>
      cases c with
      | literal y =>
          obtain rfl : x = y := hx.1
          rw [writeConstruct]
          exact reaches_push hd
      | notLiteral y =>
          rw [writeConstruct]
          obtain ⟨d', hpush, happends⟩ := reaches_push (x := x) hd
          exact ⟨d', (reaches_otherAscii hx.1 hx.2).bind hpush, happends⟩
      | any =>
          obtain ⟨-, hlow, hhigh⟩ := hx
          rw [writeConstruct]
          obtain ⟨d', hpush, happends⟩ := reaches_push (x := x) hd
          have hcode : (Draw.below32 95).Reaches (x.toNat - 0x20) :=
            Draw.reaches_below32 (by omega) (by decide)
          refine ⟨d', hcode.bind ?_, happends⟩
          rwa [show 0x20 + (x.toNat - 0x20) = x.toNat by omega, Char.ofNat_toNat]
      | charClass negated items =>
          rw [writeConstruct]
          obtain ⟨d', hpush, happends⟩ := reaches_push (x := x) hd
          exact ⟨d', (reaches_classChar hx hself).bind hpush, happends⟩
      | _ => exact hx.1.elim
  | nil =>
      rw [writeConstruct]
      exact canWrite_writeAll hparts hd .nil
  | cons hc hrest =>
      rw [writeConstruct]
      exact canWrite_writeAll hparts hd (.cons hc hrest)
  | @alternation _ _ b branches _ hb hmatch =>
      obtain ⟨n, hn, hwrite⟩ := exists_writeNth hb d
      obtain ⟨d', hbranch, happends⟩ := hparts b hb hd hmatch
      refine ⟨d', ?_, happends⟩
      rw [← hwrite] at hbranch
      cases branches with
      | nil => cases hb
      | cons b' branches =>
          simp only [writeConstruct]
          exact (Draw.reaches_index hn hself).bind hbranch
  | @repetition _ _ least k most body _ hleast hmost hcopies =>
      rw [writeConstruct]
      exact canWrite_writeRepeated (hparts body List.mem_cons_self) least most hd
        (.repetition hleast hmost hcopies)
  | @group _ _ body _ hbody =>
      obtain ⟨d', hreach, happends⟩ := hparts body List.mem_cons_self hd hbody
      rw [writeConstruct]
      exact ⟨d', hreach.bind (Draw.reaches_pure _), happends⟩
  | @capture _ _ i body _ hbody =>
      obtain ⟨d', hreach, happends⟩ := hparts body List.mem_cons_self hd hbody
      rw [writeConstruct]
      exact ⟨_, hreach.bind (Draw.reaches_pure _), happends.capture i⟩
  | @backref _ i =>
      rw [writeConstruct]
      exact reaches_pushAll hd

/-- For every pattern with a tree, each word of the tree that keeps to the drawn characters is
what the walk writes from some finite sequence of random words, which it uses up. The number of
the pattern's characters is one of 64 bits, as that of any text in memory. -/
theorem exists_words_of_matches {pattern : String} {tree : Construct}
    (hlength : pattern.length < UInt64.size) (hparse : parse pattern = .ok tree) {w : List Char}
    {env : Env} (hw : Matches Construct.Draws (fun _ => none) tree w env) :
    ∃ words, candidate tree (.tape words) = some (String.ofList w, .tape []) := by
  have hwidth : ∀ n ∈ tree.nodes, n.width ≤ UInt64.size := by
    intro n hn
    have hle := width_of_parse hparse n hn
    omega
  obtain ⟨d', hreach, happends⟩ := canWrite_write tree hwidth (d := {}) ⟨rfl, rfl⟩ hw
  obtain ⟨words, hwords⟩ :=
    hreach.map (f := fun d : Draft => String.ofList d.text.toList)
  refine ⟨words, ?_⟩
  rw [Source.tape_eq_after]
  have htext : d'.text.toList = w := by simpa using happends.text
  rw [← htext]
  exact hwords _

/-- One letter of `doubled` is drawn again for its second copy, and both are repeated. -/
theorem matches_doubled :
    ∃ env, Matches Construct.Draws (fun _ => none) doubled "ababx".toList env := by
  have ha : (Construct.charClass false [.char 'a', .char 'b']).Draws 'a' :=
    ⟨rfl, .char 'a', by simp, rfl, trivial⟩
  have hb : (Construct.charClass false [.char 'a', .char 'b']).Draws 'b' :=
    ⟨rfl, .char 'b', by simp, rfl, trivial⟩
  have hx : (Construct.charClass true [.char 'c', .char 'd']).Draws 'x' :=
    ⟨rfl, show 'x'.toNat < 128 by decide⟩
  have htwo : Matches Construct.Draws (fun _ => none)
      (.repetition 1 (some 2) (.charClass false [.char 'a', .char 'b'])) ['a', 'b']
      fun _ => none :=
    .repetition (k := 2) (by decide) (by simp) (.cons (.char ha) (.cons (.char hb) .nil))
  exact ⟨_, .cons (.capture htwo) (.cons .backref (.cons (.char hx) .nil))⟩

theorem exists_words_doubled :
    "([ab]{1,2})\\1[^cd]".length < UInt64.size ∧
      parse "([ab]{1,2})\\1[^cd]" = .ok doubled ∧
      ∃ env, Matches Construct.Draws (fun _ => none) doubled "ababx".toList env ∧
        ∃ words, candidate doubled (.tape words) =
          some (String.ofList "ababx".toList, .tape []) := by
  obtain ⟨env, hmatch⟩ := matches_doubled
  have hlength : "([ab]{1,2})\\1[^cd]".length < UInt64.size := by decide
  exact ⟨hlength, rfl, env, hmatch, exists_words_of_matches hlength rfl hmatch⟩

end Specimen.Regex
