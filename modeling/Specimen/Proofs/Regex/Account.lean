import Specimen.Proofs.Regex.Replay
/-!
# What a walk tells

What a walk tells are steps that lead from the draft it found to the draft that it leaves, one
after the other, and the words that they take are those that the source loses. What the groups
captured is what was pushed in them, and each character written is one that a construct of the
tree stands for (`recital_write`).
-/

namespace Specimen.Regex

open Specimen.Random

/-! ## What characters are written -/

/-- The characters that a construct itself writes, where the groups have captured some texts. -/
def Construct.Offers (captures : List (Nat × List Char)) : Construct → Char → Prop
  | .literal c, x => x = c
  | .notLiteral c, x => x ≠ c
  | .any, x => 0x20 ≤ x.toNat ∧ x.toNat ≤ 0x7e
  | .charClass true items, x => x ∈ ascii ∧ items.any (·.has x) = false
  | .charClass false items, x => ∃ i ∈ items, i.Offers x
  | .backref i, x => ∃ w, (i, w) ∈ captures ∧ x ∈ w
  | _, _ => False

theorem Construct.Offers.mono {captures captures' : List (Nat × List Char)} {c : Construct}
    {x : Char} (h : c.Offers captures x) (hsub : captures ⊆ captures') :
    c.Offers captures' x := by
  cases c with
  | backref i =>
      obtain ⟨w, hw, hx⟩ := h
      exact ⟨w, hsub hw, hx⟩
  | charClass negated items => cases negated <;> exact h
  | _ => exact h

section Characters

variable {s t : Source}

theorem offers_of_classChar (captures : List (Nat × List Char)) {negated : Bool}
    {items : List ClassItem} {c : Char} (h : classChar negated items s = some (some c, t)) :
    (Construct.charClass negated items).Offers captures c := by
  cases negated with
  | true =>
      rw [classChar, if_pos rfl] at h
      have hne : (ascii.filter fun c => !items.any (·.has c)) ≠ [] := by
        intro hnil
        rw [hnil] at h
        cases h
      obtain ⟨c', hc, hsame⟩ := Draw.mem_of_pick hne h
      cases hsame
      obtain ⟨hascii, hleft⟩ := List.mem_filter.1 hc
      exact ⟨hascii, by simpa using hleft⟩
  | false =>
      obtain ⟨i, hi, hoffers⟩ := exists_offers_of_classChar h
      exact ⟨i, hi, hoffers⟩

theorem offers_any (captures : List (Nat × List Char)) {n : Nat}
    (h : Draw.below32 95 s = some (n, t)) :
    Construct.any.Offers captures (Char.ofNat (0x20 + n)) := by
  have hlt := Draw.lt_of_below32 (by omega) h
  have hnat := toNat_ofNat (show (0x20 + n).isValidChar from .inl (by omega))
  show 0x20 ≤ (Char.ofNat (0x20 + n)).toNat ∧ (Char.ofNat (0x20 + n)).toNat ≤ 0x7e
  omega

/-- What fills a word boundary, or else the next character, is of another kind than the character
before it. -/
theorem separates_of_filler {before : Option Char} {c : Char} {f : Option Char}
    (h : Draft.filler before c s = some (f, t)) :
    before.any isWordChar ≠ isWordChar (f.getD c) := by
  unfold Draft.filler at h
  split at h
  · rename_i hsame
    split at h
    · rename_i hword
      obtain ⟨rfl, -⟩ := Draw.pure_eq_some.1 h
      rw [hword]
      show true ≠ isWordChar ' '
      decide
    · rename_i hword
      obtain ⟨a, ha, rfl⟩ := Draw.mem_of_pick (by decide) h
      have hfiller : wordFillers.all isWordChar = true := by decide
      rw [Option.getD_some, List.all_eq_true.1 hfiller a ha]
      exact hword
  · rename_i hdiffer
    obtain ⟨rfl, -⟩ := Draw.pure_eq_some.1 h
    exact hdiffer

end Characters

/-! ## Draws of a walk -/

section Keeps

open Draw

theorem keeps_otherAscii (c : Char) : (otherAscii c).Keeps :=
  (shrinks_loop _ _ _).keeps.bind fun _ => keeps_pure _

theorem keeps_itemChar (i : ClassItem) : (itemChar i).Keeps := by
  cases i with
  | char c => exact keeps_pure _
  | range first last =>
      have hcode : (charBetween first last).Keeps :=
        (shrinks_below32 _).keeps.bind fun _ => keeps_pure _
      exact hcode.bind fun _ => keeps_pure _
  | category k => exact keeps_pick _

theorem keeps_classChar (negated : Bool) (items : List ClassItem) :
    (classChar negated items).Keeps := by
  unfold classChar
  split
  · exact keeps_pick _
  · refine (keeps_pick items).bind fun i => ?_
    cases i with
    | none => exact keeps_pure _
    | some i => exact keeps_itemChar i

theorem keeps_filler (before : Option Char) (c : Char) : (Draft.filler before c).Keeps := by
  unfold Draft.filler
  dsimp only
  split
  · split
    · exact keeps_pure _
    · exact keeps_pick _
  · exact keeps_pure _

end Keeps

/-! ## Leading from draft to draft -/

/-- The texts of the groups that were closed, the latest first. -/
def Trace.memos (trace : Trace) : List (Nat × List Char) :=
  (trace.groups.map fun g => (g.1, pushed (sinceStart g.2))).reverse

/-- What was told leads from one draft to another and accounts for what
was captured and written. -/
structure Leads (nodes : List Construct) (d : Draft) (trace : Trace) (d' : Draft) : Prop where
  makes : Makes d trace.steps d'
  captures : d'.captures = trace.memos ++ d.captures
  offered : ∀ c, Step.write c ∈ trace.steps → ∃ n ∈ nodes, n.Offers d'.captures c
  /-- What was done in a group is a stretch of all that was done. -/
  inside : ∀ g ∈ trace.groups, g.2 <:+: trace.steps

namespace Leads

variable {nodes nodes' : List Construct} {d d₁ d' : Draft} {trace more : Trace}

theorem refl (nodes : List Construct) (d : Draft) : Leads nodes d {} d :=
  ⟨.refl d, rfl, nofun, nofun⟩

theorem memos_append (trace more : Trace) :
    (trace ++ more).memos = more.memos ++ trace.memos := by
  unfold Trace.memos
  rw [Trace.groups_append, List.map_append, List.reverse_append]

theorem trans (h : Leads nodes d trace d₁) (h' : Leads nodes d₁ more d') :
    Leads nodes d (trace ++ more) d' where
  makes := h.makes.append h'.makes
  captures := by rw [h'.captures, h.captures, memos_append, List.append_assoc]
  offered := by
    intro c hc
    rcases List.mem_append.1 hc with hc | hc
    · obtain ⟨n, hn, hoffers⟩ := h.offered c hc
      refine ⟨n, hn, hoffers.mono ?_⟩
      rw [h'.captures]
      exact List.subset_append_right _ _
    · exact h'.offered c hc
  inside := by
    intro g hg
    rcases List.mem_append.1 hg with hg | hg
    · exact (h.inside g hg).trans (List.prefix_append _ _).isInfix
    · exact (h'.inside g hg).trans (List.suffix_append _ _).isInfix

theorem mono (h : Leads nodes d trace d') (hsub : nodes ⊆ nodes') : Leads nodes' d trace d' := by
  refine ⟨h.makes, h.captures, fun c hc => ?_, h.inside⟩
  obtain ⟨n, hn, hoffers⟩ := h.offered c hc
  exact ⟨n, hsub hn, hoffers⟩

/-- Steps that leave the captures as they are. -/
theorem of_makes {es : List Step} (h : Makes d es d') (hcaptures : d'.captures = d.captures)
    (hoffered : ∀ c, Step.write c ∈ es → ∃ n ∈ nodes, n.Offers d.captures c) :
    Leads nodes d ⟨es, []⟩ d' :=
  ⟨h, hcaptures, fun c hc => hcaptures ▸ hoffered c hc, nofun⟩

theorem of_draw (nodes : List Construct) (hd : d.ended = false) (n : Nat) :
    Leads nodes d ⟨[.draw n], []⟩ d :=
  of_makes (.single (Draft.allows_of_char?_eq_none hd rfl)) rfl (by simp)

/-- A group that is closed captures what was pushed in it. -/
theorem capture (h : Leads nodes d trace d') (index : Option Nat) :
    Leads nodes d
      { trace with groups := trace.groups ++ index.toList.map fun i => (i, trace.steps) }
      (d'.capture d index) := by
  cases index with
  | none =>
      simp only [Option.toList_none, List.map_nil, List.append_nil]
      exact h
  | some i =>
      have hcaptures := h.makes.captures_capture i
      have hmemos : ({ trace with groups := trace.groups ++ [(i, trace.steps)] } : Trace).memos =
          (i, pushed (sinceStart trace.steps)) :: trace.memos := by
        unfold Trace.memos
        rw [List.map_append, List.reverse_append]
        rfl
      refine ⟨?_, ?_, fun c hc => ?_, fun g hg => ?_⟩
      · have hmakes := h.makes.append (.nil d' (d'.capture d (some i)).captures)
        rwa [List.append_nil] at hmakes
      · rw [hcaptures, h.captures]
        exact (congrArg (· ++ d.captures) hmemos).symm
      · obtain ⟨n, hn, hoffers⟩ := h.offered c hc
        refine ⟨n, hn, hoffers.mono ?_⟩
        rw [hcaptures]
        exact List.subset_cons_self _ _
      · rcases List.mem_append.1 hg with hg | hg
        · exact h.inside g hg
        · obtain rfl := List.mem_singleton.1 hg
          exact List.infix_refl _

end Leads

/-! ## Characters -/

section Push

variable {nodes : List Construct} {d : Draft}

/-- A character is written after the filler of a boundary that waits for it. -/
theorem recital_push {c : Char} (hd : d.ended = false)
    (hc : ∃ n ∈ nodes, n.Offers d.captures c) :
    Recital (.push d c) (d.push c) fun d' trace =>
      Leads nodes d trace d' ∧ d'.ended = false ∧ d'.captures = d.captures := by
  obtain ⟨n, hn, hoffers⟩ := hc
  unfold Traced.push Draft.push
  cases hboundary : d.boundary with
  | none =>
      have hallows : d.Allows (.write c) := d.allows_write hd (by simp [hboundary])
      refine .tell rfl ⟨.of_makes (.single hallows) rfl ?_, hd, rfl⟩
      simpa using ⟨n, hn, hoffers⟩
  | some position =>
      -- What is drawn for the boundary ends it, with or without a filler.
      have hfiller := Recital.draw (keeps_filler (d.charBefore position) c)
        fun s f t h => separates_of_filler h
      refine hfiller.bind fun f first hf => ?_
      obtain ⟨hseparates, k, rfl⟩ := hf
      have hdraw := Leads.of_draw nodes hd k
      cases f with
      | none =>
          have hallows : d.Allows (.write c) := by
            apply d.allows_write hd
            intro p hp
            cases hboundary.symm.trans hp
            exact hseparates
          refine .tell rfl ⟨hdraw.trans (.of_makes (.single hallows) rfl ?_), hd, rfl⟩
          simpa using ⟨n, hn, hoffers⟩
      | some f =>
          have hfill : d.Allows (.fill f) := d.allows_fill hd hboundary hseparates
          have hwrite : (d.after (.fill f)).Allows (.write c) := Draft.allows_write hd nofun
          refine .tell rfl ⟨hdraw.trans (.of_makes (.cons hfill (.single hwrite)) rfl ?_),
            hd, rfl⟩
          simpa using ⟨n, hn, hoffers⟩

theorem recital_pushAll {cs : List Char} (hd : d.ended = false)
    (hcs : ∀ c ∈ cs, ∃ n ∈ nodes, n.Offers d.captures c) :
    Recital (.pushAll d cs) (d.pushAll cs) fun d' trace => Leads nodes d trace d' := by
  induction cs generalizing d with
  | nil => exact .pure (.refl nodes d)
  | cons c cs ih =>
      rw [List.forall_mem_cons] at hcs
      refine (recital_push hd hcs.1).bind fun d₁ first h => ?_
      obtain ⟨hleads, hended, hcaptures⟩ := h
      refine (ih hended ?_).mono fun d' second h => hleads.trans h
      rw [hcaptures]
      exact hcs.2

/-- A character that is drawn is written. -/
theorem recital_draw_push {draw : Draw Char} (hd : d.ended = false) (hkeeps : draw.Keeps)
    (hoffers : ∀ s c t, draw s = some (c, t) → ∃ n ∈ nodes, n.Offers d.captures c) :
    Recital (do .push d (← .draw draw)) (do d.push (← draw)) fun d' trace =>
      Leads nodes d trace d' := by
  refine (Recital.draw hkeeps hoffers).bind fun c first h => ?_
  obtain ⟨hc, k, rfl⟩ := h
  exact (recital_push hd hc).mono fun d' second h => (Leads.of_draw nodes hd k).trans h.1

end Push

/-! ## Constructs -/

section Steps

variable {nodes : List Construct} {step : Draft → Traced Draft} {step' : Draft → Draw Draft}
  (hstep : ∀ d, Recital (step d) (step' d) fun d' trace => Leads nodes d trace d')

include hstep

theorem recital_writeTimes (n : Nat) (d : Draft) :
    Recital (.writeTimes step n d) (writeTimes step' n d) fun d' trace =>
      Leads nodes d trace d' := by
  induction n generalizing d with
  | zero => exact .pure (.refl nodes d)
  | succ n ih =>
      unfold Traced.writeTimes writeTimes
      split
      · exact .pure (.refl nodes d)
      · exact (hstep d).bind fun d₁ first h => (ih d₁).mono fun d' second h' => h.trans h'

theorem recital_writeUpTo (n : Nat) (d : Draft) :
    Recital (.writeUpTo step n d) (writeUpTo step' n d) fun d' trace =>
      Leads nodes d trace d' := by
  induction n generalizing d with
  | zero => exact .pure (.refl nodes d)
  | succ n ih =>
      unfold Traced.writeUpTo writeUpTo
      split
      · exact .pure (.refl nodes d)
      · rename_i hd
        have hcoin := Recital.draw Draw.shrinks_coin.keeps fun _ _ _ _ => trivial
        refine hcoin.bind fun stop first h => ?_
        obtain ⟨-, k, rfl⟩ := h
        have hdraw := Leads.of_draw nodes (Bool.eq_false_iff.2 hd) k
        split
        · refine .pure ?_
          rw [Trace.append_empty]
          exact hdraw
        · refine (hstep d).bind fun d₁ second h => ?_
          exact (ih d₁).mono fun d' third h' => hdraw.trans (h.trans h')

theorem recital_writeRepeated (least : Nat) (most : Option Nat) (d : Draft) :
    Recital (.writeRepeated step least most d) (writeRepeated step' least most d)
      fun d' trace => Leads nodes d trace d' := by
  cases most with
  | none =>
      -- How many rounds are tried depends on the source, so each source
      -- has a recital of its own.
      refine (recital_writeTimes hstep least d).bind fun d₁ first h => ?_
      have hrest := fun n => (recital_writeUpTo hstep n d₁).mono
        fun d' second (h' : Leads nodes d₁ second d') => h.trans h'
      exact ⟨fun s => (hrest _).same s,
        fun {s a trace t} hx => (hrest (s.remaining + 1)).words hx,
        fun {s a trace t} hx => (hrest (s.remaining + 1)).related hx⟩
  | some m =>
      refine (recital_writeTimes hstep (min least m) d).bind fun d₁ first h => ?_
      exact (recital_writeUpTo hstep (m - least) d₁).mono fun d' second h' => h.trans h'

end Steps

section Lists

variable {nodes : List Construct} {cs : List Construct}
  (hcs : ∀ c ∈ cs, ∀ d, Recital (.write c d) (write c d) fun d' trace => Leads nodes d trace d')

include hcs

theorem recital_writeAll (d : Draft) :
    Recital (.writeAll cs d) (writeAll cs d) fun d' trace => Leads nodes d trace d' := by
  induction cs generalizing d with
  | nil =>
      rw [Traced.writeAll, writeAll]
      exact .pure (.refl nodes d)
  | cons c cs ih =>
      rw [List.forall_mem_cons] at hcs
      rw [Traced.writeAll, writeAll]
      refine (hcs.1 d).bind fun d₁ first h => ?_
      exact (ih hcs.2 d₁).mono fun d' second h' => h.trans h'

theorem recital_writeNth (n : Nat) (d : Draft) :
    Recital (.writeNth cs n d) (writeNth cs n d) fun d' trace => Leads nodes d trace d' := by
  induction cs generalizing n with
  | nil =>
      rw [Traced.writeNth, writeNth]
      exact .pure (.refl nodes d)
  | cons c cs ih =>
      rw [List.forall_mem_cons] at hcs
      cases n with
      | zero =>
          rw [Traced.writeNth, writeNth]
          exact hcs.1 d
      | succ n =>
          rw [Traced.writeNth, writeNth]
          exact ih hcs.2 n

end Lists

theorem recital_close {nodes : List Construct} {d : Draft} {body : Traced Draft}
    {body' : Draw Draft} (h : Recital body body' fun d' trace => Leads nodes d trace d')
    (index : Option Nat) :
    Recital (.close d index body) (do pure ((← body').capture d index)) fun d' trace =>
      Leads nodes d trace d' := by
  refine ⟨fun s => ?_, fun hx => ?_, fun hx => ?_⟩
  · show ((body s).map _).map _ = (body' s).bind fun result => _
    rw [← h.same s]
    cases body s <;> rfl
  · obtain ⟨⟨d₁, trace, t⟩, hbody, hx⟩ := Option.map_eq_some_iff.1 hx
    cases hx
    have hwords := h.words hbody
    exact hwords
  · obtain ⟨⟨d₁, trace, t⟩, hbody, hx⟩ := Option.map_eq_some_iff.1 hx
    cases hx
    exact (h.related hbody).capture index

/-- A walk that tells what it does does the same as one that does not, and what it tells accounts
for the draft that it leaves. -/
theorem recital_write (c : Construct) (d : Draft) :
    Recital (.write c d) (write c d) fun d' trace => Leads c.nodes d trace d' := by
  induction c using Construct.induction_parts generalizing d with
  | h c ih =>
  have hparts : ∀ e ∈ c.parts, ∀ d,
      Recital (.write e d) (write e d) fun d' trace => Leads c.nodes d trace d' := by
    intro e he d
    refine (ih e he d).mono fun d' trace h => h.mono fun n hn => ?_
    exact Construct.mem_nodes.2 (.inr ⟨e, he, hn⟩)
  have hself : ∀ {captures : List (Nat × List Char)} {x : Char}, c.Offers captures x →
      ∃ n ∈ c.nodes, n.Offers captures x := fun h => ⟨c, c.self_mem_nodes, h⟩
  rw [Traced.write, write]
  split
  · exact .pure (.refl _ d)
  rename_i hd
  have hd : d.ended = false := Bool.eq_false_iff.2 hd
  cases c with
  | empty =>
      rw [Traced.writeConstruct, writeConstruct]
      exact .pure (.refl _ d)
  | literal x =>
      rw [Traced.writeConstruct, writeConstruct]
      exact (recital_push hd (hself rfl)).mono fun d' trace h => h.1
  | notLiteral x =>
      rw [Traced.writeConstruct, writeConstruct]
      exact recital_draw_push hd (keeps_otherAscii x) fun s y t h => hself (ne_of_otherAscii h)
  | any =>
      rw [Traced.writeConstruct, writeConstruct]
      have hcode := Recital.draw (Draw.shrinks_below32 95).keeps fun s n t h =>
        hself (offers_any d.captures h)
      refine hcode.bind fun n first h => ?_
      obtain ⟨hc, k, rfl⟩ := h
      exact (recital_push hd hc).mono fun d' second h => (Leads.of_draw _ hd k).trans h.1
  | charClass negated items =>
      rw [Traced.writeConstruct, writeConstruct]
      have hclass := Recital.draw (keeps_classChar negated items) fun s x t h =>
        show ∀ y ∈ x, _ from fun y hy => hself (offers_of_classChar d.captures (hy ▸ h))
      refine hclass.bind fun x first h => ?_
      obtain ⟨hx, k, rfl⟩ := h
      have hdraw := Leads.of_draw (Construct.charClass negated items).nodes hd k
      cases x with
      | none =>
          refine .pure ?_
          rw [Trace.append_empty]
          exact hdraw
      | some y =>
          exact (recital_push hd (hx y rfl)).mono fun d' second h => hdraw.trans h.1
  | concat items =>
      rw [Traced.writeConstruct, writeConstruct]
      exact recital_writeAll hparts d
  | alternation branches =>
      cases branches with
      | nil =>
          simp only [Traced.writeConstruct, writeConstruct]
          exact .pure (.refl _ d)
      | cons b branches =>
          simp only [Traced.writeConstruct, writeConstruct]
          have hindex :=
            Recital.draw (Draw.keeps_index (b :: branches).length) fun _ _ _ _ => trivial
          refine hindex.bind fun n first h => ?_
          obtain ⟨-, k, rfl⟩ := h
          exact (recital_writeNth hparts n d).mono fun d' second h =>
            (Leads.of_draw _ hd k).trans h
  | repetition least most body =>
      rw [Traced.writeConstruct, writeConstruct]
      exact recital_writeRepeated (hparts body List.mem_cons_self) least most d
  | group index body =>
      rw [Traced.writeConstruct, writeConstruct]
      exact recital_close (hparts body List.mem_cons_self d) index
  | backref index =>
      rw [Traced.writeConstruct, writeConstruct]
      refine recital_pushAll hd fun x hx => hself ?_
      cases hlookup : d.captures.lookup index with
      | none =>
          rw [hlookup] at hx
          cases hx
      | some w =>
          rw [hlookup] at hx
          obtain ⟨before, after, hsplit, -⟩ := List.lookup_eq_some_iff.1 hlookup
          exact ⟨w, by simp [hsplit], hx⟩
  | anchor a =>
      rw [Traced.writeConstruct, writeConstruct]
      have hallows : d.Allows (.anchor a) := Draft.allows_of_char?_eq_none hd rfl
      refine .tell rfl (.of_makes (.single hallows) ?_ (by simp))
      cases a <;> rfl
  | skipped k =>
      rw [Traced.writeConstruct, writeConstruct]
      exact .pure (.refl _ d)

end Specimen.Regex
