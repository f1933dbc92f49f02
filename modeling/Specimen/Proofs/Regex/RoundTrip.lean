import Specimen.Proofs.Regex.Pieces
/-!
# Reading canonical texts

The reader makes of the canonical text of a tree that same tree (`parse_text`). A text is
described by what it does to the machine, whatever stands before it and whatever canonical text
follows (`Reads`). The texts of the parts of a construct do this one after the other, so that the
text of the construct puts its items on the level that is being read (`Construct.ReadsAsItems`)
and fills a level of its own with it (`Construct.ReadsAsTree`).
-/

namespace Specimen.Regex

open Construct

/-! ## Tokens -/

/-- The groups after so many more have been opened, none of them with a name. -/
def Groups.after (g : Groups) (n : Nat) : Groups := { g with count := g.count + n }

@[simp] theorem Groups.after_zero (g : Groups) : g.after 0 = g := rfl

@[simp] theorem Groups.after_after (g : Groups) (m n : Nat) :
    (g.after m).after n = g.after (m + n) := by
  simp [after, Nat.add_assoc]

@[simp] theorem Groups.count_after (g : Groups) (n : Nat) : (g.after n).count = g.count + n :=
  rfl

/-- The reader with some more constructs on the innermost level. -/
def Reader.extend (r : Reader) (cs : List Construct) : Reader :=
  { r with level := { r.level with items := cs.reverse ++ r.level.items } }

@[simp] theorem Reader.extend_nil (r : Reader) : r.extend [] = r := rfl

@[simp] theorem Reader.extend_extend (r : Reader) (cs ds : List Construct) :
    (r.extend cs).extend ds = r.extend (cs ++ ds) := by
  simp [extend]

/-- Before any canonical text, the text takes the machine from one state to another, and the
groups that are open with it. -/
def Reads (text : List Char) (g g' : Groups) (r r' : Reader) : Prop :=
  ∀ position rest, Follows rest →
    (tokensFrom 0 position g (text ++ rest)).foldlM Reader.step r =
      (tokensFrom 0 (position + text.length) g' rest).foldlM Reader.step r'

theorem tokensFrom_skip (position : Nat) (g : Groups) (t rest : List Char) :
    tokensFrom t.length position g (t ++ rest) = tokensFrom 0 (position + t.length) g rest := by
  induction t generalizing position with
  | nil => rfl
  | cons c t ih =>
      rw [List.length_cons, List.cons_append, tokensFrom, ih]
      congr 1
      omega

namespace Reads

variable {g g' g'' : Groups} {r r' r'' : Reader} {c : Char} {s t : List Char}

theorem nil : Reads [] g g r r := fun _ _ _ => rfl

theorem append (hs : Reads s g g' r r') (ht : Reads t g' g'' r' r'') (hfollows : Follows t) :
    Reads (s ++ t) g g'' r r'' := by
  intro position rest hrest
  rw [List.append_assoc, hs position _ (hfollows.append hrest), ht _ rest hrest,
    List.length_append,
    Nat.add_assoc]

theorem of_token (h : ∀ position rest, Follows rest → ∃ k,
      token g position c (t ++ rest) = .ok ⟨(k, g'), t.length⟩ ∧ r.step k = .ok r') :
    Reads (c :: t) g g' r r' := by
  intro position rest hrest
  obtain ⟨k, htoken, hstep⟩ := h position rest hrest
  rw [List.cons_append, tokensFrom, htoken]
  simp only [List.foldlM_cons, hstep, tokensFrom_skip, List.length_cons, bind, Except.bind]
  rw [Nat.add_assoc, Nat.add_comm 1]

theorem literal (c : Char) : Reads (charText c) g g r (r.extend [.literal c]) := by
  rcases charText_cases c with ⟨-, hsign, htext⟩ | ⟨-, htext⟩ | ⟨-, htext⟩
  · rw [htext]
    refine of_token fun position rest _ => ⟨.atom (.literal c), ?_, rfl⟩
    unfold token
    dsimp only
    split
    case h_13 => rfl
    all_goals exact absurd (by decide) hsign
  all_goals
    obtain ⟨d, t, ht, hcategory, hanchor, hrange⟩ := head_of_charText htext
    rw [htext]
    refine of_token fun position rest _ => ⟨.atom (.literal c), ?_, rfl⟩
    have hescape := escapedChar_of_charText htext (position + 1) rest
    rw [ht] at hescape ⊢
    rw [token, List.cons_append, escape]
    simp only [hcategory, hanchor, if_neg hrange]
    rw [List.cons_append] at hescape
    rw [hescape]
    rfl

theorem charClass (negated : Bool) {items : List ClassItem} (hne : items ≠ [])
    (h : ∀ i ∈ items, i.IsOrdered) :
    Reads (classText negated items) g g r (r.extend [classConstruct negated items]) := by
  obtain ⟨t, htext, hclass⟩ := charClass_of_text negated hne h
  rw [htext]
  refine of_token fun position rest _ => ⟨.atom (classConstruct negated items), ?_, rfl⟩
  rw [token, hclass]
  rfl

theorem any : Reads ['.'] g g r (r.extend [.any]) :=
  of_token fun _ _ _ => ⟨.atom .any, rfl, rfl⟩

theorem anchor (a : Anchor) : Reads a.text g g r (r.extend [.anchor a]) := by
  cases a <;> exact of_token fun _ _ _ => ⟨.atom (.anchor _), rfl, rfl⟩

theorem backref {i : Nat} (h : (Construct.backref i).IsNumbered g.count) :
    Reads ('\\' :: digits i) g g r (r.extend [.backref i]) := by
  refine of_token fun position rest hrest => ⟨.atom (.backref i), ?_, rfl⟩
  rw [token, escape_of_backref h.1 h.2.1 h.2.2 _ hrest]
  rfl

theorem bounds {least : Nat} {most : Option Nat} {body : Construct}
    (hleast : least < UInt64.size) (hmost : ∀ m ∈ most, least ≤ m ∧ m < UInt64.size) :
    Reads (boundsText least most) g g (r.extend [body])
      (r.extend [.repetition least most body]) := by
  refine of_token fun position rest hrest => ?_
  obtain ⟨t, blame, htext, hbraces⟩ := braces_of_text hleast hmost position hrest
  cases htext
  refine ⟨.quantifier least most blame, ?_, rfl⟩
  rw [token, hbraces]
  rfl

theorem bar : Reads ['|'] g g r { r with level := r.level.bar } :=
  of_token fun _ _ _ => ⟨.bar, rfl, rfl⟩

theorem opening {index : Option Nat} (body : Construct)
    (h : (Construct.group index body).IsNumbered g.count) :
    Reads (openingText index) g (g.after (Construct.group index body).captures) r
      ⟨{}, (.group index, r.level) :: r.stack⟩ := by
  cases index with
  | none => exact of_token fun _ _ _ => ⟨.opening (.group none), rfl, rfl⟩
  | some i =>
      obtain rfl : i = g.count + 1 := h
      refine of_token fun position rest hrest => ⟨.opening (.group (some (g.count + 1))),
        ?_, rfl⟩
      cases rest with
      | nil => rfl
      | cons c rest =>
          have hc : c ≠ '?' := (hrest c rfl).2.1
          rw [List.nil_append, token, groupStart]
          · rfl
          all_goals simp [hc]

theorem closing {level outer : Level} {index : Option Nat} {stack : List (Opening × Level)} :
    Reads [')'] g g ⟨level, (.group index, outer) :: stack⟩
      (Reader.extend ⟨outer, stack⟩ [.group index level.construct]) :=
  of_token fun position _ _ => ⟨.closing position, rfl, rfl⟩

end Reads

/-! ## Trees -/

namespace Construct

/-- What a construct is a sequence of. -/
def items : Construct → List Construct
  | .empty => []
  | .concat cs => cs
  | c => [c]

/-- What a construct is a choice between. -/
def branches : Construct → List Construct
  | .alternation cs => cs
  | c => [c]

theorem sequence_items {c : Construct} (h : c.IsRegular) : sequence c.items = c := by
  cases c with
  | concat cs =>
      match cs, h.1 with
      | c :: d :: cs, _ => rfl
  | _ => rfl

theorem choice_branches {c : Construct} (h : c.IsRegular) : choice c.branches = c := by
  cases c with
  | alternation cs =>
      match cs, h.1 with
      | c :: d :: cs, _ => rfl
  | _ => rfl

theorem IsPiece.isBranch {c : Construct} (h : c.IsPiece) : c.IsBranch := by
  cases c <;> trivial

theorem items_of_isPiece {c : Construct} (h : c.IsPiece) : c.items = [c] := by
  cases c <;> first | rfl | cases h

/-- The text of the construct puts its items on the level that is read. -/
def ReadsAsItems (c : Construct) : Prop :=
  ∀ g r, AreNumbered g.count c.nodes →
    Reads c.render g (g.after (capturesOf c.nodes)) r (r.extend c.items)

/-- The text of the construct fills a level with it. -/
def ReadsAsTree (c : Construct) : Prop :=
  ∀ g stack, AreNumbered g.count c.nodes → ∃ l : Level,
    Reads c.render g (g.after (capturesOf c.nodes)) ⟨{}, stack⟩ ⟨l, stack⟩ ∧ l.construct = c

theorem reads_renderItems {cs : List Construct} (h : ∀ c ∈ cs, c.IsPiece ∧ c.ReadsAsItems)
    (g : Groups) (r : Reader) (hnumbered : AreNumbered g.count (nodesOf cs)) :
    Reads (renderItems cs) g (g.after (capturesOf (nodesOf cs))) r (r.extend cs) := by
  induction cs generalizing g r with
  | nil => exact .nil
  | cons c cs ih =>
      rw [List.forall_mem_cons] at h
      rw [nodesOf, areNumbered_append] at hnumbered
      have hfirst := h.1.2 g r hnumbered.1
      have hrest := ih h.2 (g.after (capturesOf c.nodes)) (r.extend c.items) hnumbered.2
      have hboth := hfirst.append hrest (follows_renderItems fun d _ => follows_render d)
      rw [items_of_isPiece h.1.1, Reader.extend_extend, List.singleton_append,
        Groups.after_after] at hboth
      rw [renderItems, nodesOf, capturesOf_append]
      exact hboth

theorem reads_renderBranches {cs : List Construct} (hne : cs ≠ [])
    (h : ∀ c ∈ cs, c.ReadsAsItems ∧ sequence c.items = c) (g : Groups)
    (stack : List (Opening × Level)) (before : List Construct)
    (hnumbered : AreNumbered g.count (nodesOf cs)) :
    ∃ l : Level, Reads (renderBranches cs) g (g.after (capturesOf (nodesOf cs)))
      ⟨⟨before, []⟩, stack⟩ ⟨l, stack⟩ ∧ l.bar.branches = cs.reverse ++ before := by
  induction cs generalizing g before with
  | nil => exact absurd rfl hne
  | cons c cs ih =>
      rw [List.forall_mem_cons] at h
      obtain ⟨⟨hreads, hsequence⟩, hcs⟩ := h
      rw [nodesOf, areNumbered_append] at hnumbered
      have hfirst := hreads g ⟨⟨before, []⟩, stack⟩ hnumbered.1
      have hitems : Construct.sequence (c.items.reverse ++ []).reverse = c := by
        rw [List.append_nil, List.reverse_reverse, hsequence]
      cases cs with
      | nil =>
          refine ⟨⟨before, c.items.reverse ++ []⟩, ?_, ?_⟩
          · rw [renderBranches, nodesOf, nodesOf, List.append_nil]
            exact hfirst
          · rw [Level.bar, hitems]
            rfl
      | cons d cs =>
          obtain ⟨l, hrest, hbranches⟩ := ih (by simp) hcs (g.after (capturesOf c.nodes))
            (c :: before) hnumbered.2
          have hbar : Reads ['|'] (g.after (capturesOf c.nodes)) (g.after (capturesOf c.nodes))
              (Reader.extend ⟨⟨before, []⟩, stack⟩ c.items) ⟨⟨c :: before, []⟩, stack⟩ := by
            have hplain := Reads.bar (g := g.after (capturesOf c.nodes))
              (r := Reader.extend ⟨⟨before, []⟩, stack⟩ c.items)
            simp only [Reader.extend, Level.bar, hitems] at hplain
            exact hplain
          refine ⟨l, ?_, by rw [hbranches]; simp⟩
          have hafter := hbar.append hrest (follows_renderBranches fun d _ => follows_render d)
          have hboth := hfirst.append hafter (follows_cons (by decide))
          rw [Groups.after_after] at hboth
          rw [renderBranches, nodesOf, capturesOf_append]
          exact hboth

theorem readsAsTree_of_items {c : Construct} (hregular : c.IsRegular) (h : c.ReadsAsItems) :
    c.ReadsAsTree := by
  intro g stack hnumbered
  refine ⟨_, h g ⟨{}, stack⟩ hnumbered, ?_⟩
  have hitems : Construct.sequence (c.items.reverse ++ []).reverse = c := by
    rw [List.append_nil, List.reverse_reverse, sequence_items hregular]
  rw [Level.construct, Level.bar, hitems]
  rfl

theorem readsAsTree_alternation {cs : List Construct} (hne : cs ≠ [])
    (hregular : (Construct.alternation cs).IsRegular)
    (h : ∀ c ∈ cs, c.ReadsAsItems ∧ sequence c.items = c) : (alternation cs).ReadsAsTree := by
  intro g stack hnumbered
  obtain ⟨l, hreads, hl⟩ := reads_renderBranches hne h g stack [] hnumbered.2
  refine ⟨l, ?_, ?_⟩
  · rw [render, nodes, capturesOf_cons_of_zero rfl]
    exact hreads
  · rw [Level.construct, hl, List.append_nil, List.reverse_reverse]
    exact choice_branches hregular

theorem readsAsItems_group {index : Option Nat} {body : Construct} (h : body.ReadsAsTree) :
    (group index body).ReadsAsItems := by
  intro g r hnumbered
  rw [nodes] at hnumbered ⊢
  obtain ⟨hindex, hbody⟩ := hnumbered
  obtain ⟨l, hreads, hl⟩ := h (g.after (group index body).captures)
    ((.group index, r.level) :: r.stack) hbody
  have hopening := Reads.opening (r := r) body hindex
  have hclosing :
      Reads [')'] ((g.after (group index body).captures).after (capturesOf body.nodes))
      _ ⟨l, (.group index, r.level) :: r.stack⟩ _ := .closing
  have hinside := hreads.append hclosing (follows_cons (by decide))
  have hall := hopening.append hinside ((follows_render body).append (follows_cons (by decide)))
  rw [hl, Groups.after_after] at hall
  rw [render, capturesOf_cons]
  exact hall

theorem readsAsItems_repetition {least : Nat} {most : Option Nat} {body : Construct}
    (hregular : (repetition least most body).IsRegular) (h : body.ReadsAsItems) :
    (repetition least most body).ReadsAsItems := by
  intro g r hnumbered
  rw [nodes] at hnumbered ⊢
  have hbody := h g r hnumbered.2
  rw [items_of_isPiece hregular.1] at hbody
  have hall := hbody.append (.bounds hregular.2.1 hregular.2.2) (follows_cons (by decide))
  rw [render, capturesOf_cons_of_zero rfl]
  exact hall

/-- The text of a tree reads as its items, unless it is a choice, and as itself where a group or
a pattern holds nothing else. -/
theorem reads_render {c : Construct} (h : c.Everywhere IsRegular) :
    (c.IsBranch → c.ReadsAsItems) ∧ c.ReadsAsTree := by
  induction c using induction_parts with
  | h c ih =>
      obtain ⟨hregular, hparts⟩ := everywhere_iff.1 h
      have hitems : c.IsBranch → c.ReadsAsItems := by
        intro hbranch
        cases c with
        | empty => exact fun g r _ => .nil
        | literal c => exact fun g r _ => .literal c
        | notLiteral c =>
            exact fun g r _ => .charClass true (List.cons_ne_nil (ClassItem.char c) [])
              (by simp [ClassItem.IsOrdered])
        | any => exact fun g r _ => .any
        | charClass negated items =>
            intro g r _
            have hclass : classConstruct negated items = .charClass negated items := by
              unfold classConstruct
              split
              · exact absurd ⟨rfl, rfl⟩ (hregular.2.2 _)
              · rfl
            have hreads := Reads.charClass (g := g) (r := r) negated hregular.1 hregular.2.1
            rw [hclass] at hreads
            exact hreads
        | concat cs =>
            intro g r hnumbered
            rw [render, nodes, capturesOf_cons_of_zero rfl]
            refine reads_renderItems (fun d hd => ⟨hregular.2 d hd, ?_⟩) g r hnumbered.2
            refine (ih d hd (hparts d hd)).1 ?_
            exact (hregular.2 d hd).isBranch
        | alternation cs => exact absurd hbranch id
        | repetition least most body =>
            refine readsAsItems_repetition hregular
              ((ih body List.mem_cons_self (hparts body List.mem_cons_self)).1 ?_)
            exact hregular.1.isBranch
        | group index body =>
            exact readsAsItems_group
              (ih body List.mem_cons_self (hparts body List.mem_cons_self)).2
        | backref i => exact fun g r hnumbered => .backref hnumbered.1
        | anchor a => exact fun g r _ => .anchor a
        | skipped k => exact absurd hregular id
      refine ⟨hitems, ?_⟩
      cases c with
      | alternation cs =>
          have hne : cs ≠ [] := by
            rintro rfl
            simp [IsRegular] at hregular
          refine readsAsTree_alternation hne hregular fun d hd => ?_
          exact ⟨(ih d hd (hparts d hd)).1 (hregular.2 d hd),
            sequence_items (everywhere_iff.1 (hparts d hd)).1⟩
      | _ => exact readsAsTree_of_items hregular (hitems trivial)

end Construct

/-- The reader makes of the canonical text of a tree that tree. -/
theorem parse_text {c : Construct} (h : c.IsCanonical) : parse c.text = .ok c := by
  obtain ⟨l, hreads, hl⟩ := (reads_render h.regular).2 {} [] h.numbered
  have hall := hreads 0 [] follows_nil
  rw [List.append_nil] at hall
  have htokens : (tokens c.text).foldlM Reader.step {} = .ok ⟨l, []⟩ := by
    rw [tokens, text, String.toList_ofList]
    exact hall
  rw [parse, htokens, ← hl]
  rfl

/-- A group with a choice, a reference with a digit after it, and a repeated class. -/
def doubledOrHex : Construct :=
  .alternation
    [.concat [.group (some 1) (.alternation [.empty, .literal 'a']), .backref 1, .literal '3'],
      .repetition 2 (some 4) (.charClass true [.range 'A' 'F', .category .digit])]

example : doubledOrHex.text = "(|a)\\1\\x33|[^A-F\\d]\x7b2,4\x7d" := by cbv

theorem isCanonical_doubledOrHex : doubledOrHex.IsCanonical := by
  refine ⟨?_, ?_⟩
  · simp [Construct.Everywhere, doubledOrHex, nodes, nodesOf, Construct.IsRegular, IsPiece,
      IsBranch, ClassItem.IsOrdered, UInt64.size]
  · simp [doubledOrHex, nodes, nodesOf, AreNumbered, IsNumbered, Construct.captures]

theorem parse_text_doubledOrHex :
    doubledOrHex.IsCanonical ∧ parse doubledOrHex.text = .ok doubledOrHex :=
  ⟨isCanonical_doubledOrHex, parse_text isCanonical_doubledOrHex⟩

end Specimen.Regex
