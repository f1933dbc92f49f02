import Mathlib
import Specimen.Proofs.Regex.Account
/-!
# Word boundaries in the text of a walk

A word boundary that is executed somewhere in a walk is one in the final text, if anything is
pushed after it and no start anchor throws the text away: just one of the characters on its two
sides belongs to a word. For that a filler may stand there, which is pushed for a boundary after
which nothing was pushed yet. So there are no more fillers than boundaries, and all else that is
pushed is written by the constructs of the tree (`bounded_of_candidate`).
-/

namespace Specimen.Regex

open Specimen.Random

/-- A place of a text where just one of the characters beside it belongs to a word; where there
is none before it, that is not one of a word. -/
def IsWordBoundary (text : List Char) (position : Nat) : Prop :=
  ∃ c, text[position]? = some c ∧
    (if position = 0 then none else text[position - 1]?).any isWordChar ≠ isWordChar c

def Step.isFill : Step → Bool
  | .fill _ => true
  | _ => false

/-- Whether a character makes the end of a text a word boundary does
not depend on what follows. -/
theorem isWordBoundary_append {d : Draft} {c : Char} (rest : List Char)
    (h : (d.charBefore d.text.size).any isWordChar ≠ isWordChar c) :
    IsWordBoundary (d.text.toList ++ c :: rest) d.text.size := by
  have hsize : d.text.size = d.text.toList.length := Array.length_toList.symm
  refine ⟨c, ?_, ?_⟩
  · rw [hsize, List.getElem?_append_right (Nat.le_refl _), Nat.sub_self]
    rfl
  · unfold Draft.charBefore at h
    by_cases hzero : d.text.size = 0
    · rw [if_pos hzero] at h ⊢
      exact h
    · have hlt : d.text.size - 1 < d.text.toList.length := by omega
      rw [if_neg hzero] at h ⊢
      rw [List.getElem?_append_left hlt, Array.getElem?_toList]
      exact h

namespace Makes

variable {d d' : Draft} {es : List Step}

/-- A boundary that waits at the end of the text is one in what the text becomes. -/
theorem isWordBoundary (h : Makes d es d') (hboundary : d.boundary = some d.text.size)
    (hpushed : pushed es ≠ []) (hstart : Step.anchor .start ∉ es) :
    IsWordBoundary d'.text.toList d.text.size := by
  induction h with
  | nil => exact absurd rfl hpushed
  | @cons d d' e es hallow hrest ih =>
      rw [List.mem_cons, not_or] at hstart
      have hadded : ∀ c, e.char? = some c → (d.after e).text = d.text.push c →
          IsWordBoundary d'.text.toList d.text.size := by
        intro c hc htext
        have hseparates := hallow.separates c hc d.text.size hboundary
        rw [hrest.text_of_no_start hstart.2, htext, Array.toList_push, List.append_assoc]
        exact isWordBoundary_append (pushed es) hseparates
      -- The boundary waits until something is pushed: a character, or a filler before it.
      cases e with
      | draw n => exact ih hboundary hpushed hstart.2
      | write c => exact hadded c rfl rfl
      | fill c => exact hadded c rfl rfl
      | anchor a =>
          cases a with
          | start => exact absurd rfl hstart.1
          | stop =>
              obtain rfl := hrest.eq_nil_of_ended rfl
              exact absurd rfl hpushed
          | wordBoundary => exact ih rfl hpushed hstart.2
          | notWordBoundary => exact ih hboundary hpushed hstart.2

/-- A boundary that waits was there before or was executed, and nothing was pushed since. -/
theorem waiting_cases (h : Makes d es d') (hd' : d'.boundary.isSome) :
    (d.boundary.isSome ∧ pushed es = []) ∨
      ∃ early late, es = early ++ .anchor .wordBoundary :: late ∧ pushed late = [] := by
  induction h with
  | nil => exact .inl ⟨hd', rfl⟩
  | @cons d d' e es hallow _ ih =>
      rcases ih hd' with ⟨hwaits, hnone⟩ | ⟨early, late, hsplit, hnone⟩
      · cases e with
        | draw n => exact .inl ⟨hwaits, hnone⟩
        | write c => cases hwaits
        | fill c => cases hwaits
        | anchor a =>
            cases a with
            | start => cases hwaits
            | stop => exact .inl ⟨hwaits, hnone⟩
            | wordBoundary => exact .inr ⟨[], es, rfl, hnone⟩
            | notWordBoundary => exact .inl ⟨hwaits, hnone⟩
      · exact .inr ⟨e :: early, late, by rw [hsplit, List.cons_append], hnone⟩

/-- A filler is pushed for a boundary that was executed and after which nothing was pushed. -/
theorem exists_boundary_of_fill {c : Char} {fs : List Step}
    (h : Makes d (es ++ .fill c :: fs) d') (hd : d.boundary = none) :
    ∃ early late, es = early ++ .anchor .wordBoundary :: late ∧ pushed late = [] := by
  obtain ⟨d₁, hes, hfs⟩ := h.exists_of_append
  cases hfs with
  | cons hallow _ =>
      apply (hes.waiting_cases (hallow.waits c rfl)).resolve_left
      rw [hd]
      exact fun hwaits => absurd hwaits.1 Bool.false_ne_true

/-- Each filler uses up a boundary that waits. -/
theorem countP_isFill_le (h : Makes d es d') :
    es.countP Step.isFill + d'.boundary.toList.length ≤
      es.count (.anchor .wordBoundary) + d.boundary.toList.length := by
  induction h with
  | nil => simp
  | @cons d d' e es hallow _ ih =>
      have hstep : [e].countP Step.isFill + (d.after e).boundary.toList.length ≤
          [e].count (.anchor .wordBoundary) + d.boundary.toList.length := by
        cases e with
        | fill c =>
            obtain ⟨position, hposition⟩ := Option.isSome_iff_exists.1 (hallow.waits c rfl)
            rw [hposition]
            exact Nat.le_refl 1
        | anchor a =>
            cases a with
            | wordBoundary => exact Nat.le_add_right 1 _
            | start => exact Nat.zero_le _
            | _ => exact Nat.le_refl _
        | draw n => exact Nat.le_refl _
        | write c => exact Nat.zero_le _
      rw [← List.singleton_append, List.countP_append, List.count_append]
      omega

end Makes

/-- Each word boundary that a walk executes and pushes something after is one in the text that it
makes, unless a start anchor follows; and only the fillers of boundaries, at most one for each,
are pushed besides the characters of the constructs. -/
theorem bounded_of_candidate {tree : Construct} {s t : Source} {text : String}
    (h : candidate tree s = some (text, t)) :
    ∃ d trace, Traced.write tree {} s = some (d, trace, t) ∧ write tree {} s = some (d, t) ∧
      (∀ before rest, trace.steps = before ++ .anchor .wordBoundary :: rest → pushed rest ≠ [] →
        Step.anchor .start ∉ rest →
        IsWordBoundary text.toList (pushed (sinceStart before)).length) ∧
      (∀ c, Step.write c ∈ trace.steps → ∃ n ∈ tree.nodes, n.Offers d.captures c) ∧
      (∀ before c rest, trace.steps = before ++ .fill c :: rest →
        ∃ early late, before = early ++ .anchor .wordBoundary :: late ∧ pushed late = []) ∧
      trace.steps.countP Step.isFill ≤ trace.steps.count (.anchor .wordBoundary) := by
  obtain ⟨d, u, hwrite, h⟩ := Draw.bind_eq_some.1 h
  obtain ⟨rfl, rfl⟩ := Draw.pure_eq_some.1 h
  obtain ⟨trace, htrace, -, hleads⟩ := (recital_write tree {}).exists_trace hwrite
  have hmakes := hleads.makes
  refine ⟨d, trace, htrace, hwrite, ?_, hleads.offered, ?_, ?_⟩
  · intro before rest hsplit hpushed hstart
    rw [hsplit] at hmakes
    obtain ⟨d₁, hbefore, hafter⟩ := hmakes.exists_of_append
    have hlength : (pushed (sinceStart before)).length = d₁.text.size := by
      rw [← hbefore.text_of_empty rfl, Array.length_toList]
    rw [String.toList_ofList, hlength]
    cases hafter with
    | cons _ hrest => exact hrest.isWordBoundary rfl hpushed hstart
  · intro before c rest hsplit
    rw [hsplit] at hmakes
    exact hmakes.exists_boundary_of_fill rfl
  · have hcount := hmakes.countP_isFill_le
    have hnone : (Draft.boundary {}).toList.length = 0 := rfl
    omega

/-- A word boundary in front of a hyphen, and two in a row between letters, one in a group. -/
def twiceBounded : Construct :=
  .concat [.anchor .wordBoundary, .literal '-', .group (some 1) (.concat [.literal 'b',
    .anchor .wordBoundary]), .anchor .wordBoundary, .literal 'c', .anchor .wordBoundary]

theorem bounded_twiceBounded :
    candidate twiceBounded (.tape [0]) = some ("a-b c", .tape []) ∧
      ∃ d trace, Traced.write twiceBounded {} (.tape [0]) = some (d, trace, .tape []) ∧
        write twiceBounded {} (.tape [0]) = some (d, .tape []) ∧
        (∀ before rest, trace.steps = before ++ .anchor .wordBoundary :: rest →
          pushed rest ≠ [] → Step.anchor .start ∉ rest →
          IsWordBoundary "a-b c".toList (pushed (sinceStart before)).length) ∧
        (∀ c, Step.write c ∈ trace.steps → ∃ n ∈ twiceBounded.nodes, n.Offers d.captures c) ∧
        (∀ before c rest, trace.steps = before ++ .fill c :: rest →
          ∃ early late, before = early ++ .anchor .wordBoundary :: late ∧ pushed late = []) ∧
        trace.steps.countP Step.isFill ≤ trace.steps.count (.anchor .wordBoundary) := by
  have hcandidate : candidate twiceBounded (.tape [0]) = some ("a-b c", .tape []) := by cbv
  exact ⟨hcandidate, bounded_of_candidate hcandidate⟩

end Specimen.Regex
