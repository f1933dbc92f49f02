import Mathlib.Data.List.DropRight
import Specimen.Proofs.Regex.Trace
/-!
# Drafts from steps

Apart from what the groups captured, a draft follows from the steps that were made
(`Draft.after`), and not every step can be made from every draft (`Draft.Allows`): none after
the end, and at a word boundary only the character that makes it true. Where steps lead from
one draft to another, the text is what they pushed since the last start anchor, or what stood
there before and all that they pushed. The same holds of the text that a group captures, which
begins where the group was opened.
-/

namespace Specimen.Regex

/-! ## Steps -/

/-- The character that a step adds to the text. -/
def Step.char? : Step → Option Char
  | .write c | .fill c => some c
  | _ => none

/-- The characters that some steps push, fillers among them. -/
def pushed (es : List Step) : List Char := es.filterMap (·.char?)

/-- The steps after the last start anchor, or all of them. -/
def sinceStart (es : List Step) : List Step := es.rtakeWhile (· ≠ .anchor .start)

theorem pushed_append (es fs : List Step) : pushed (es ++ fs) = pushed es ++ pushed fs :=
  List.filterMap_append

theorem ne_of_not_mem {e : Step} {es : List Step} (h : e ∉ es) :
    ∀ f ∈ es, decide (f ≠ e) = true := by
  intro f hf
  apply decide_eq_true
  rintro rfl
  exact h hf

theorem sinceStart_of_not_mem {es : List Step} (h : Step.anchor .start ∉ es) :
    sinceStart es = es := List.rtakeWhile_eq_self_iff.2 (ne_of_not_mem h)

theorem not_mem_sinceStart (es : List Step) : Step.anchor .start ∉ sinceStart es := fun h => by
  simpa using List.mem_rtakeWhile_imp h

theorem exists_eq_append_sinceStart {es : List Step} (h : Step.anchor .start ∈ es) :
    ∃ before, es = before ++ Step.anchor .start :: sinceStart es := by
  let before := es.rdropWhile (· ≠ .anchor .start)
  have hsplit : before ++ sinceStart es = es := List.rdropWhile_append_rtakeWhile
  have hne : before ≠ [] := by
    intro hnil
    rw [hnil, List.nil_append] at hsplit
    apply not_mem_sinceStart es
    rwa [hsplit]
  have hlast : before.getLast hne = .anchor .start := by
    have hnot := List.rdropWhile_last_not (· ≠ .anchor .start) es hne
    rwa [decide_eq_true_iff, not_not] at hnot
  refine ⟨before.dropLast, ?_⟩
  calc
    es = before ++ sinceStart es := hsplit.symm
    _ = (before.dropLast ++ [.anchor .start]) ++ sinceStart es := by
      rw [← hlast, List.dropLast_append_getLast hne]
    _ = before.dropLast ++ .anchor .start :: sinceStart es := by simp

/-! ## Drafts -/

namespace Draft

/-- The draft after a step. -/
def after (d : Draft) : Step → Draft
  | .draw _ => d
  | .write c | .fill c => { d with text := d.text.push c, boundary := none }
  | .anchor a => d.anchor a

/-- The character before a place of the text. -/
def charBefore (d : Draft) (position : Nat) : Option Char :=
  if position = 0 then none else d.text[position - 1]?

/-- Whether a step can be made. -/
structure Allows (d : Draft) (e : Step) : Prop where
  ended : d.ended = false
  /-- A character pushed at a word boundary makes it true. -/
  separates : ∀ c ∈ e.char?, ∀ position ∈ d.boundary,
    (d.charBefore position).any isWordChar ≠ isWordChar c
  waits : ∀ c, e = .fill c → d.boundary.isSome

variable {d : Draft}

theorem allows_of_char?_eq_none {e : Step} (hd : d.ended = false) (he : e.char? = none) :
    d.Allows e := by
  refine ⟨hd, fun c hc => ?_, ?_⟩
  · rw [he] at hc
    cases hc
  · rintro c rfl
    cases he

theorem allows_write {c : Char} (hd : d.ended = false)
    (h : ∀ position ∈ d.boundary, (d.charBefore position).any isWordChar ≠ isWordChar c) :
    d.Allows (.write c) :=
  ⟨hd, fun _ hc => Option.some.inj hc ▸ h, nofun⟩

theorem allows_fill {c : Char} {position : Nat} (hd : d.ended = false)
    (hposition : d.boundary = some position)
    (h : (d.charBefore position).any isWordChar ≠ isWordChar c) : d.Allows (.fill c) := by
  refine ⟨hd, fun c' hc p hp => ?_, fun _ _ => by rw [hposition]; rfl⟩
  obtain rfl : c = c' := Option.some.inj hc
  obtain rfl : position = p := Option.some.inj (hposition.symm.trans hp)
  exact h

end Draft

/-- The steps lead from one draft to another, whatever the groups captured. -/
inductive Makes : Draft → List Step → Draft → Prop
  /-- A group that is closed captures its text without a step. -/
  | nil (d : Draft) (captures : List (Nat × List Char)) : Makes d [] { d with captures }
  | cons {d d' : Draft} {e : Step} {es : List Step} : d.Allows e → Makes (d.after e) es d' →
      Makes d (e :: es) d'

namespace Makes

variable {d d₁ d' : Draft} {e : Step} {es fs : List Step}

theorem refl (d : Draft) : Makes d [] d := .nil d d.captures

theorem single (h : d.Allows e) : Makes d [e] (d.after e) := .cons h (refl _)

/-- What the groups captured before makes no difference. -/
theorem withCaptures (h : Makes d es d') (captures : List (Nat × List Char)) :
    Makes { d with captures } es d' := by
  induction h with
  | nil d captures' => exact .nil { d with captures } captures'
  | @cons d d' e es hallow _ ih =>
      have hafter : Draft.after { d with captures } e = { d.after e with captures } := by
        cases e with
        | anchor a => cases a <;> rfl
        | _ => rfl
      refine .cons ⟨hallow.ended, hallow.separates, hallow.waits⟩ ?_
      rw [hafter]
      exact ih

theorem append (h : Makes d es d₁) (h' : Makes d₁ fs d') : Makes d (es ++ fs) d' := by
  induction h with
  | nil d captures => exact h'.withCaptures d.captures
  | cons hallow _ ih => exact .cons hallow (ih h')

theorem exists_of_append (h : Makes d (es ++ fs) d') : ∃ d₁, Makes d es d₁ ∧ Makes d₁ fs d' := by
  induction es generalizing d with
  | nil => exact ⟨d, refl d, h⟩
  | cons e es ih =>
      cases h with
      | cons hallow hrest =>
          obtain ⟨d₁, hes, hfs⟩ := ih hrest
          exact ⟨d₁, .cons hallow hes, hfs⟩

/-- Nothing is done after the end. -/
theorem eq_nil_of_ended (h : Makes d es d') (hd : d.ended = true) : es = [] := by
  cases h with
  | nil => rfl
  | cons hallow _ =>
      rw [hallow.ended] at hd
      cases hd

/-- An end anchor is the last step. -/
theorem eq_nil_of_stop (h : Makes d (es ++ .anchor .stop :: fs) d') : fs = [] := by
  obtain ⟨d₁, -, h⟩ := h.exists_of_append
  cases h with
  | cons _ hrest => exact hrest.eq_nil_of_ended rfl

/-- Steps without a start anchor add to the text what they push. -/
theorem text_of_no_start (h : Makes d es d') (hstart : Step.anchor .start ∉ es) :
    d'.text.toList = d.text.toList ++ pushed es := by
  induction h with
  | nil => simp [pushed]
  | @cons d d' e es hallow _ ih =>
      rw [List.mem_cons, not_or] at hstart
      have htext : (d.after e).text.toList = d.text.toList ++ pushed [e] := by
        cases e with
        | anchor a =>
            cases a with
            | start => exact absurd rfl hstart.1
            | _ => exact (List.append_nil _).symm
        | draw n => exact (List.append_nil _).symm
        | write c => exact Array.toList_push
        | fill c => exact Array.toList_push
      rw [ih hstart.2, htext, List.append_assoc, ← pushed_append]
      rfl

/-- After a start anchor the text is what was pushed since the last one. -/
theorem text_of_start (h : Makes d es d') (hstart : Step.anchor .start ∈ es) :
    d'.text.toList = pushed (sinceStart es) := by
  obtain ⟨before, hsplit⟩ := exists_eq_append_sinceStart hstart
  rw [hsplit] at h
  obtain ⟨d₁, -, h⟩ := h.exists_of_append
  cases h with
  | cons _ hrest => exact hrest.text_of_no_start (not_mem_sinceStart es)

/-- A text that was empty before is what was pushed since the last start anchor. -/
theorem text_of_empty (h : Makes d es d') (hd : d.text = #[]) :
    d'.text.toList = pushed (sinceStart es) := by
  by_cases hstart : Step.anchor .start ∈ es
  · exact h.text_of_start hstart
  · rw [h.text_of_no_start hstart, sinceStart_of_not_mem hstart, hd]
    rfl

theorem restarts_eq (h : Makes d es d') :
    d'.restarts = d.restarts + es.count (.anchor .start) := by
  induction h with
  | nil => rfl
  | @cons d d' e es hallow _ ih =>
      have hrestarts : (d.after e).restarts = d.restarts + [e].count (.anchor .start) := by
        cases e with
        | anchor a => cases a <;> rfl
        | _ => rfl
      rw [ih, hrestarts, Nat.add_assoc, ← List.count_append]
      rfl

/-- The text of a group is what was pushed since the last start anchor inside, or since it was
opened. -/
theorem captures_capture (h : Makes d es d') (i : Nat) :
    (d'.capture d (some i)).captures = (i, pushed (sinceStart es)) :: d'.captures := by
  have hrestarts := h.restarts_eq
  unfold Draft.capture
  -- The draft compares how often it was restarted to know whether the place where the group was
  -- opened is still one of its text.
  by_cases hstart : Step.anchor .start ∈ es
  · have hne : d.restarts ≠ d'.restarts := by
      have hpos := List.count_pos_iff.2 hstart
      omega
    simp only [if_neg hne, h.text_of_start hstart]
  · have heq : d.restarts = d'.restarts := by
      rw [hrestarts, List.count_eq_zero.2 hstart]
      rfl
    have hdrop : d'.text.toList.drop d.text.size = pushed es := by
      rw [h.text_of_no_start hstart, ← Array.length_toList, List.drop_left]
    simp only [if_pos heq, hdrop, sinceStart_of_not_mem hstart]

end Makes

end Specimen.Regex
