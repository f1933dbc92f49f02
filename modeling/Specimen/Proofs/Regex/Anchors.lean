import Mathlib
import Specimen.Proofs.Regex.Account
/-!
# Where anchors cut a text

The text of a walk is what was pushed after the last start anchor that was executed and
before the first end anchor, and an end anchor is the last step of a walk: nothing is pushed
and no word is taken from the source after it, whatever stands around it in the tree. What a
group captures is what was pushed in it, after the last start anchor that was executed
inside (`anchored_of_candidate`).
-/

namespace Specimen.Regex

open Specimen.Random

/-- The steps before the first end anchor, or all of them. -/
def untilStop (es : List Step) : List Step := es.takeWhile (· ≠ .anchor .stop)

theorem untilStop_of_not_mem {es : List Step} (h : Step.anchor .stop ∉ es) : untilStop es = es :=
  List.takeWhile_eq_self_iff.2 (ne_of_not_mem h)

theorem untilStop_append_stop {es : List Step} (h : Step.anchor .stop ∉ es) (fs : List Step) :
    untilStop (es ++ .anchor .stop :: fs) = es := by
  unfold untilStop
  rw [List.takeWhile_append_of_pos (ne_of_not_mem h)]
  simp

/-- Where steps lead from an empty text, they push the text after the last start anchor and
before the first end anchor. -/
theorem Makes.text_eq {d d' : Draft} {es : List Step} (h : Makes d es d') (hd : d.text = #[]) :
    d'.text.toList = pushed (sinceStart (untilStop es)) := by
  by_cases hstop : Step.anchor .stop ∈ es
  · obtain ⟨before, rest, hsplit, hfirst⟩ := List.eq_append_cons_of_mem hstop
    rw [hsplit] at h ⊢
    obtain rfl := h.eq_nil_of_stop
    obtain ⟨d₁, hbefore, hlast⟩ := h.exists_of_append
    have hsame : d'.text = d₁.text := by
      cases hlast with
      | cons _ hnil =>
          cases hnil
          rfl
    rw [untilStop_append_stop hfirst, hsame]
    exact hbefore.text_of_empty hd
  · rw [untilStop_of_not_mem hstop]
    exact h.text_of_empty hd

/-- The text of a walk is cut by the anchors that it executes, an end anchor is its last step,
and what the groups captured is cut by the start anchors executed inside. -/
theorem anchored_of_candidate {tree : Construct} {s t : Source} {text : String}
    (h : candidate tree s = some (text, t)) :
    ∃ d trace, Traced.write tree {} s = some (d, trace, t) ∧ write tree {} s = some (d, t) ∧
      text.toList = pushed (sinceStart (untilStop trace.steps)) ∧
      (∀ before rest, trace.steps = before ++ .anchor .stop :: rest → rest = []) ∧
      s.remaining = t.remaining + wordsDrawn trace.steps ∧
      d.captures = (trace.groups.map fun g => (g.1, pushed (sinceStart g.2))).reverse ∧
      ∀ g ∈ trace.groups, g.2 <:+: trace.steps := by
  obtain ⟨d, u, hwrite, h⟩ := Draw.bind_eq_some.1 h
  obtain ⟨rfl, rfl⟩ := Draw.pure_eq_some.1 h
  obtain ⟨trace, htrace, hwords, hleads⟩ := (recital_write tree {}).exists_trace hwrite
  refine ⟨d, trace, htrace, hwrite, ?_, fun before rest hsplit => ?_, hwords, ?_, hleads.inside⟩
  · rw [String.toList_ofList]
    exact hleads.makes.text_eq rfl
  · have hmakes := hleads.makes
    rw [hsplit] at hmakes
    exact hmakes.eq_nil_of_stop
  · rw [hleads.captures]
    exact List.append_nil _

/-- A start anchor inside two groups, and an end anchor in the first of at least three rounds. -/
def cutTwice : Construct :=
  .concat [.literal 'x',
    .group (some 1) (.concat [.literal 'y',
      .group (some 2) (.concat [.anchor .start, .literal 'a']), .literal 'b']),
    .repetition 3 none (.concat [.literal 'c', .anchor .stop]), .literal 'd']

theorem anchored_cutTwice :
    candidate cutTwice (.tape [7]) = some ("abc", .tape [7]) ∧
      ∃ d trace, Traced.write cutTwice {} (.tape [7]) = some (d, trace, .tape [7]) ∧
        write cutTwice {} (.tape [7]) = some (d, .tape [7]) ∧
        "abc".toList = pushed (sinceStart (untilStop trace.steps)) ∧
        (∀ before rest, trace.steps = before ++ .anchor .stop :: rest → rest = []) ∧
        (Source.tape [7]).remaining = (Source.tape [7]).remaining + wordsDrawn trace.steps ∧
        d.captures = (trace.groups.map fun g => (g.1, pushed (sinceStart g.2))).reverse ∧
        ∀ g ∈ trace.groups, g.2 <:+: trace.steps := by
  have hcandidate : candidate cutTwice (.tape [7]) = some ("abc", .tape [7]) := by cbv
  exact ⟨hcandidate, anchored_of_candidate hcandidate⟩

end Specimen.Regex
