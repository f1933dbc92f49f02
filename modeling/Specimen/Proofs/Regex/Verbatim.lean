import Specimen.Proofs.Regex.RoundTrip
import Specimen.Proofs.Regex.Soundness
/-!
# Texts that stand for themselves

A text with a backslash before each character that is neither a letter nor a digit of ASCII is a
pattern for that text alone. It is read as the sequence of the characters (`parse_escaped`), a
walk through them writes the text without a word of the source, and so does every synthesis,
whatever the check says and however long the text should be (`synthesize_escaped`).
-/

namespace Specimen.Regex

open Specimen.Random

/-- A character as a pattern of its own. -/
def escapedText (c : Char) : List Char := if c.isAlphanum then [c] else ['\\', c]

def escaped (text : String) : String := String.ofList (text.toList.flatMap escapedText)

example : escaped "a-1\n\x7bé" = "a\\-1\\\n\\\x7b\\é" := by cbv

/-- The sequence of the characters of a text. -/
def Construct.literals (text : String) : Construct := .sequence (text.toList.map .literal)

/-! ## Reading -/

section Reading

variable {groups : Groups} {position : Nat} {c : Char} {cs : List Char}

theorem token_of_isAlphanum (h : c.isAlphanum = true) :
    token groups position c cs = .ok ⟨(.atom (.literal c), groups), 0⟩ := by
  unfold token
  dsimp only
  split
  case h_13 => rfl
  all_goals cases h

theorem token_of_symbol (h : c.isAlphanum = false) :
    token groups position '\\' (c :: cs) = .ok ⟨(.atom (.literal c), groups), 1⟩ := by
  rw [token, escape]
  simp only [category?_eq_none h, anchor?_eq_none h, if_neg (not_digit_of_symbol h),
    escapedChar_of_symbol h]
  rfl

theorem tokensFrom_escapedText (groups : Groups) (position : Nat) (cs : List Char) :
    tokensFrom 0 position groups (cs.flatMap escapedText) =
      (cs.map .literal).map Token.atom := by
  induction cs generalizing position with
  | nil => rfl
  | cons c cs ih =>
      rw [List.flatMap_cons]
      by_cases hc : c.isAlphanum = true
      · rw [escapedText, if_pos hc, List.singleton_append, tokensFrom, token_of_isAlphanum hc]
        exact congrArg _ (ih _)
      · rw [escapedText, if_neg hc, List.cons_append, List.singleton_append, tokensFrom,
          token_of_symbol (Bool.eq_false_iff.2 hc)]
        exact congrArg _ (ih _)

theorem foldlM_step_atoms (r : Reader) (cs : List Construct) :
    (cs.map Token.atom).foldlM Reader.step r = .ok (r.extend cs) := by
  induction cs generalizing r with
  | nil => rfl
  | cons c cs ih =>
      have hstep : r.step (.atom c) = .ok (r.extend [c]) := rfl
      calc
        _ = (cs.map Token.atom).foldlM Reader.step (r.extend [c]) := by
          rw [List.map_cons, List.foldlM_cons, hstep]
          rfl
        _ = .ok ((r.extend [c]).extend cs) := ih _
        _ = .ok (r.extend (c :: cs)) := by simp

end Reading

/-- An escaped text is read as the sequence of its characters. -/
theorem parse_escaped (text : String) : parse (escaped text) = .ok (.literals text) := by
  have htokens : (tokens (escaped text)).foldlM Reader.step {} =
      .ok (Reader.extend {} (text.toList.map .literal)) := by
    rw [tokens, escaped, String.toList_ofList, tokensFrom_escapedText]
    exact foldlM_step_atoms _ _
  have hlevel : (Reader.extend {} (text.toList.map .literal)).level.construct =
      .literals text := by
    simp [Reader.extend, Level.construct, Level.bar, Construct.choice, Construct.literals]
  exact parse_eq_ok.2 ⟨_, htokens, hlevel⟩

/-! ## Writing -/

section Writing

variable {s : Source}

theorem write_sequence {d : Draft} (hd : d.ended = false) (cs : List Construct) :
    write (.sequence cs) d = writeAll cs d := by
  match cs with
  | [] => simp [Construct.sequence, write, writeConstruct, writeAll]
  | [c] => simp [Construct.sequence, writeAll]
  | c :: e :: cs => simp [Construct.sequence, write, writeConstruct, hd]

theorem write_literal {d : Draft} (hd : d.IsOpen) (c : Char) (s : Source) :
    write (.literal c) d s = some ({ d with text := d.text.push c }, s) := by
  rw [write, if_neg (by simp [hd.ended]), writeConstruct, Draft.push, hd.boundary]
  rfl

theorem writeAll_literals {d : Draft} (hd : d.IsOpen) (cs : List Char) (s : Source) :
    writeAll (cs.map .literal) d s = some ({ d with text := d.text ++ cs.toArray }, s) := by
  induction cs generalizing d with
  | nil =>
      rw [List.map_nil, writeAll, Array.append_empty]
      rfl
  | cons c cs ih =>
      have hopen : Draft.IsOpen { d with text := d.text.push c } := ⟨hd.ended, hd.boundary⟩
      rw [List.map_cons, writeAll]
      refine Draw.bind_eq_some.2 ⟨_, s, write_literal hd c s, ?_⟩
      rw [ih hopen]
      simp

theorem candidate_literals (text : String) (s : Source) :
    candidate (.literals text) s = some (text, s) := by
  have hwrite := writeAll_literals (d := {}) ⟨rfl, rfl⟩ text.toList s
  rw [← write_sequence rfl] at hwrite
  refine Draw.bind_eq_some.2 ⟨_, s, hwrite, ?_⟩
  simp [Draw.pure_eq_some]

/-- A search over walks that all make the same text ends with it. -/
theorem search_of_candidate {c : Construct} {text : String}
    (h : candidate c s = some (text, s)) (accept : String → Bool) {n : Nat} (hn : 0 < n)
    (last : String) : search accept c n last s = some (text, s) := by
  induction n generalizing last with
  | zero => omega
  | succ n ih =>
      refine Draw.bind_eq_some.2 ⟨text, s, h, ?_⟩
      by_cases hlast : n = 0
      · subst hlast
        split <;> rfl
      · split
        · rfl
        · apply ih
          omega

end Writing

/-- An escaped text is read as its characters, and every synthesis of it makes the text and
leaves the source as it was. -/
theorem synthesize_escaped (text : String) :
    parse (escaped text) = .ok (.literals text) ∧
      ∀ (check? : String → Option (String → Bool)) (synthesizer : Synthesizer) (minLength : Nat),
        ∃ draw synthesizer',
          synthesizer.synthesize check? (escaped text) minLength = .ok (draw, synthesizer') ∧
            ∀ s, draw s = some (text, s) := by
  refine ⟨parse_escaped text, fun check? synthesizer minLength => ?_⟩
  rw [Synthesizer.synthesize_eq, parse_escaped]
  exact ⟨_, _, rfl, fun s => search_of_candidate (candidate_literals text s) _ (by decide) ""⟩

end Specimen.Regex
