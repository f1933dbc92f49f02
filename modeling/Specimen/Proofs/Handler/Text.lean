import Specimen.Proofs.Handler.Leaf
import Specimen.Proofs.Random.Words
import Specimen.Proofs.Text.Decoding
/-!
# The text of a description

`TextContract` is what the parameters of a text promise: the visit fails just if they ask for
what there is not, and else the text is as long as they say, of the alphabet they choose, after
it is read back from its encoding. A visit gives one or the other whenever the source lasts.
-/

namespace Specimen

namespace Leaf

open Specimen.Random
open Specimen.Params (Bound)

/-- The least and the greatest length that text parameters ask for. -/
def minLength (b : Bound) : Int := (b.int? "min_length").getD 1

def maxLength (b : Bound) : Int := (b.int? "max_length").getD 16

/-- The alphabet that text parameters choose: the one they fix, else the one they name, else the
letters and the underscore. -/
inductive Chooses (b : Bound) : String → Prop
  | fixed {a : String} : b.str? "fixed_alphabet" = some a → Chooses b a
  | named {name a : String} : b.str? "fixed_alphabet" = none → b.str? "alphabet" = some name →
      Text.namedAlphabet? name = some a → Chooses b a
  | unknown {name a : String} : b.str? "fixed_alphabet" = none → b.str? "alphabet" = some name →
      Text.namedAlphabet? name = none → Text.namedAlphabet? "ascii_letters_" = some a →
        Chooses b a
  | missing {a : String} : b.str? "fixed_alphabet" = none → b.str? "alphabet" = none →
      Text.namedAlphabet? "ascii_letters_" = some a → Chooses b a

/-- The text that an encoded one is read back as; there is none for an unknown encoding. -/
def decode? (b : Bound) (text : String) : Option String :=
  match b.str? "encoding" with
  | none => some text
  | some "url" => Text.percentDecode? text
  | some "base64" => Text.base64Decode? text
  | some _ => none

/-- The parameters ask for an encoding that there is not. -/
def AsksUnknownEncoding (b : Bound) : Prop :=
  ∃ name, b.str? "encoding" = some name ∧ name ≠ "url" ∧ name ≠ "base64"

/-- What the parameters of a text promise about the answer. -/
structure TextContract (b : Bound) (a : String) (x : Except Failure Json) : Prop where
  fails : (∃ e, x = .error e) ↔
    minLength b < 0 ∨ maxLength b < minLength b ∨ a = "" ∨ AsksUnknownEncoding b
  yields : ∀ w, x = .ok w → ∃ text plain, w = .str text ∧ decode? b text = some plain ∧
    minLength b ≤ plain.length ∧ plain.length ≤ maxLength b ∧ ∀ c ∈ plain.toList, c ∈ a.toList

variable {b : Bound} {v : Visit} {s t : Supply} {a : String}

theorem chooses_iff : Chooses b a ↔ a = alphabet b := by
  unfold alphabet
  constructor
  · rintro (h | ⟨hfixed, hname, h⟩ | ⟨hfixed, hname, h, hdefault⟩ | ⟨hfixed, hname, hdefault⟩)
    · simp [h]
    · simp [hfixed, hname, h]
    · simpa [hfixed, hname, h] using (Option.some.inj hdefault).symm
    · simpa [hfixed, hname] using (Option.some.inj hdefault).symm
  · rintro rfl
    cases hfixed : b.str? "fixed_alphabet" with
    | some a => exact .fixed hfixed
    | none =>
        cases hname : b.str? "alphabet" with
        | none => exact .missing hfixed hname rfl
        | some name =>
            cases h : Text.namedAlphabet? name with
            | none => simpa [h] using Chooses.unknown hfixed hname h rfl
            | some a => simpa [h] using Chooses.named hfixed hname h

/-! ## Encoding -/

/-- What encoding a text gives, whoever asks for it. -/
def encoded (b : Bound) (text : String) : Except Failure String :=
  match b.str? "encoding" with
  | none => .ok text
  | some name =>
    match Text.Encoding.ofName? name with
    | some e => .ok (e.apply text)
    | none => .error (.unknownEncoding name)

theorem encode_eq (text : String) (s : Supply) : encode b text s = some (encoded b text, s) := by
  unfold encode encoded
  cases b.str? "encoding" with
  | none => rfl
  | some name =>
      simp only
      cases Text.Encoding.ofName? name <;> rfl

theorem ofName?_eq_none_iff {name : String} :
    Text.Encoding.ofName? name = none ↔ name ≠ "url" ∧ name ≠ "base64" := by
  unfold Text.Encoding.ofName?
  split <;> simp_all

theorem encoded_eq_error_iff {text : String} :
    (∃ e, encoded b text = .error e) ↔ AsksUnknownEncoding b := by
  unfold encoded AsksUnknownEncoding
  cases b.str? "encoding" with
  | none => simp
  | some name =>
      simp only [Option.some.injEq, exists_eq_left', ← ofName?_eq_none_iff]
      cases Text.Encoding.ofName? name <;> simp

/-- An encoded text is read back as it was. -/
theorem decode?_of_encoded {text plain : String} (h : encoded b plain = .ok text) :
    decode? b text = some plain := by
  unfold encoded at h
  unfold decode?
  cases hname : b.str? "encoding" with
  | none =>
      rw [hname] at h
      cases h
      rfl
  | some name =>
      simp only [hname] at h
      by_cases hurl : name = "url"
      · subst hurl
        cases h
        exact Text.percentDecode?_percentEncode plain
      · by_cases hbase64 : name = "base64"
        · subst hbase64
          cases h
          exact Text.base64Decode?_base64Encode plain
        · rw [ofName?_eq_none_iff.2 ⟨hurl, hbase64⟩] at h
          cases h

/-! ## Drawing -/

/-- The text before it is encoded. -/
def drawText (b : Bound) : Draw String := do
  let length ← Draw.between (minLength b) (maxLength b)
  drawChars (alphabet b).toList.toArray length.toNat []

/-- What parameters that bind ask for: a failure, or a text that is drawn and encoded. -/
theorem text_eq (hbind : Params.bind v.spec.parameters textDecls = .ok b) :
    text v s =
      if minLength b < 0 ∨ maxLength b < minLength b then
        some (.error (.lengthBounds (minLength b) (maxLength b)), s)
      else if alphabet b = "" then some (.error .emptyAlphabet, s)
      else (drawText b s.source).map fun (plain, source) =>
        ((encoded b plain).map .str, { s with source }) := by
  have hparameters : parameters v "string" textDecls = pure b := by rw [parameters, hbind]
  have hempty : (alphabet b).toList.toArray.isEmpty ↔ alphabet b = "" := by
    rw [← String.toList_inj]
    simp
  unfold text
  rw [hparameters, pure_bind]
  dsimp only
  by_cases hbounds : minLength b < 0 ∨ maxLength b < minLength b
  · rw [if_pos hbounds]
    exact congrFun (if_pos hbounds) s
  rw [if_neg hbounds]
  refine (congrFun (if_neg hbounds) s).trans ?_
  by_cases hsome : alphabet b = ""
  · rw [if_pos hsome]
    exact congrFun (if_pos (hempty.2 hsome)) s
  rw [if_neg hsome]
  refine (congrFun (if_neg (mt hempty.1 hsome)) s).trans ?_
  have hencode : ∀ plain u, (do pure (Json.str (← encode b plain)) : Action Json) u =
      some ((encoded b plain).map .str, u) := fun plain u => by
    simp only [bind, ExceptT.bind, ExceptT.mk, StateT.bind, encode_eq]
    cases encoded b plain <;> rfl
  simp only [Action.draw_bind, hencode, drawText]
  change Option.bind _ _ = Option.map _ (Option.bind _ _)
  rw [Option.map_bind]
  refine congrArg _ (funext fun p => ?_)
  exact Option.map_eq_bind.symm

/-- The bounds of the length are 64-bit integers. -/
theorem int64_of_lengths (b : Bound) : -int64Limit ≤ minLength b ∧ maxLength b < int64Limit :=
  ⟨(int64_of_int? b "min_length" (by decide)).1, (int64_of_int? b "max_length" (by decide)).2⟩

theorem mem_of_drawText {plain : String} {source source' : Source}
    (hmin : 0 ≤ minLength b) (hle : minLength b ≤ maxLength b) (hne : alphabet b ≠ "")
    (h : drawText b source = some (plain, source')) :
    minLength b ≤ plain.length ∧ plain.length ≤ maxLength b ∧
      ∀ c ∈ plain.toList, c ∈ (alphabet b).toList := by
  obtain ⟨length, u, hlength, h⟩ := Draw.bind_eq_some.1 h
  obtain ⟨hlow, hhigh⟩ := int64_of_lengths b
  obtain ⟨hfrom, hto⟩ := Draw.mem_of_between hlow hle hhigh hlength
  have hsize : 0 < (alphabet b).toList.toArray.size := by
    rw [List.size_toArray, List.length_pos_iff]
    exact fun hnil => hne (String.toList_inj.1 hnil)
  obtain ⟨chars, rfl, hcount, hchars⟩ := chars_of_drawChars hsize h
  simp only [List.reverse_nil, List.nil_append, String.length_ofList, hcount,
    String.toList_ofList]
  exact ⟨by omega, by omega, fun c hc => hchars c hc⟩

theorem takes_drawChars (symbols : Array Char) (n : Nat) (rest : List Char) :
    Draw.Takes (4 * n) (drawChars symbols n rest) := by
  induction n generalizing rest with
  | zero => exact Draw.takes_pure _
  | succ n ih =>
      rw [Nat.mul_succ, Nat.add_comm]
      exact (Draw.takes_index _).bind fun i => ih _

/-- Four words for the length and four for each character are enough. -/
theorem exists_drawText {source : Source} (hle : minLength b ≤ maxLength b)
    (hwords : 4 + 4 * (maxLength b).toNat ≤ source.remaining) :
    ∃ plain source', drawText b source = some (plain, source') := by
  obtain ⟨hlow, hhigh⟩ := int64_of_lengths b
  obtain ⟨length, u, hlength, hleft⟩ :=
    Draw.takes_between (minLength b) (maxLength b) source (by omega)
  have hto := (Draw.mem_of_between hlow hle hhigh hlength).2
  obtain ⟨plain, source', hplain, -⟩ :=
    takes_drawChars (alphabet b).toList.toArray length.toNat [] u (by omega)
  exact ⟨plain, source', Draw.bind_eq_some.2 ⟨length, u, hlength, hplain⟩⟩

/-! ## The contract -/

theorem contract_of_text (hbind : Params.bind v.spec.parameters textDecls = .ok b)
    {x : Except Failure Json} (h : text v s = some (x, t)) :
    TextContract b (alphabet b) x := by
  rw [text_eq hbind] at h
  by_cases hbounds : minLength b < 0 ∨ maxLength b < minLength b
  · rw [if_pos hbounds] at h
    cases h
    exact ⟨iff_of_true ⟨_, rfl⟩ (hbounds.imp_right .inl), fun _ h => nomatch h⟩
  rw [if_neg hbounds] at h
  by_cases hempty : alphabet b = ""
  · rw [if_pos hempty] at h
    cases h
    exact ⟨iff_of_true ⟨_, rfl⟩ (.inr (.inr (.inl hempty))), fun _ h => nomatch h⟩
  rw [if_neg hempty] at h
  obtain ⟨hmin, hle⟩ := not_or.1 hbounds
  obtain ⟨⟨plain, source⟩, hdraw, h⟩ := Option.map_eq_some_iff.1 h
  dsimp only at h
  have hplain := mem_of_drawText (Int.not_lt.1 hmin) (Int.not_lt.1 hle) hempty hdraw
  cases hencoded : encoded b plain with
  | error e =>
      rw [hencoded] at h
      cases h
      have hunknown : AsksUnknownEncoding b := encoded_eq_error_iff.1 ⟨e, hencoded⟩
      exact ⟨iff_of_true ⟨_, rfl⟩ (.inr (.inr (.inr hunknown))), fun _ h => nomatch h⟩
  | ok text =>
      rw [hencoded] at h
      cases h
      have hknown : ¬ AsksUnknownEncoding b := fun hunknown => by
        obtain ⟨e, he⟩ := encoded_eq_error_iff.2 hunknown
        exact nomatch hencoded.symm.trans he
      refine ⟨iff_of_false (fun ⟨_, h⟩ => nomatch h) ?_, ?_⟩
      · rintro (h | h | h | h)
        · exact hmin h
        · exact hle h
        · exact hempty h
        · exact hknown h
      · rintro _ ⟨⟩
        exact ⟨text, plain, rfl, decode?_of_encoded hencoded, hplain⟩

/-- A text keeps what its parameters promise. They choose one alphabet, the answer keeps the
contract, and there is one wherever the source lasts. -/
theorem text_meets_contract (hbind : Params.bind v.spec.parameters textDecls = .ok b) :
    (∃ a, Chooses b a) ∧ ∀ a, Chooses b a → ∀ s,
      (4 + 4 * (maxLength b).toNat ≤ s.source.remaining → ∃ x t, text v s = some (x, t)) ∧
        ∀ x t, text v s = some (x, t) → TextContract b a x := by
  refine ⟨⟨_, chooses_iff.2 rfl⟩, fun a ha s => ?_⟩
  obtain rfl := chooses_iff.1 ha
  refine ⟨fun hwords => ?_, fun x t => contract_of_text hbind⟩
  rw [text_eq hbind]
  by_cases hbounds : minLength b < 0 ∨ maxLength b < minLength b
  · exact ⟨_, _, if_pos hbounds⟩
  rw [if_neg hbounds]
  by_cases hempty : alphabet b = ""
  · exact ⟨_, _, if_pos hempty⟩
  rw [if_neg hempty]
  obtain ⟨plain, source, hdraw⟩ := exists_drawText (Int.not_lt.1 (not_or.1 hbounds).2) hwords
  exact ⟨_, _, Option.map_eq_some_iff.2 ⟨_, hdraw, rfl⟩⟩

/-- A visit that asks for two accented letters in base64. -/
def accentVisit : Visit where
  spec := { parameters := some (.arr [.int 2, .int 2, .null, .str "é", .str "base64"]) }
  stage := .delayed
  depth := 0
  inScope := false
  room := none
  children := []
  providers := .absent

def accentSupply : Supply := ⟨.tape (List.replicate 12 7), {}, none, 0⟩

/-- From twelve words two accented letters are made, and they can be read back. -/
theorem text_meets_contract_accent : ∃ text t, Leaf.text accentVisit accentSupply =
    some (.ok (.str text), t) ∧
    (Text.base64Decode? text).map String.toList = some ['é', 'é'] := by
  have hbind : Params.bind accentVisit.spec.parameters textDecls =
      .ok ⟨[("min_length", .int 2), ("max_length", .int 2), ("fixed_alphabet", .str "é"),
        ("encoding", .str "base64")]⟩ := by rfl
  obtain ⟨hwords, hcontract⟩ := (text_meets_contract hbind).2 "é" (.fixed (by rfl)) accentSupply
  obtain ⟨x, t, htext⟩ := hwords (by decide)
  have hanswer := hcontract x t htext
  cases x with
  | error e =>
      rcases hanswer.fails.1 ⟨e, rfl⟩ with h | h | h | ⟨name, hname, hurl, hbase64⟩
      · exact absurd h (by decide)
      · exact absurd h (by decide)
      · exact absurd h (by decide)
      · exact absurd (Option.some.inj hname).symm hbase64
  | ok w =>
      obtain ⟨text, plain, rfl, hdecode, hmin, hmax, hchars⟩ := hanswer.yields w rfl
      have hlength : plain.toList.length = 2 := by
        rw [String.length_toList]
        exact Int.ofNat.inj (Int.le_antisymm hmax hmin)
      have hall : plain.toList = ['é', 'é'] :=
        List.eq_replicate_of_mem (fun c hc => List.mem_singleton.1 (hchars c hc)) |>.trans
          (by rw [hlength]; rfl)
      refine ⟨text, t, htext, ?_⟩
      rw [show Text.base64Decode? text = some plain from hdecode, Option.map_some, hall]

end Leaf

end Specimen
