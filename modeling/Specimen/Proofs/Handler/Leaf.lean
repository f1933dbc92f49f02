import Specimen.Proofs.Handler.Action
import Specimen.Proofs.Random.Range
/-!
# What leaf handlers make

`Leaf.Yields` says which values a leaf handler can make for a description when it reports no
failure, and `Leaf.yields_of_handler` that it makes no others.
-/

namespace Specimen

open Specimen.Random Regex

namespace Leaf

/-- What the leaf handlers make for a description when they report no failure. -/
inductive Yields (providers : Providers) (s : Spec) : Builtin → Json → Prop
  | declared {v : Json} : s.value = some v → Yields providers s .fixed v
  | bound {b : Params.Bound} : s.value = none →
      Params.bind s.parameters [⟨"value", .any, false⟩] = .ok b →
      Yields providers s .fixed (Json.ofOption (b.get? "value"))
  | boolean (x : Bool) : Yields providers s .boolean (.bool x)
  | integer {b : Params.Bound} {n : Int} :
      Params.bind s.parameters [⟨"min_val", .int, false⟩, ⟨"max_val", .int, false⟩] = .ok b →
      (b.int? "min_val").getD 0 ≤ n → n ≤ (b.int? "max_val").getD 9 →
      Yields providers s .integer (.int n)
  | pick {values : List Json} {v : Json} : Params.variadic s.parameters "choices" = .ok values →
      v ∈ values → Yields providers s .pick v
  | pickNothing : Params.variadic s.parameters "choices" = .ok [] →
      Yields providers s .pick .null
  | distribution {name : String} {args : List Json} {v : Json} {source source' : Source} :
      Params.call s.parameters "distribution" "args" = .ok (name, args) →
      providers.callDistribution name args source = some (.ok v, source') →
      Yields providers s .distribution v
  | fallback {name : String} {args : List Json} {v : Json} :
      Params.call s.parameters "distribution" "args" = .ok (name, args) → v ∈ args →
      Yields providers s .distribution v
  | noFallback {name : String} :
      Params.call s.parameters "distribution" "args" = .ok (name, []) →
      Yields providers s .distribution .null
  | text {b : Params.Bound} {chars : List Char} {text : String} :
      Params.bind s.parameters textDecls = .ok b →
      (b.int? "min_length").getD 1 ≤ chars.length →
      chars.length ≤ (b.int? "max_length").getD 16 →
      (∀ c ∈ chars, c ∈ (alphabet b).toList) → encode b (String.ofList chars) = pure text →
      Yields providers s .text (.str text)
  | regex (text : String) : Yields providers s .regex (.str text)
  | enumeration {n : Nat} {text : String} :
      Counter.format (s.pattern.getD "%d") n = some (.ok text) →
      Yields providers s .enumeration (.str text)
  | fake {name : String} {args : List Json} {v : Json} {source source' : Source} :
      Params.call s.parameters "method" "args" = .ok (name, args) →
      providers.callFake name args source = some (.ok v, source') → Yields providers s .fake v
  | noFake : Yields providers s .fake .null

variable {v : Visit} {w : Json} {s t : Supply}

theorem parameters_eq_ok {context : String} {decls : List Params.Decl} {b : Params.Bound}
    (h : parameters v context decls s = some (.ok b, t)) :
    Params.bind v.spec.parameters decls = .ok b ∧ t = s := by
  cases hb : Params.bind v.spec.parameters decls with
  | ok b' =>
      rw [parameters, hb] at h
      obtain ⟨rfl, rfl⟩ := Action.pure_eq_ok.1 h
      exact ⟨rfl, rfl⟩
  | error err =>
      rw [parameters, hb] at h
      cases h

theorem call_eq_ok {context nameKey : String} {c : String × List Json}
    (h : call v context nameKey s = some (.ok c, t)) :
    Params.call v.spec.parameters nameKey "args" = .ok c := by
  cases hc : Params.call v.spec.parameters nameKey "args" with
  | ok c' =>
      rw [call, hc] at h
      obtain ⟨rfl, rfl⟩ := Action.pure_eq_ok.1 h
      rfl
  | error err =>
      rw [call, hc] at h
      cases h

theorem int64_of_integer? {x : Json} {n : Int} (h : Params.integer? x = some n) :
    -int64Limit ≤ n ∧ n < int64Limit := by
  cases x with
  | int m =>
      simp only [Params.integer?] at h
      split at h
      · rename_i hrange
        cases h
        exact hrange
      · cases h
  | float x =>
      simp only [Params.integer?] at h
      obtain ⟨-, hrange⟩ := Option.filter_eq_some_iff.1 h
      have hlt := of_decide_eq_true hrange
      omega
  | _ => cases h

theorem int64_of_int? (b : Params.Bound) (key : String) {d : Int}
    (hdefault : -int64Limit ≤ d ∧ d < int64Limit) :
    -int64Limit ≤ (b.int? key).getD d ∧ (b.int? key).getD d < int64Limit := by
  cases hint : b.int? key with
  | none =>
      rw [Option.getD_none]
      exact hdefault
  | some m =>
      obtain ⟨x, -, hx⟩ := Option.bind_eq_some_iff.1 hint
      exact int64_of_integer? hx

theorem yields_fixed (h : fixed v s = some (.ok w, t)) : Yields v.providers v.spec .fixed w := by
  cases hvalue : v.spec.value with
  | some value =>
      rw [fixed, hvalue] at h
      obtain ⟨rfl, -⟩ := Action.pure_eq_ok.1 h
      exact .declared hvalue
  | none =>
      rw [fixed, hvalue] at h
      obtain ⟨b, u, hb, h⟩ := Action.bind_eq_ok.1 h
      obtain ⟨rfl, -⟩ := Action.pure_eq_ok.1 h
      exact .bound hvalue (parameters_eq_ok hb).1

theorem yields_boolean (h : boolean v s = some (.ok w, t)) :
    Yields v.providers v.spec .boolean w := by
  obtain ⟨b, u, -, h⟩ := Action.bind_eq_ok.1 h
  obtain ⟨x, u', -, h⟩ := Action.bind_eq_ok.1 h
  obtain ⟨rfl, -⟩ := Action.pure_eq_ok.1 h
  exact .boolean _

theorem yields_integer (h : integer v s = some (.ok w, t)) :
    Yields v.providers v.spec .integer w := by
  obtain ⟨b, u, hb, h⟩ := Action.bind_eq_ok.1 h
  by_cases hbounds : (b.int? "max_val").getD 9 < (b.int? "min_val").getD 0
  · rw [if_pos hbounds] at h
    cases h
  · rw [if_neg hbounds] at h
    obtain ⟨n, u', hdraw, h⟩ := Action.bind_eq_ok.1 h
    obtain ⟨rfl, -⟩ := Action.pure_eq_ok.1 h
    obtain ⟨source, hdraw⟩ := Action.draw_eq_ok hdraw
    obtain ⟨hlow, -⟩ := int64_of_int? (d := 0) b "min_val" (by decide)
    obtain ⟨-, hhigh⟩ := int64_of_int? (d := 9) b "max_val" (by decide)
    obtain ⟨hmin, hmax⟩ := Draw.mem_of_between hlow (Int.not_lt.1 hbounds) hhigh hdraw
    exact .integer (parameters_eq_ok hb).1 hmin hmax

theorem yields_pick (h : pick v s = some (.ok w, t)) : Yields v.providers v.spec .pick w := by
  cases hvalues : Params.variadic v.spec.parameters "choices" with
  | error err =>
      rw [pick, hvalues] at h
      cases h
  | ok values =>
      rw [pick, hvalues] at h
      obtain ⟨x, u, hx, h⟩ := Action.bind_eq_ok.1 h
      obtain ⟨rfl, -⟩ := Action.pure_eq_ok.1 h
      obtain ⟨source, hx⟩ := Action.draw_eq_ok hx
      cases values with
      | nil =>
          obtain ⟨rfl, -⟩ := Draw.pure_eq_some.1 hx
          exact .pickNothing hvalues
      | cons a values =>
          obtain ⟨c, hc, rfl⟩ := Draw.mem_of_pick (by simp) hx
          exact .pick hvalues hc

theorem yields_distribution (h : distribution v s = some (.ok w, t)) :
    Yields v.providers v.spec .distribution w := by
  obtain ⟨⟨name, args⟩, u, hcall, h⟩ := Action.bind_eq_ok.1 h
  replace hcall := call_eq_ok hcall
  obtain ⟨answer, u', hanswer, h⟩ := Action.bind_eq_ok.1 h
  obtain ⟨source, hanswer⟩ := Action.draw_eq_ok hanswer
  cases answer with
  | ok value =>
      obtain ⟨rfl, -⟩ := Action.pure_eq_ok.1 h
      exact .distribution hcall hanswer
  | error err =>
      obtain ⟨x, u', hx, h⟩ := Action.bind_eq_ok.1 h
      obtain ⟨rfl, -⟩ := Action.pure_eq_ok.1 h
      obtain ⟨source, hx⟩ := Action.draw_eq_ok hx
      cases args with
      | nil =>
          obtain ⟨rfl, -⟩ := Draw.pure_eq_some.1 hx
          exact .noFallback hcall
      | cons a args =>
          obtain ⟨c, hc, rfl⟩ := Draw.mem_of_pick (by simp) hx
          exact .fallback hcall hc

theorem chars_of_drawChars {symbols : Array Char} {n : Nat} {rest : List Char} {text : String}
    {source source' : Source} (hsymbols : 0 < symbols.size)
    (h : drawChars symbols n rest source = some (text, source')) :
    ∃ chars : List Char, text = String.ofList (rest.reverse ++ chars) ∧ chars.length = n ∧
      ∀ c ∈ chars, c ∈ symbols.toList := by
  induction n generalizing rest source with
  | zero =>
      obtain ⟨rfl, -⟩ := Draw.pure_eq_some.1 h
      exact ⟨[], by simp, rfl, by simp⟩
  | succ n ih =>
      obtain ⟨i, u, hi, h⟩ := Draw.bind_eq_some.1 h
      have hlt := Draw.lt_of_index hsymbols hi
      obtain ⟨chars, rfl, hlength, hchars⟩ := ih h
      refine ⟨symbols[i] :: chars, ?_, by simp [hlength], ?_⟩
      · simp [Array.getElem?_eq_getElem hlt]
      · intro c hc
        rcases List.mem_cons.1 hc with rfl | hc
        · exact Array.mem_toList_iff.2 (Array.getElem_mem hlt)
        · exact hchars c hc

theorem encode_eq_ok {b : Params.Bound} {text text' : String}
    (h : encode b text s = some (.ok text', t)) : encode b text = pure text' := by
  unfold encode at h ⊢
  cases hname : b.str? "encoding" with
  | none =>
      rw [hname] at h
      obtain ⟨rfl, -⟩ := Action.pure_eq_ok.1 h
      rfl
  | some name =>
      rw [hname] at h
      cases hencoding : Text.Encoding.ofName? name with
      | none =>
          simp only [hencoding] at h
          cases h
      | some encoding =>
          simp only [hencoding] at h
          obtain ⟨rfl, -⟩ := Action.pure_eq_ok.1 h
          simp only [hencoding]

theorem yields_text (h : text v s = some (.ok w, t)) : Yields v.providers v.spec .text w := by
  obtain ⟨b, u, hb, h⟩ := Action.bind_eq_ok.1 h
  dsimp only at h
  by_cases hbounds : (b.int? "min_length").getD 1 < 0 ∨
      (b.int? "max_length").getD 16 < (b.int? "min_length").getD 1
  · rw [if_pos hbounds] at h
    cases h
  rw [if_neg hbounds] at h
  by_cases hempty : (alphabet b).toList.toArray.isEmpty
  · rw [if_pos hempty] at h
    cases h
  rw [if_neg hempty] at h
  obtain ⟨length, u, hlength, h⟩ := Action.bind_eq_ok.1 h
  obtain ⟨drawn, u', hdrawn, h⟩ := Action.bind_eq_ok.1 h
  obtain ⟨encoded, u'', hencoded, h⟩ := Action.bind_eq_ok.1 h
  obtain ⟨rfl, -⟩ := Action.pure_eq_ok.1 h
  obtain ⟨source, hlength⟩ := Action.draw_eq_ok hlength
  obtain ⟨source', hdrawn⟩ := Action.draw_eq_ok hdrawn
  obtain ⟨hlow, -⟩ := int64_of_int? (d := 1) b "min_length" (by decide)
  obtain ⟨-, hhigh⟩ := int64_of_int? (d := 16) b "max_length" (by decide)
  obtain ⟨hmin, hmax⟩ := Draw.mem_of_between hlow (by omega) hhigh hlength
  obtain ⟨chars, hdrawn, hcount, hchars⟩ :=
    chars_of_drawChars
      (by simpa [Array.isEmpty_iff_size_eq_zero, Nat.pos_iff_ne_zero] using hempty)
      hdrawn
  rw [List.reverse_nil, List.nil_append] at hdrawn
  subst hdrawn
  refine .text (parameters_eq_ok hb).1 (by omega) (by omega) (fun c hc => ?_)
    (encode_eq_ok hencoded)
  simpa using hchars c hc

theorem yields_regex (h : regex v s = some (.ok w, t)) : Yields v.providers v.spec .regex w := by
  obtain ⟨b, u, -, h⟩ := Action.bind_eq_ok.1 h
  obtain ⟨text, u', -, h⟩ := Action.bind_eq_ok.1 h
  obtain ⟨rfl, -⟩ := Action.pure_eq_ok.1 h
  exact .regex text

theorem yields_enumeration (h : enumeration v s = some (.ok w, t)) :
    Yields v.providers v.spec .enumeration w := by
  obtain ⟨n, u, -, h⟩ := Action.bind_eq_ok.1 h
  obtain ⟨answer, u', hanswer, h⟩ := Action.bind_eq_ok.1 h
  cases answer with
  | ok text =>
      obtain ⟨rfl, -⟩ := Action.pure_eq_ok.1 h
      exact .enumeration (Action.returned_eq_ok hanswer).1
  | error err => cases h

theorem yields_fake (h : fake v s = some (.ok w, t)) : Yields v.providers v.spec .fake w := by
  obtain ⟨⟨name, args⟩, u, hcall, h⟩ := Action.bind_eq_ok.1 h
  obtain ⟨answer, u', hanswer, h⟩ := Action.bind_eq_ok.1 h
  obtain ⟨source, hanswer⟩ := Action.draw_eq_ok hanswer
  cases answer with
  | ok value =>
      obtain ⟨rfl, -⟩ := Action.pure_eq_ok.1 h
      exact .fake (call_eq_ok hcall) hanswer
  | error err =>
      obtain ⟨rfl, -⟩ := Action.pure_eq_ok.1 h
      exact .noFake

end Leaf

/-- The handler can report a failure at the first visit of a node of this description. -/
def Builtin.CanFail (b : Builtin) (providers : Providers) (spec : Spec) : Prop :=
  ∃ (v : Visit) (s t : Supply) (err : Failure), v.spec = spec ∧ v.stage = .delayed ∧
    v.providers = providers ∧ b.handler v s = some (.error err, t)

end Specimen
