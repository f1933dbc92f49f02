import Specimen.Handler.Dispatch
import Specimen.Proofs.Engine.Conformance
import Specimen.Proofs.Guarded.Regex
import Specimen.Proofs.Handler.Action
import Specimen.Proofs.Handler.Leaf
import Specimen.Proofs.Spec.FromJson
/-!
# The built-in handlers with their operations checked

`Guarded.builtin` are the built-in handlers with a check before each draw from a range, each
difference and each length that becomes a word. They make no fault (`Agrees.builtin`): bounds
that are in the wrong order are refused or give an empty list before anything is drawn, the
integers that they are come from signed words of 64 bits, and at most what was drawn or declared
is cut off. What the providers and the floating-point draws do inside is not looked into.
-/

namespace Specimen

open Specimen.Random Regex Params

abbrev GuardedHandler := Visit → GuardedAction Verdict

namespace Guarded

/-! ## Values without children -/

/-- `Leaf.integer`. -/
def integer (v : Visit) : GuardedAction Json := do
  let b ← ofAction
    (Leaf.parameters v "integer" [⟨"min_val", .int, false⟩, ⟨"max_val", .int, false⟩])
  let low := (b.int? "min_val").getD 0
  let high := (b.int? "max_val").getD 9
  if high < low then throw (.integerBounds low high)
  else pure (.int (← draw (between low high)))

/-- `Leaf.pick`. -/
def pickValue (v : Visit) : GuardedAction Json :=
  match Params.variadic v.spec.parameters "choices" with
  | .error e => throw (.parameters "choice" e)
  | .ok values => do pure (Json.ofOption (← draw (pick values)))

/-- `Leaf.drawChars`. -/
def drawChars (alphabet : Array Char) : Nat → List Char → GuardedDraw String
  | 0, rest => pure (String.ofList rest.reverse)
  | n + 1, rest => do
    let i ← index alphabet.size
    drawChars alphabet n ((alphabet[i]?.getD ' ') :: rest)

/-- `Leaf.text`. -/
def text (v : Visit) : GuardedAction Json := do
  let b ← ofAction (Leaf.parameters v "string" Leaf.textDecls)
  let low := (b.int? "min_length").getD 1
  let high := (b.int? "max_length").getD 16
  if low < 0 ∨ high < low then throw (.lengthBounds low high)
  else
    let chars := (Leaf.alphabet b).toList.toArray
    if chars.isEmpty then throw .emptyAlphabet
    else
      let length ← draw (between low high)
      let n ← toWord length
      let s ← draw (drawChars chars n [])
      pure (.str (← ofAction (Leaf.encode b s)))

/-- `Action.synthesize`. -/
def synthesize (check? : String → Option (String → Bool)) (pattern : String) (minLength : Nat) :
    GuardedAction String := fun s =>
  match s.synthesizer.read pattern with
  | .error e => pure (.error (.synthesis e), s)
  | .ok (tree, synthesizer) =>
    draw (search (acceptable (check? pattern) minLength) tree attempts "") { s with synthesizer }

/-- `Leaf.regex`. -/
def regex (v : Visit) : GuardedAction Json := do
  let b ← ofAction
    (Leaf.parameters v "string/regex" [⟨"regex", .string, true⟩, ⟨"min_length", .int, false⟩])
  let minLength := ((b.int? "min_length").getD 0).toNat
  pure (.str (← synthesize v.providers.check? ((b.str? "regex").getD "") minLength))

/-- `Leaf.distribution`. -/
def distribution (v : Visit) : GuardedAction Json := do
  let (name, args) ← ofAction (Leaf.call v "numpy" "distribution")
  match ← draw (ofDraw (v.providers.callDistribution name args)) with
  | .ok value => pure value
  | .error _ => pure (Json.ofOption (← draw (pick args)))

def leaf (value : Visit → GuardedAction Json) : GuardedHandler := fun v => do
  pure (.finish (← value v))

/-! ## Composites -/

/-- `Record.planKey` for the occurrences that are left, by their numbers. -/
def planKey (later : Nat) (k : KeyDecl Spec) : List Nat → Record.Plan → GuardedDraw Record.Plan
  | [], p => pure p
  | occurrence :: rest, p => do
    if ← ofDraw (Record.isPresent p k.chance) then
      if p.fits k.need then planKey later k rest (p.keep k)
      else
        let left ← subtract k.times occurrence
        pure { p with cut := some (min Record.countLimit (left * k.need + later)) }
    else planKey later k rest p

/-- `Record.plan`. -/
def plan : List (KeyDecl Spec) → Record.Plan → GuardedDraw Record.Plan
  | [], p => pure p
  | k :: keys, p => do
    let p ← planKey (Record.needs keys) k (List.range k.times) p
    if p.cut.isSome then pure p else plan keys p

/-- `Record.handler`. -/
def record : GuardedHandler := fun v =>
  match v.stage with
  | .toBuild => pure (.finish (Json.ofFields (Record.assemble v.children)))
  | _ => do
    let p ← draw (plan v.spec.keys { room := v.room })
    ofAction (Action.discard (p.cut.getD 0))
    if p.entries.isEmpty then pure (.finish (.obj []))
    else pure (.expand .fresh p.children)

/-- `Sequence.handler`. -/
def array : GuardedHandler := fun v =>
  match v.stage with
  | .toBuild => pure (.finish (.arr (v.children.filterMap Sequence.item?)))
  | _ => do
    let (low, high) := Sequence.bounds v.spec
    if high < low then pure (.finish (.arr []))
    else
      let drawn ← draw (between low high)
      let length ← toWord drawn
      let kept := Sequence.admitted v.room length
      let cut ← subtract length kept
      ofAction (Action.discard cut)
      if kept = 0 then pure (.finish (.arr []))
      else
        pure (.expand .fresh (List.replicate kept (.queued (v.spec.typeElements.getD .empty))))

/-- `Builtin.handler`. -/
def builtin : Builtin → GuardedHandler
  | .fixed => leaf fun v => ofAction (Leaf.fixed v)
  | .boolean => leaf fun v => ofAction (Leaf.boolean v)
  | .integer => leaf integer
  | .pick => leaf pickValue
  | .distribution => leaf distribution
  | .text => leaf text
  | .regex => leaf regex
  | .enumeration => leaf fun v => ofAction (Leaf.enumeration v)
  | .fake => leaf fun v => ofAction (Leaf.fake v)
  | .record => record
  | .array => array
  | .choice => fun v => ofAction (Choice.handler v)

end Guarded

namespace Tracks

theorem drawChars {alphabet : Array Char} (h : 0 < alphabet.size) (n : Nat) (rest : List Char) :
    Tracks Eq (Guarded.drawChars alphabet n rest) (Leaf.drawChars alphabet n rest) := by
  induction n generalizing rest with
  | zero => exact pure rfl
  | succ n ih =>
      refine (index h).bind ?_
      rintro i _ rfl -
      exact ih _

/-- The occurrences that are left are numbered up to as often as the key is declared. -/
theorem planKey (later : Nat) (k : KeyDecl Spec) {i left : Nat} (hleft : i + left = k.times)
    (p : Record.Plan) : Tracks Eq (Guarded.planKey later k (List.range' i left) p)
      (Record.planKey later k left p) := by
  induction left generalizing i p with
  | zero => exact pure rfl
  | succ left ih =>
      rw [List.range'_succ, Guarded.planKey, Record.planKey]
      refine (ofDraw _).bind ?_
      rintro present _ rfl -
      split
      · split
        · exact ih (by omega) _
        · refine check (Guarded.subtract_of_le (by omega)) (pure ?_)
          rw [show k.times - i = left + 1 by omega]
      · exact ih (by omega) p

theorem plan (keys : List (KeyDecl Spec)) (p : Record.Plan) :
    Tracks Eq (Guarded.plan keys p) (Record.plan keys p) := by
  induction keys generalizing p with
  | nil => exact pure rfl
  | cons k keys ih =>
      rw [Guarded.plan, Record.plan, List.range_eq_range']
      refine (planKey _ k (Nat.zero_add _) p).bind ?_
      rintro q _ rfl -
      split
      · exact pure rfl
      · exact ih q

end Tracks

namespace Agrees

variable {v : Visit}

theorem integer (v : Visit) : Agrees (Guarded.integer v) (Leaf.integer v) := by
  refine (ofAction _).bind fun b _ => ?_
  dsimp only
  split
  · exact throw _
  · refine (draw (.between (by omega))).bind fun n _ => pure _

theorem pickValue (v : Visit) : Agrees (Guarded.pickValue v) (Leaf.pick v) := by
  unfold Guarded.pickValue Leaf.pick
  cases Params.variadic v.spec.parameters "choices" with
  | error e => exact throw _
  | ok values => exact (draw (.pick _)).bind fun _ _ => pure _

theorem text (v : Visit) : Agrees (Guarded.text v) (Leaf.text v) := by
  refine (ofAction _).bind fun b _ => ?_
  dsimp only
  split
  · exact throw _
  split
  · exact throw _
  rename_i hbounds hchars
  refine (draw (.between (by omega))).bind fun length ⟨s, t, hlength⟩ => ?_
  obtain ⟨source, hlength⟩ := Action.draw_eq_ok hlength
  obtain ⟨hlow, -⟩ := Leaf.int64_of_int? (d := 1) b "min_length" (by decide)
  obtain ⟨-, hhigh⟩ := Leaf.int64_of_int? (d := 16) b "max_length" (by decide)
  obtain ⟨hmin, hmax⟩ := Draw.mem_of_between hlow (by omega) hhigh hlength
  refine check (Guarded.toWord_of_int64 (by omega) (by omega)) ?_
  refine (draw (.drawChars ?_ _ _)).bind fun s _ => ?_
  · simpa [Array.isEmpty_iff_size_eq_zero, Nat.pos_iff_ne_zero] using hchars
  · exact (ofAction _).bind fun encoded _ => pure _

theorem synthesize (check? : String → Option (String → Bool)) (pattern : String)
    (minLength : Nat) :
    Agrees (Guarded.synthesize check? pattern minLength)
      (Action.synthesize check? pattern minLength) := by
  intro s
  unfold Guarded.synthesize Action.synthesize Synthesizer.synthesize
  cases hread : s.synthesizer.read pattern with
  | error e => rfl
  | ok read =>
      obtain ⟨tree, synthesizer⟩ := read
      have htree := isWellFormed_of_parse (Synthesizer.parse_of_read hread)
      exact draw (.search htree _ _ _) _

theorem regex (v : Visit) : Agrees (Guarded.regex v) (Leaf.regex v) :=
  (ofAction _).bind fun _ _ => (synthesize _ _ _).bind fun _ _ => pure _

theorem distribution (v : Visit) : Agrees (Guarded.distribution v) (Leaf.distribution v) := by
  refine (ofAction _).bind fun call _ => (draw (.ofDraw _)).bind fun answer _ => ?_
  cases answer with
  | ok value => exact pure _
  | error e => exact (draw (.pick _)).bind fun _ _ => pure _

theorem leaf {f : Visit → GuardedAction Json} {g : Visit → Action Json}
    (h : ∀ v, Agrees (f v) (g v)) (v : Visit) :
    Agrees (Guarded.leaf f v) (Handler.leaf g v) :=
  (h v).bind fun _ _ => pure _

theorem record (v : Visit) : Agrees (Guarded.record v) (Record.handler v) := by
  unfold Guarded.record Record.handler
  cases v.stage with
  | toBuild => exact pure _
  | _ =>
      refine (draw (.plan _ _)).bind fun p _ => (ofAction _).bind fun _ _ => ?_
      split <;> exact pure _

theorem array (h : v.spec.IsMeasured) : Agrees (Guarded.array v) (Sequence.handler v) := by
  obtain ⟨hlow, hhigh⟩ := Engine.bounds_of_isMeasured h
  unfold Guarded.array Sequence.handler
  cases v.stage with
  | toBuild => exact pure _
  | _ =>
      dsimp only
      split
      · exact pure _
      refine (draw (.between (by omega))).bind fun drawn ⟨s, t, hdrawn⟩ => ?_
      obtain ⟨source, hdrawn⟩ := Action.draw_eq_ok hdrawn
      obtain ⟨hmin, hmax⟩ :=
        Draw.mem_of_between (by simp only [int64Limit]; omega) (by omega) hhigh hdrawn
      refine check (Guarded.toWord_of_int64 (by omega) (by omega)) ?_
      refine check (Guarded.subtract_of_le (Sequence.admitted_le _ _)) ?_
      refine (ofAction _).bind fun _ _ => ?_
      split <;> exact pure _

/-- The built-in handlers make no fault. -/
theorem builtin (h : v.spec.IsMeasured) (b : Builtin) :
    Agrees (Guarded.builtin b v) (b.handler v) := by
  cases b with
  | fixed => exact leaf (fun _ => ofAction _) v
  | boolean => exact leaf (fun _ => ofAction _) v
  | integer => exact leaf integer v
  | pick => exact leaf pickValue v
  | distribution => exact leaf distribution v
  | text => exact leaf text v
  | regex => exact leaf regex v
  | enumeration => exact leaf (fun _ => ofAction _) v
  | fake => exact leaf (fun _ => ofAction _) v
  | record => exact record v
  | array => exact array h
  | choice => exact ofAction _

end Agrees

end Specimen
