import Specimen.Provider.Error
import Specimen.Provider.Normal
/-!
# Statistical distributions

`Distribution.ofCall` reads a named distribution with its arguments, and `Distribution.sample`
draws from it. Everything that can fail fails before the first draw. Which numbers come of the
words drawn is up to the sampler; what a generator does with them holds for any provider.
-/

namespace Specimen.Provider

/-- A distribution with good parameters. -/
inductive Distribution where
  | binomial (trials : Nat) (p : Float)
  | normal (mean deviation : Float)
  | uniform (low high : Float)
  | poisson (rate : Float)
  | exponential (scale : Float)
  | gamma (shape scale : Float)
  | beta (a b : Float)
  | lognormal (mean deviation : Float)
  | geometric (p : Float)
  | triangular (left mode right : Float)
  /-- The integers from `low` to below `high`. -/
  | integers (low high : Int)

namespace Distribution

/-- The names of the distributions. -/
def names : List String :=
  ["binomial", "normal", "uniform", "poisson", "exponential", "gamma", "beta", "lognormal",
    "geometric", "triangular", "integers", "randint"]

/-! ## Reading a call -/

def check (good : Bool) (f : DistributionFault) : Except ArgumentFault Unit :=
  if good then .ok () else .error (.distribution f)

/-- A spread, which must not be negative. -/
def spread (field : String) (x : Float) : Except ArgumentFault Float :=
  if x < 0.0 then .error (.negativeSpread field x) else .ok x

/-- The range of a draw of integers: from zero if only one bound is given. -/
def integerRange (args : List Json) : Except ArgumentFault Distribution := do
  let first ← integer args 0 none
  let (low, high) ←
    if args.length ≤ 1 then pure (0, first) else do pure (first, ← integer args 1 none)
  check (low < high) .emptyRange
  pure (.integers low high)

/-- The distribution of a name, if there is one, with its arguments checked. -/
def ofArguments? (name : String) (args : List Json) :
    Option (Except ArgumentFault Distribution) :=
  match name with
  | "binomial" => some do
    let trials ← integer args 0 none
    check (0 ≤ trials) .negativeTrials
    let p ← number args 1 none
    check (0.0 ≤ p) .probabilityBelowZero
    check (p ≤ 1.0) .probabilityAboveOne
    pure (.binomial trials.toNat p)
  | "normal" => some do
    let mean ← number args 0 (some 0.0)
    let deviation ← spread "scale" (← number args 1 (some 1.0))
    pure (.normal mean deviation)
  | "uniform" => some do
    let low ← number args 0 (some 0.0)
    let high ← number args 1 (some 1.0)
    check (low < high) .emptyRange
    check (high - low).isFinite .infiniteRange
    pure (.uniform low high)
  | "poisson" => some do
    let rate ← number args 0 (some 1.0)
    check (0.0 < rate) .rateNotPositive
    check (rate ≤ 1.844e19) .rateTooLarge
    pure (.poisson rate)
  | "exponential" => some do
    let scale ← number args 0 (some 1.0)
    check (0.0 ≤ 1.0 / scale) .negativeRate
    pure (.exponential scale)
  | "gamma" => some do
    let shape ← number args 0 none
    let scale ← number args 1 (some 1.0)
    check (0.0 < shape) .gammaShape
    check (0.0 < scale) .gammaScale
    pure (.gamma shape scale)
  | "beta" => some do
    let alpha ← number args 0 none
    let beta ← number args 1 none
    check (0.0 < alpha) .betaAlpha
    check (0.0 < beta) .betaBeta
    pure (.beta alpha beta)
  | "lognormal" => some do
    let mean ← number args 0 (some 0.0)
    let deviation ← spread "sigma" (← number args 1 (some 1.0))
    pure (.lognormal mean deviation)
  | "geometric" => some do
    let p ← number args 0 none
    check (0.0 ≤ p ∧ p ≤ 1.0) .notProbability
    pure (.geometric p)
  | "triangular" => some do
    let left ← number args 0 none
    let mode ← number args 1 none
    let right ← number args 2 none
    check (left ≤ right) .invertedRange
    check (left ≤ mode ∧ mode ≤ right) .modeOutside
    pure (.triangular left mode right)
  | "integers" | "randint" => some (integerRange args)
  | _ => none

/-- The distribution that a call asks for. -/
def ofCall (name : String) (args : List Json) : Except Error Distribution :=
  match ofArguments? name args with
  | none => .error (.unknownMethod name)
  | some (.error f) => .error (.invalidArguments name f)
  | some (.ok d) => .ok d

/-! ## Drawing -/

/-- The largest step for which no draw passes `high`: the width,
lowered by a few units at most. -/
def fittedScale (low high : Float) : Nat → Float
  | 0 => 0.0
  | bits + 1 =>
    let x := Float.ofBits (UInt64.ofNat (bits + 1))
    if high < x * (1.0 - Float.ofBits 0x3CB0000000000000) + low then fittedScale low high bits
    else x

def drawUniform (low high : Float) : Draw Float := do
  let x ← Draw.coarseUnit
  pure (x * fittedScale low high (high - low).toBits.toNat + low)

/-- `x` multiplied with itself, by squaring. -/
def power (x : Float) (n : Nat) : Float :=
  if _h : n = 0 then 1.0
  else
    let half := power (x * x) (n / 2)
    if n % 2 = 1 then x * half else half
termination_by n
decreasing_by omega

/-- How many successes a fraction stands for, by subtracting their probabilities from it. -/
def successes (ratio growth : Float) : Nat → Nat → Float → Float → Option Nat
  | 0, x, rest, p => if p < rest then none else some x
  | more + 1, x, rest, p =>
    if p < rest then
      successes ratio growth more (x + 1) (rest - p) (p * (growth / (x + 1).toFloat - ratio))
    else some x

/-- The successes of a few expected ones; beyond 110 a fraction is drawn again. -/
def drawSuccesses (trials : Nat) (p : Float) : Draw Nat :=
  let q := 1.0 - p
  let ratio := p / q
  let growth := (trials.toFloat + 1.0) * ratio
  Draw.loop Draw.unit Draw.shrinks_unit (fun (_ : Unit) u =>
    match successes ratio growth 110 0 u (Float.pow q trials.toFloat) with
    | some x => .inr x
    | none => .inl ()) ()

/-- A count near a mean, by the normal distribution. -/
def drawAround (mean deviation : Float) (limit : Nat) : Draw Nat := do
  let z ← standardNormal
  pure (min limit (mean + deviation * z).round.toUInt64.toNat)

/-- The number of successes among some trials. -/
def drawBinomial (trials : Nat) (p : Float) : Draw Nat :=
  if p == 0.0 then pure 0
  else if p == 1.0 then pure trials
  else
    let flipped := 0.5 < p
    let p := if flipped then 1.0 - p else p
    let mean := trials.toFloat * p
    let draw :=
      if mean < 10.0 then drawSuccesses trials p
      else drawAround mean (Float.sqrt (mean * (1.0 - p))) trials
    do
      let x ← draw
      pure (if flipped then trials - x else x)

/-- How many fractions can be multiplied before the product falls to `exp (-rate)`. -/
def drawPoisson (rate : Float) : Draw Nat :=
  if rate < 12.0 then
    let bound := Float.exp (-rate)
    Draw.loop Draw.unit Draw.shrinks_unit (fun (product, k) u =>
      let product := product * u
      if bound < product then .inl (product, k + 1) else .inr k) (1.0, 0)
  else drawAround rate (Float.sqrt rate) (UInt64.size - 1)

/-- How often a fraction passes a test before the first one that does not. -/
def countWhile (test : Float → Bool) : Draw Nat :=
  Draw.loop Draw.unit Draw.shrinks_unit (fun k u => if test u then .inl (k + 1) else .inr k) 0

/-- The least `k` from `k` on, at most `fuel` further, for which `pi`
squared so often is small. -/
def blockSize : Nat → Nat → Float → Nat × Float
  | 0, k, pi => (k, pi)
  | fuel + 1, k, pi => if 0.5 < pi then blockSize fuel (k + 1) (pi * pi) else (k, pi)

/-- A place in a block of failures, with the fraction that decides about it. -/
def drawPlace (k : Nat) : Draw (Nat × Float) := do
  let w ← Draw.word64
  pure (w.toNat % Nat.pow 2 k, ← Draw.unit)

theorem shrinks_drawPlace (k : Nat) : Draw.Shrinks (drawPlace k) :=
  Draw.shrinks_word64.bind fun _ => Draw.shrinks_unit.keeps.bind fun _ => Draw.keeps_pure _

/--
The failures before the first success. For a small probability they are drawn in blocks of a
power of two: whole blocks first, then the place in the last one.
-/
def drawFailures (p : Float) : Draw Nat :=
  if p == 0.0 then pure (UInt64.size - 1)
  else if 2.0 / 3.0 ≤ p then countWhile fun u => p < u
  else do
    let q := 1.0 - p
    let (k, pi) := blockSize 64 1 (q * q)
    let blocks ← countWhile fun u => u < pi
    let (place, _) ← Draw.repeatUntil (drawPlace k) (shrinks_drawPlace k)
      fun (place, u) => u < power q place
    pure (blocks * Nat.pow 2 k + place)

/-- The trials up to the first success, as far as 64 bits can count. -/
def drawGeometric (p : Float) : Draw Nat := do
  pure (min (UInt64.size - 1) ((← drawFailures p) + 1))

def drawTriangular (left mode right : Float) : Draw Float := do
  let f ← Draw.unit
  let width := right - left
  let toMode := mode - left
  let r := f * width
  pure (if r < toMode then left + Float.sqrt (r * toMode)
    else right - Float.sqrt ((width - r) * (right - mode)))

def drawNormal (mean deviation : Float) : Draw Float := do
  pure (mean + deviation * (← standardNormal))

/-- A waiting time with mean one. -/
def standardExponential : Draw Float := do
  pure (0.0 - Float.log (1.0 - (← Draw.unit)))

/-- One attempt at a gamma variate of a shape of at least one, by a cubed normal variate. -/
def gammaAttempt (d c : Float) : Draw (Option Float) := do
  let x ← standardNormal
  let u ← Draw.unit
  let v := 1.0 + c * x
  let v3 := v * v * v
  pure (if 0.0 < v ∧ Float.log (1.0 - u) < x * x / 2.0 + d - d * v3 + d * Float.log v3 then
    some (d * v3) else none)

theorem shrinks_gammaAttempt (d c : Float) : Draw.Shrinks (gammaAttempt d c) :=
  shrinks_standardNormal.bind fun _ => Draw.shrinks_unit.keeps.bind fun _ => Draw.keeps_pure _

def drawLargeGamma (shape : Float) : Draw Float :=
  let d := shape - 1.0 / 3.0
  let c := 1.0 / Float.sqrt (9.0 * d)
  Draw.repeatSome (gammaAttempt d c) (shrinks_gammaAttempt d c)

/-- A gamma variate; a shape below one is reached from the shape one larger. -/
def standardGamma (shape : Float) : Draw Float :=
  if 1.0 ≤ shape then drawLargeGamma shape
  else do
    let x ← drawLargeGamma (shape + 1.0)
    let u ← openUnit
    pure (x * Float.pow u (1.0 / shape))

def drawBeta (a b : Float) : Draw Float := do
  let x ← standardGamma a
  let y ← standardGamma b
  pure (if 0.0 < x + y then x / (x + y) else 0.0)

/-- A value drawn from a distribution; what is not finite becomes null. -/
def sample : Distribution → Draw Json
  | .binomial trials p => do pure (Json.ofNat (← drawBinomial trials p))
  | .normal mean deviation => do pure (Json.ofFloat (← drawNormal mean deviation))
  | .uniform low high => do pure (Json.ofFloat (← drawUniform low high))
  | .poisson rate => do pure (Json.ofNat (← drawPoisson rate))
  | .exponential scale => do
    pure (Json.ofFloat ((← standardExponential) * (1.0 / (1.0 / scale))))
  | .gamma shape scale => do pure (Json.ofFloat ((← standardGamma shape) * scale))
  | .beta a b => do pure (Json.ofFloat (← drawBeta a b))
  | .lognormal mean deviation => do pure (Json.ofFloat (Float.exp (← drawNormal mean deviation)))
  | .geometric p => do pure (Json.ofNat (← drawGeometric p))
  | .triangular left mode right => do pure (Json.ofFloat (← drawTriangular left mode right))
  | .integers low high => do pure (.int (low + (← Draw.fairBelow64 (high - low).toNat)))

end Distribution

/-- Draws a value of a named distribution. -/
def sampleCall (name : String) (args : List Json) : Draw (Except Error Json) :=
  match Distribution.ofCall name args with
  | .error e => pure (.error e)
  | .ok d => do pure (.ok (← d.sample))

end Specimen.Provider
