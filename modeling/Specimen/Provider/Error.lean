import Specimen.Decimal.Integer
import Specimen.Decimal.Shortest
import Specimen.Json.Basic
/-!
# Calls of data providers

A provider is called by the name of a method with a list of arguments. This module holds the ways
in which a call fails, and the readers of numeric arguments.
-/

namespace Specimen.Provider

/-- What is wrong with the parameters of a distribution. -/
inductive DistributionFault where
  | negativeTrials
  | probabilityBelowZero
  | probabilityAboveOne
  | emptyRange
  | infiniteRange
  | rateNotPositive
  | rateTooLarge
  | negativeRate
  | gammaShape
  | gammaScale
  | betaAlpha
  | betaBeta
  | notProbability
  | invertedRange
  | modeOutside
  deriving DecidableEq, Repr

def DistributionFault.message : DistributionFault → String
  | negativeTrials => "number too small to fit in target type"
  | probabilityBelowZero => "p < 0 or is NaN in binomial distribution"
  | probabilityAboveOne => "p > 1 in binomial distribution"
  | emptyRange => "low > high (or equal if exclusive) in uniform distribution"
  | infiniteRange => "Non-finite range in uniform distribution"
  | rateNotPositive => "lambda is not positive in Poisson distribution"
  | rateTooLarge => "lambda is too large in Poisson distribution, see Poisson::MAX_LAMBDA"
  | negativeRate => "lambda is negative or NaN in exponential distribution"
  | gammaShape => "shape is not positive in gamma distribution"
  | gammaScale => "scale is not positive in gamma distribution"
  | betaAlpha => "alpha is not positive in beta distribution"
  | betaBeta => "beta is not positive in beta distribution"
  | notProbability => "p is NaN or outside the interval [0, 1] in geometric distribution"
  | invertedRange => "requirement min <= max is not met in triangular distribution"
  | modeOutside => "mode is outside [min, max] in triangular distribution"

/-- What is wrong with the arguments of a call. -/
inductive ArgumentFault where
  | notNumber (index : Nat)
  | notInteger (index : Nat)
  | missing (index : Nat)
  | negativeCount (index : Nat)
  | negativeSpread (field : String) (value : Float)
  | distribution (f : DistributionFault)

def ArgumentFault.message : ArgumentFault → String
  | notNumber index => s!"argument {index} must be a number"
  | notInteger index => s!"argument {index} must be an integer"
  | missing index => s!"missing argument {index}"
  | negativeCount index => s!"argument {index} must not be negative"
  | negativeSpread field value =>
    field ++ " must be non-negative, got " ++ Decimal.messageText value
  | distribution f => f.message

/-- Why a call fails. -/
inductive Error where
  | unavailable (reason : String)
  | unknownMethod (method : String)
  | invalidArguments (method : String) (fault : ArgumentFault)

def Error.message : Error → String
  | unavailable reason => s!"provider unavailable: {reason}"
  | unknownMethod method => s!"unknown method '{method}'"
  | invalidArguments method fault => s!"invalid arguments for '{method}': " ++ fault.message

/-! ## Arguments -/

/-- The nearest integer of the signed 64-bit range. -/
def clamp64 (n : Int) : Int := max (-int64Limit) (min n (int64Limit - 1))

/--
An integer argument: an integer of the signed 64-bit range as it is; any other number goes
through a float, which must have no fraction, and is clamped to that range.
-/
def integer? (v : Json) : Option Int :=
  match v.int64? with
  | some n => some n
  | none => (v.float?.bind Decimal.integerOf?).map clamp64

/-- A numeric argument; one that is absent has its default, if it has one. -/
def number (args : List Json) (index : Nat) (default : Option Float) :
    Except ArgumentFault Float :=
  match args[index]?, default with
  | some v, _ =>
    match v.float? with
    | some x => .ok x
    | none => .error (.notNumber index)
  | none, some x => .ok x
  | none, none => .error (.missing index)

/-- An integer argument; one that is absent has its default, if it has one. -/
def integer (args : List Json) (index : Nat) (default : Option Int) : Except ArgumentFault Int :=
  match args[index]?, default with
  | some v, _ =>
    match integer? v with
    | some n => .ok n
    | none => .error (.notInteger index)
  | none, some n => .ok n
  | none, none => .error (.missing index)

/-- The first argument as a count, which must not be negative. -/
def count (args : List Json) (default : Nat) : Except ArgumentFault Nat := do
  let n ← integer args 0 (some default)
  if n < 0 then .error (.negativeCount 0) else .ok n.toNat

end Specimen.Provider
