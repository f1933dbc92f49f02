import Specimen.Provider.Distribution
import Specimen.Provider.Fake
import Specimen.Regex.Acceptance.Checker
/-!
# The data providers

What handlers call from elsewhere. There are two providers of data, each of which may be missing,
and then there is a reason; and there is the check of a text against a pattern. They are
parameters of a generator, and nothing is stated for one choice of them alone;
`Providers.ofLocales` has those of the executable.
-/

namespace Specimen

/-- A provider of data by method name: a call draws, and may fail. -/
abbrev Provider.Call : Type := String → List Json → Draw (Except Provider.Error Json)

/-- The providers at hand, or why one is not. -/
structure Providers where
  distributions : Except String Provider.Call
  fake : Except String Provider.Call
  /-- Whether a whole text is in the language of a pattern, where the pattern can be checked. -/
  check? : String → Option (String → Bool)

namespace Providers

/-- No provider and no check. -/
def absent : Providers where
  distributions := .error "absent"
  fake := .error "absent"
  check? _ := none

/-- The built-in providers; fake data needs locales that are all known. -/
def ofLocales (names : List String) : Providers where
  distributions := .ok Provider.sampleCall
  fake :=
    if names.isEmpty then .error "no fake-data locales configured"
    else
      match Provider.Fake.locales names with
      | .ok ls => .ok (Provider.Fake.call ls)
      | .error e => .error e.message
  check? := Regex.Acceptance.check?

/-- Calls a provider that may be missing. -/
def callWith (p : Except String Provider.Call) (method : String) (args : List Json) :
    Draw (Except Provider.Error Json) :=
  match p with
  | .ok call => call method args
  | .error reason => pure (.error (.unavailable reason))

def callDistribution (p : Providers) : Provider.Call := callWith p.distributions

def callFake (p : Providers) : Provider.Call := callWith p.fake

end Providers

end Specimen
