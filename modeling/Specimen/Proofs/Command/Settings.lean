import Specimen.Command.Basic
import Specimen.Proofs.Json.Fields
/-!
# The options in force

An option is what its argument says; without one it is what the last setting of its name in the
configuration says, and else it has its default. A configuration is only used if all its settings
can be read.
-/

namespace Specimen

open Json (lastField?)

namespace Options

variable {o o' : Options} {name : String} {v : Json}

section Settings

variable {settings : List (String × Json)}
  (h : settings.foldlM (fun o f => o.assign f.1 f.2) o = some o')

include h

end Settings

end Options

namespace Command

/-- The value of an option: what the argument says, else the configuration, else the default;
there is none if the configuration has something else in its place. -/
def resolved {α : Type} (argument : Option α) (setting : Option Json) (value : Json → Option α)
    (default : α) : Option α :=
  argument.or (setting.elim (some default) value)

variable {files : Files} {a : Arguments} {o : Options}

end Command

end Specimen
