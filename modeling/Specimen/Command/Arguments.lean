/-!
# Arguments of the command line

The command takes the path of one document and some options. An option with a value has it
behind an equals sign or as the next argument, which must not begin with a hyphen then;
two hyphens alone end the options. `Arguments.read` reads them from left to right, and a
call for help ends it at once.
-/

namespace Specimen.Command

structure Arguments where
  /-- The path of the document. -/
  document : String
  /-- How many values are generated. -/
  times : Nat := 1
  /-- Whether a value is printed on one line. -/
  isCompact : Bool := false
  /-- The path of the configuration. -/
  config : Option String := none
  maxDepth : Option Nat := none
  maxSize : Option Nat := none
  locales : List String := []
  seed : Option Nat := none
  deriving DecidableEq, Repr

/-- An option with a value. -/
inductive Setting where
  | times
  | config
  | maxDepth
  | maxSize
  | locale
  | seed
  deriving DecidableEq, Repr

/-- An option without a value. -/
inductive Flag where
  | compact
  | logJson
  | help
  | version
  deriving DecidableEq, Repr

/-- What the arguments ask for. -/
inductive Request where
  | generate (a : Arguments)
  | help
  | version
  /-- The arguments make no sense. -/
  | refused
  deriving DecidableEq, Repr

def Setting.ofName? : String → Option Setting
  | "repeat" => some .times
  | "config" => some .config
  | "max-depth" => some .maxDepth
  | "max-size" => some .maxSize
  | "locale" => some .locale
  | "seed" => some .seed
  | _ => none

def Flag.ofName? : String → Option Flag
  | "compact" => some .compact
  | "log-json" => some .logJson
  | "help" => some .help
  | "version" => some .version
  | _ => none

/-- An unsigned number of 64 bits, with a plus sign or without. -/
def number? (s : String) : Option Nat :=
  let digits := match s.toList with
    | '+' :: cs => cs
    | cs => cs
  let n := digits.foldl (fun n c => n * 10 + (c.toNat - '0'.toNat)) 0
  if !digits.isEmpty && digits.all Char.isDigit && n < UInt64.size then some n else none

/-- A path, which is not empty. -/
def path? (s : String) : Option String := if s.isEmpty then none else some s

/-- What has been read so far. -/
structure Draft where
  document : Option String := none
  settings : List (Setting × String) := []
  flags : List Flag := []

namespace Draft

/-- Whether a value is good for a setting. -/
def suits (s : Setting) (value : String) : Bool :=
  match s with
  | .times | .maxDepth | .maxSize | .seed => (number? value).isSome
  | .config => (path? value).isSome
  | .locale => true

/-- The draft with a setting; only locales may be given again. -/
def set (d : Draft) (s : Setting) (value : String) : Option Draft :=
  if !suits s value || (s ≠ .locale && (d.settings.lookup s).isSome) then none
  else some { d with settings := d.settings ++ [(s, value)] }

/-- The draft with a flag, which may be given once. -/
def raise (d : Draft) (f : Flag) : Option Draft :=
  if d.flags.contains f then none else some { d with flags := f :: d.flags }

/-- The draft with the document, which may be given once. -/
def open? (d : Draft) (path : String) : Option Draft :=
  if d.document.isSome then none else (path? path).map fun p => { d with document := some p }

def number (d : Draft) (s : Setting) : Option Nat := (d.settings.lookup s).bind number?

/-- The request of a complete draft. -/
def finish (d : Draft) : Request :=
  match d.document with
  | none => .refused
  | some document =>
    .generate
      { document
        times := (d.number .times).getD 1
        isCompact := d.flags.contains .compact
        config := d.settings.lookup .config
        maxDepth := d.number .maxDepth
        maxSize := d.number .maxSize
        locales := (d.settings.filter (·.1 = .locale)).map (·.2)
        seed := d.number .seed }

end Draft

/-- What one argument is. -/
inductive Argument where
  | operand (text : String)
  | flag (f : Flag)
  | setting (s : Setting) (value : Option String)
  /-- Two hyphens. -/
  | separator
  | unknown

/-- An argument that begins with two hyphens. -/
def longArgument (cs : List Char) : Argument :=
  let name := String.ofList (cs.takeWhile (· ≠ '='))
  match cs.dropWhile (· ≠ '='), Setting.ofName? name, Flag.ofName? name with
  | _ :: value, some s, _ => .setting s (some (String.ofList value))
  | [], some s, _ => .setting s none
  | [], none, some f => .flag f
  | _, _, _ => .unknown

/-- An argument that begins with one hyphen. -/
def shortArgument : List Char → Argument
  | ['n'] => .setting .times none
  | 'n' :: '=' :: value => .setting .times (some (String.ofList value))
  | 'n' :: value => .setting .times (some (String.ofList value))
  | 'h' :: _ => .flag .help
  | 'V' :: _ => .flag .version
  | _ => .unknown

def Argument.ofText (s : String) : Argument :=
  match s.toList with
  | ['-', '-'] => .separator
  | '-' :: '-' :: cs => longArgument cs
  | '-' :: c :: cs => shortArgument (c :: cs)
  | _ => .operand s

/-- Reads the arguments behind two hyphens. -/
def readOperands : Draft → List String → Request
  | d, [] => d.finish
  | d, arg :: rest =>
    match d.open? arg with
    | some d => readOperands d rest
    | none => .refused

/-- Reads arguments; after a setting whose value is still to come, `awaited` is that setting. -/
def readFrom (awaited : Option Setting) : Draft → List String → Request
  | d, [] => if awaited.isSome then .refused else d.finish
  | d, arg :: rest =>
    match awaited, Argument.ofText arg with
    | some s, .operand value =>
      match d.set s value with
      | some d => readFrom none d rest
      | none => .refused
    | some _, _ => .refused
    | none, .operand text =>
      match d.open? text with
      | some d => readFrom none d rest
      | none => .refused
    | none, .flag .help => .help
    | none, .flag .version => .version
    | none, .flag f =>
      match d.raise f with
      | some d => readFrom none d rest
      | none => .refused
    | none, .setting s none => readFrom (some s) d rest
    | none, .setting s (some value) =>
      match d.set s value with
      | some d => readFrom none d rest
      | none => .refused
    | none, .separator => readOperands d rest
    | none, .unknown => .refused

/-- What the arguments ask for. -/
def Arguments.read (args : List String) : Request := readFrom none {} args

end Specimen.Command
