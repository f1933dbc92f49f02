import Specimen.Command.Arguments
import Specimen.Document
import Specimen.Generator
import Specimen.Toml.Reader
/-!
# The command

The command reads the configuration, then the document, and prints the values of one generator,
each with an empty line behind it. It prints nothing if one of the two cannot be used. What
provides data for the locales in force is up to whoever runs it.
-/

namespace Specimen.Command

/-- Files by their paths: the bytes of those that can be read. -/
abbrev Files := String → Option ByteArray

/-- Why the command fails. -/
inductive Error where
  | config (path : String)
  | document (cause : Document.Error)
  deriving DecidableEq, Repr

def Error.message : Error → String
  | config path => "invalid config " ++ path
  | document cause => "generation error: " ++ cause.message

/-! ## Options -/

/-- The options in the table `generator`, from an object or a list. -/
def tableOptions? : Json → Option Options
  | .arr items => Options.ofList? items
  | v => Options.ofJson? v

/-- The options of a configuration, which holds the table `generator` and nothing else. -/
def configOptions? (v : Json) : Option Options :=
  match v with
  | .obj [] => some {}
  | .obj [("generator", table)] => tableOptions? table
  | _ => none

/-- The options in the configuration that the arguments name. -/
def configured (files : Files) (a : Arguments) : Except Error Options :=
  match a.config with
  | none => .ok {}
  | some path =>
    match (((files path).bind String.fromUTF8?).bind Toml.read?).bind configOptions? with
    | some o => .ok o
    | none => .error (.config path)

/-- The options in force: an argument comes before the configuration. -/
def Arguments.override (a : Arguments) (o : Options) : Options where
  maxDepth := a.maxDepth.getD o.maxDepth
  maxSize := a.maxSize <|> o.maxSize
  locales := if a.locales.isEmpty then o.locales else a.locales
  seed := a.seed <|> o.seed

/-! ## Running -/

/-- What is printed for some values. -/
def printed (texts : List String) : String := String.join (texts.map (· ++ "\n\n"))

/-- How the command ends. -/
inductive Ending where
  | success
  | failed (cause : Error)
  /-- The arguments made no sense. -/
  | refused
  /-- A generation did not return. -/
  | stopped
  deriving DecidableEq, Repr

def Ending.code : Ending → Nat
  | success => 0
  | failed _ => 1
  | refused => 2
  | stopped => 101

/-- What is printed for the arguments, and the ending; options without a seed start at `seed`. -/
def generate (provide : List String → Providers) (files : Files) (seed : Nat) (a : Arguments) :
    Except Error (String × Ending) := do
  let o := a.override (← configured files a)
  match Document.read a.document (files a.document) with
  | .error e => .error (.document e)
  | .ok spec =>
    let g := Generator.ofJson (provide o.locales) spec o seed
    let (texts, after) := Generator.generateTexts (!a.isCompact) a.times g
    .ok (printed texts, if after.isSome then .success else .stopped)

def usage : String :=
  "Usage: specimen [OPTIONS] <SPEC>\n\n" ++
  "Generates random JSON values from the description in the file SPEC.\n\n" ++
  "  -n, --repeat <N>       how many values (1)\n" ++
  "      --compact          each value on a single line\n" ++
  "      --config <PATH>    a TOML file with a table of options, named generator\n" ++
  "      --max-depth <N>    the depth at which nodes become null (20)\n" ++
  "      --max-size <N>     how many nodes are queued for one value\n" ++
  "      --locale <NAME>    a locale of fake data, such as en_US; may be repeated\n" ++
  "      --seed <N>         where the draws start\n" ++
  "      --log-json         accepted for logs as JSON; there are none\n" ++
  "  -h, --help             this text\n" ++
  "  -V, --version          the version\n"

/-- What the command prints, and how it ends. -/
def run (provide : List String → Providers) (files : Files) (seed : Nat) (args : List String) :
    String × Ending :=
  match Arguments.read args with
  | .refused => ("", .refused)
  | .help => (usage, .success)
  | .version => ("specimen 0.1.0\n", .success)
  | .generate a =>
    match generate provide files seed a with
    | .ok result => result
    | .error e => ("", .failed e)

end Specimen.Command
