import Specimen.Command.Basic
/-!
# The executable

Reads the files that the arguments name and runs the command on them.
-/

open Specimen Command

/-- The bytes of a file, if it can be read. -/
def readFile? (path : String) : IO (Option ByteArray) := do
  try
    pure (some (← IO.FS.readBinFile path))
  catch _ => pure none

/-- The contents of some files. -/
def readFiles (paths : List String) : IO Files := do
  let contents ← paths.mapM fun path => do pure (path, ← readFile? path)
  pure fun path => (contents.lookup path).join

/-- A seed from the randomness of the machine. -/
def freshSeed : IO Nat := do
  let bytes ← IO.getRandomBytes 8
  pure (bytes.toList.foldl (fun n b => n * 256 + b.toNat) 0)

def main (args : List String) : IO UInt32 := do
  let paths := match Arguments.read args with
    | .generate a => a.config.toList ++ [a.document]
    | _ => []
  let files ← readFiles paths
  let (output, ending) := Command.run Providers.ofLocales files (← freshSeed) args
  IO.print output
  match ending with
  | .success => pure ()
  | .failed e => IO.eprintln ("Error: " ++ e.message)
  | .refused => IO.eprint usage
  | .stopped => IO.eprintln "Error: a generation did not return"
  pure (UInt32.ofNat ending.code)
