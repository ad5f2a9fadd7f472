/-
# The executable

Connects the command line program to real files and to the streams of the process.
-/
import ClassFile.CommandLine.Program

open ClassFile CommandLine

/-- The number that the system gives to an error, whether it is reported as it is or negated. -/
def systemCode : IO.Error → Nat
  | .noFileOrDirectory _ code _ | .inappropriateType _ code _ | .permissionDenied _ code _
  | .invalidArgument _ code _ | .resourceExhausted _ code _ | .noSuchThing _ code _
  | .alreadyExists _ code _ | .resourceBusy code _ | .unsupportedOperation code _
  | .otherError code _ => code.toInt32.toInt.natAbs
  | _ => 5

/-- The answer of an action on a file. -/
def onFile {α : Type} (act : IO α) : IO (Except FileError α) := do
  match ← act.toBaseIO with
  | .ok answer => return .ok answer
  | .error e => return .error ⟨systemCode e⟩

/-- The files of the system. -/
def systemFiles : Files IO where
  read path := onFile do return (← IO.FS.readBinFile path).data
  write path content := onFile (IO.FS.writeBinFile path ⟨content⟩)

/-- Runs the program. -/
def main (arguments : List String) : IO UInt32 := do
  let outcome ← run systemFiles arguments
  (← IO.getStdout).putStr outcome.output
  (← IO.getStderr).putStr outcome.errors
  return outcome.code
