/-
# The command line program

The program reads a class, writes it again with the sizes of its frames, and its stack map frames
if asked for, computed anew, and keeps the constant pool.  It can print the trace of the input.

The files are reached through `Files`.
-/
import ClassFile.CommandLine.Arguments
import ClassFile.CommandLine.Files
import ClassFile.Transform
import ClassFile.Trace

namespace ClassFile.CommandLine

/-! ## 1. Outcomes -/

/-- Why the program fails. -/
inductive Failure where
  | file (e : FileError)
  | classFile (e : Error)

/-- A failure with its parts. -/
def Failure.text : Failure → String
  | file e => e.text
  | classFile e => e.text

/-- How the program ends. -/
structure Outcome where
  code : UInt32
  output : String
  errors : String

/-! ## 2. Texts -/

/-- The name of the program and its version. -/
def versionText : String := "classweave 0.1.0\n"

/-- How to call the program. -/
def usageText : String := "Usage: classweave [OPTIONS] <INPUT>\n"

/-- What the program does and how to call it. -/
def helpText : String :=
  "Read a JVM class file and write it back out with recomputed stack sizes and frames\n\n" ++
  usageText ++
  "\nArguments:\n" ++
  "  <INPUT>  Sets the input class file to use\n" ++
  "\nOptions:\n" ++
  "  -o, --output <FILE>   Where to write the rewritten class " ++
  "(defaults to overwriting the input)\n" ++
  "      --compute <MODE>  Recompute only `max_stack`/`max_locals`, or the `StackMapTable` too " ++
  "[default: frames] [possible values: maxs, frames]\n" ++
  "      --trace           Print the events read from the input class\n" ++
  "  -h, --help            Print help\n" ++
  "  -V, --version         Print version\n"

/-! ## 3. The program -/

/-- What is printed of a class, and its transformed form.  If the trace cannot be made, nothing is
printed. -/
def processClass (r : Request) (input : Bytes) : String × Except Error Bytes :=
  match ClassBytes.ofBytes input with
  | .error e => ("", .error e)
  | .ok source =>
    let transformed : Except Error Bytes := do
      let options : WriterOptions := ⟨r.mode, .empty⟩
      return (← source.transformed options true .id).1
    if r.trace then
      match (source.events .all).all with
      | (.ok (), events) => (Trace.text (Trace.lines events), transformed)
      | (.error e, _) => ("", .error e)
    else ("", transformed)

/-- The program on a request: what it prints, and whether it fails. -/
def runRequest {m : Type → Type} [Monad m] (files : Files m) (r : Request) :
    m (String × Except Failure Unit) := do
  match ← files.read r.input with
  | .error e => return ("", .error (.file e))
  | .ok input =>
    match processClass r input with
    | (output, .error e) => return (output, .error (.classFile e))
    | (output, .ok transformed) =>
      match ← files.write (r.output.getD r.input) transformed with
      | .error e => return (output, .error (.file e))
      | .ok () => return (output, .ok ())

/-- The program on arguments.  It ends with 0, with 1 if it fails, and with 2 if the arguments are
wrong. -/
def run {m : Type → Type} [Monad m] (files : Files m) (arguments : List String) : m Outcome := do
  match readArguments .nothing arguments with
  | .error e => return ⟨2, "", "error: " ++ e.message ++ "\n\n" ++ usageText⟩
  | .ok .help => return ⟨0, helpText, ""⟩
  | .ok .version => return ⟨0, versionText, ""⟩
  | .ok (.transform request) =>
    match ← runRequest files request with
    | (output, .ok ()) => return ⟨0, output, ""⟩
    | (output, .error e) => return ⟨1, output, "Error: " ++ e.text ++ "\n"⟩

end ClassFile.CommandLine
