/-
# Arguments of the command line

The arguments say which class to transform and how.  They are looked at one after the other, and the
first one that is wrong, or that asks for help or for the version, decides.

An option is written `--name VALUE` or `--name=VALUE`, or with one letter `-x VALUE`, `-xVALUE` or
`-x=VALUE`.  A value does not start with a hyphen unless it is attached or is only a hyphen.
Everything behind `--` names an input.
-/
import ClassFile.BlockGraph.Basic

namespace ClassFile.CommandLine

/-! ## 1. What can be asked for -/

/-- A class to transform. -/
structure Request where
  input : String
  /-- The input is overwritten if there is no other place. -/
  output : Option String
  mode : ComputeMode
  /-- Print the trace of the input? -/
  trace : Bool

/-- What a command line asks for. -/
inductive Command where
  | transform (request : Request)
  | help
  | version

/-- What can be wrong with a command line. -/
inductive UsageError where
  | unexpectedArgument (argument : String)
  /-- An option has no value. -/
  | missingValue (option : String)
  /-- An option without a value has one. -/
  | unexpectedValue (option value : String)
  | invalidValue (option value : String)
  | repeated (option : String)
  | missingInput
  deriving DecidableEq, Repr

/-- An error of usage in words. -/
def UsageError.message : UsageError → String
  | unexpectedArgument argument => "unexpected argument '" ++ argument ++ "' found"
  | missingValue option => "a value is required for '" ++ option ++ "' but none was supplied"
  | unexpectedValue option value =>
    "unexpected value '" ++ value ++ "' for '" ++ option ++ "' found; no more were expected"
  | invalidValue option value => "invalid value '" ++ value ++ "' for '" ++ option ++ "'"
  | repeated option => "the argument '" ++ option ++ "' cannot be used multiple times"
  | missingInput => "the following required arguments were not provided: <INPUT>"

/-! ## 2. Words -/

/-- The options. -/
inductive Flag where
  | output
  | compute
  | trace
  | help
  | version
  deriving DecidableEq, Repr

namespace Flag

/-- An option as it is shown. -/
def text : Flag → String
  | output => "--output <FILE>"
  | compute => "--compute <MODE>"
  | trace => "--trace"
  | help => "--help"
  | version => "--version"

/-- The option of a name. -/
def ofName? : String → Option Flag
  | "output" => some output
  | "compute" => some compute
  | "trace" => some trace
  | "help" => some help
  | "version" => some version
  | _ => none

/-- The option of a letter. -/
def ofLetter? : Char → Option Flag
  | 'o' => some output
  | 'h' => some help
  | 'V' => some version
  | _ => none

end Flag

/-- An argument by its form. -/
inductive Word where
  /-- An input or a value. -/
  | plain (text : String)
  /-- What separates options from inputs. -/
  | separator
  /-- An option, if it is known, with the value that is attached to it. -/
  | option (flag : Option Flag) (value : Option String)

/-- The value that is attached to an option: what follows it, without an equals sign. -/
def attached : List Char → Option String
  | [] => none
  | '=' :: rest => some (String.ofList rest)
  | rest => some (String.ofList rest)

/-- The form of an argument.  Letters of options without a value can stand together, but each of
them ends the reading, so the first one decides. -/
def Word.ofText (text : String) : Word :=
  match text.toList with
  | ['-', '-'] => .separator
  | '-' :: '-' :: rest =>
    let name := rest.takeWhile (· ≠ '=')
    .option (Flag.ofName? (String.ofList name)) (attached (rest.drop name.length))
  | '-' :: letter :: rest =>
    .option (Flag.ofLetter? letter) (if letter = 'o' then attached rest else none)
  | _ => .plain text

/-! ## 3. Reading the arguments -/

/-- What was given so far. -/
structure Given where
  input : Option String
  output : Option String
  mode : Option ComputeMode
  trace : Bool

namespace Given

/-- Nothing. -/
def nothing : Given := ⟨none, none, none, false⟩

/-- An input, of which there is one. -/
def withInput (g : Given) (text : String) : Except UsageError Given :=
  if g.input.isSome then .error (.unexpectedArgument text) else .ok { g with input := some text }

/-- The place to write to. -/
def withOutput (g : Given) (value : String) : Except UsageError Given :=
  if g.output.isSome then .error (.repeated Flag.output.text)
  else .ok { g with output := some value }

/-- What to compute. -/
def withMode (g : Given) (value : String) : Except UsageError Given :=
  let mode (m : ComputeMode) : Except UsageError Given :=
    if g.mode.isSome then .error (.repeated Flag.compute.text) else .ok { g with mode := some m }
  match value with
  | "maxs" => mode .maxStack
  | "frames" => mode .frames
  | _ => .error (.invalidValue Flag.compute.text value)

/-- The trace. -/
def withTrace (g : Given) : Except UsageError Given :=
  if g.trace then .error (.repeated Flag.trace.text) else .ok { g with trace := true }

/-- What is asked for.  Frames are computed if nothing else was given. -/
def command (g : Given) : Except UsageError Command :=
  match g.input with
  | some input => .ok (.transform ⟨input, g.output, g.mode.getD .frames, g.trace⟩)
  | none => .error .missingInput

end Given

/-- What an option does: it ends the reading, or it changes what was given, with or without a
value. -/
inductive Effect where
  | stop (c : Command)
  | change (f : Given → Except UsageError Given)
  | changeWith (f : Given → String → Except UsageError Given)

/-- The effect of an option. -/
def Flag.effect : Flag → Effect
  | output => .changeWith Given.withOutput
  | compute => .changeWith Given.withMode
  | trace => .change Given.withTrace
  | help => .stop .help
  | version => .stop .version

/-- Reads the arguments that are left. -/
def readArguments (g : Given) : List String → Except UsageError Command
  | [] => g.command
  | argument :: rest =>
    match Word.ofText argument with
    | .plain text => do readArguments (← g.withInput text) rest
    | .separator => do (← rest.foldlM Given.withInput g).command
    | .option none _ => .error (.unexpectedArgument argument)
    | .option (some flag) value =>
      match flag.effect, value with
      | .stop c, none => .ok c
      | .change f, none => do readArguments (← f g) rest
      | .changeWith f, some value => do readArguments (← f g value) rest
      | .changeWith f, none =>
        match rest with
        | [] => .error (.missingValue flag.text)
        | next :: rest =>
          match Word.ofText next with
          | .plain value => do readArguments (← f g value) rest
          | _ => .error (.missingValue flag.text)
      | _, some value => .error (.unexpectedValue flag.text value)

end ClassFile.CommandLine
