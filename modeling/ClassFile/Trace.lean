/-
# Traces

A trace is a text that shows events, one line or a few for each.  Classes with the same events
have the same trace, so traces are a way to compare classes.  Labels are numbered in each method
in the order in which they are first mentioned, so a trace does not depend on what labels are
called.
-/
import ClassFile.ClassEvent
import Std.Data.HashMap.Basic

namespace ClassFile.Trace

open Text

/-! ## 1. Annotations -/

/-- A line of text behind a number of steps of indentation. -/
def indented (depth : Nat) (line : String) : String :=
  String.ofList (List.replicate (2 * depth) ' ') ++ line

/-- A value behind its name, if it has one. -/
def named (name : Option String) (value : String) : String :=
  match name with
  | some name => name ++ " = " ++ value
  | none => value

/-- The line of an event in an annotation at a depth, and the depth behind it. -/
def annotationLine (depth : Nat) : AnnotationEvent → Option String × Nat
  | .value name value => (some (indented depth (named name value.text)), depth)
  | .enumConstant name descriptor value =>
    (some (indented depth (named name (descriptor ++ "." ++ value))), depth)
  | .beginNested name descriptor =>
    (some (indented depth (named name ("@" ++ descriptor))), depth + 1)
  | .beginArray name => (some (indented depth (named name "[")), depth + 1)
  | .finish => (none, depth - 1)

/-- The lines of the events of an annotation whose values stand at a depth. -/
def annotationLines : Nat → List AnnotationEvent → List String
  | _, [] => []
  | depth, e :: es =>
    let (line, depth) := annotationLine depth e
    line.toList ++ annotationLines depth es

/-- The lines of an annotation of a declaration at a depth, behind some words. -/
def annotatedLines (depth : Nat) (words : String) (a : AnnotationInfo) : List String :=
  indented depth (words ++ "@" ++ a.descriptor ++ if a.visible then "" else " (invisible)") ::
    annotationLines (depth + 1) a.values

/-! ## 2. Labels -/

/-- The labels of a method that have been mentioned, in the order of their numbers. -/
structure Labels where
  mentioned : Std.HashMap Label Nat

/-- The name of a label, which gets the next number when it was not mentioned before. -/
def labelName (l : Label) : StateM Labels String := do
  let labels := (← get).mentioned
  match labels[l]? with
  | some n => return "L" ++ toString n
  | none =>
    let n := labels.size
    modify fun s => ⟨s.mentioned.insert l n⟩
    return "L" ++ toString n

/-- The names of several labels, with commas between them. -/
def labelNames (ls : List Label) : StateM Labels String := do
  return commaSeparated (← ls.mapM labelName)

/-! ## 3. Methods -/

/-- A word in base sixteen, with four digits, lower case. -/
def hexWord (w : UInt16) : String :=
  let digits := hexDigits w.toNat
  "0x" ++ String.ofList (List.replicate (4 - digits.length) '0' ++ digits)

/-- The text of an instruction. -/
def instruction (i : Instruction Label) : StateM Labels String := do
  match i with
  | .simple op => return op.mnemonic
  | .int op operand => return op.mnemonic ++ " " ++ toString operand.toInt
  | .var op index => return op.mnemonic ++ " " ++ toString index.toNat
  | .type op name => return op.mnemonic ++ " " ++ name
  | .field op owner name descriptor =>
    return op.mnemonic ++ " " ++ owner ++ "." ++ name ++ " " ++ descriptor
  | .method op owner name descriptor interface =>
    return op.mnemonic ++ " " ++ owner ++ "." ++ name ++ descriptor ++
      if interface then " (interface)" else ""
  | .invokeDynamic name descriptor bootstrap arguments =>
    return "invokedynamic " ++ name ++ descriptor ++ " " ++ bootstrap.kind.text ++ " " ++
      bootstrap.owner ++ "." ++ bootstrap.name ++ bootstrap.descriptor ++ " " ++
      bracketed (Loadable.texts arguments)
  | .jump op target => return op.mnemonic ++ " " ++ (← labelName target)
  | .constant value => return "ldc " ++ value.text
  | .increment index amount =>
    return "iinc " ++ toString index.toNat ++ " " ++ toString amount.toInt
  | .tableSwitch low high default targets =>
    let default ← labelName default
    let targets ← labelNames targets
    return "tableswitch " ++ toString low.toInt ++ ".." ++ toString high.toInt ++ " [" ++ targets ++
      "] default " ++ default
  | .lookupSwitch default keys targets =>
    let default ← labelName default
    let pairs ← (keys.zip targets).mapM fun (key, target) => do
      return toString key.toInt ++ ": " ++ (← labelName target)
    return "lookupswitch " ++ bracketed pairs ++ " default " ++ default
  | .multiArray descriptor dimensions =>
    return "multianewarray " ++ descriptor ++ " " ++ toString dimensions.toNat

/-- The lines of an event in a method. -/
def methodLines (e : MethodEvent) : StateM Labels (List String) := do
  match e with
  | .default values => return indented 2 "default" :: annotationLines 3 values
  | .annotated a => return annotatedLines 2 "" a
  | .parameterAnnotated parameter a =>
    return annotatedLines 2 ("parameter " ++ toString parameter.toNat ++ " ") a
  | .code => return [indented 2 "code"]
  | .handler start stop handler caught =>
    return [indented 2 ("try " ++ (← labelNames [start, stop, handler]) ++ " catch " ++
      caught.getD "*")]
  | .instruction i => return [indented 2 (← instruction i)]
  | .label l => return ["   " ++ (← labelName l) ++ ":"]
  | .line number start =>
    return [indented 2 ("line " ++ toString number.toNat ++ " " ++ (← labelName start))]
  | .localVariable name descriptor start stop index =>
    return [indented 2 ("local " ++ name ++ " " ++ descriptor ++ " " ++
      (← labelNames [start, stop]) ++ " slot " ++ toString index.toNat)]
  | .sizes stack locals =>
    return [indented 2 ("maxs stack " ++ toString stack.toNat ++ " locals " ++
      toString locals.toNat)]
  | .finish => return []

/-- The lines of the events of a method. -/
def allMethodLines (events : List MethodEvent) : List String :=
  let lines : StateM Labels (Array String) :=
    events.foldlM (fun done e => do return done ++ (← methodLines e)) #[]
  (lines.run ⟨∅⟩).1.toList

/-! ## 4. Classes -/

/-- The line of something that may be absent. -/
def optional (words : String) : Option String → List String
  | some s => [words ++ s]
  | none => []

/-- The line of a list that may be empty. -/
def nonempty (words : String) (items : List String) : List String :=
  if items.isEmpty then [] else [words ++ commaSeparated items]

/-- The line of something that is marked as deprecated. -/
def deprecation (depth : Nat) (deprecated : Bool) : List String :=
  if deprecated then [indented depth "deprecated"] else []

/-- The lines of an event in a field. -/
def fieldLines : FieldEvent → List String
  | .annotated a => annotatedLines 2 "" a
  | .finish => []

/-- The lines of an event in a class. -/
def classLines : ClassEvent → List String
  | .header version access name info =>
    ("class " ++ name ++ " version " ++ toString version.major.toNat ++ "." ++
        toString version.minor.toNat ++ " access " ++ hexWord access) ::
      optional "  extends " info.superclass ++ nonempty "  implements " info.interfaces ++
      optional "  signature " info.signature ++ optional "  source " info.sourceFile ++
      optional "  nest host " info.nestHost ++ nonempty "  nest members " info.nestMembers ++
      deprecation 1 info.deprecated
  | .annotated a => annotatedLines 1 "" a
  | .innerClass c =>
    [indented 1 ("inner class " ++ c.name ++ " outer " ++ c.outer.getD "-" ++ " name " ++
      c.innerName.getD "-" ++ " access " ++ hexWord c.access)]
  | .field info events =>
    indented 1 ("field " ++ info.name ++ " " ++ info.descriptor ++ " access " ++
        hexWord info.access ++ ((info.value.map fun v => " = " ++ v.text).getD "")) ::
      optional "    signature " info.signature ++ deprecation 2 info.deprecated ++
      events.flatMap fieldLines
  | .method info events =>
    indented 1 ("method " ++ info.name ++ info.descriptor ++ " access " ++ hexWord info.access) ::
      nonempty "    throws " info.exceptions ++ optional "    signature " info.signature ++
      deprecation 2 info.deprecated ++ allMethodLines events
  | .finish => ["end"]

/-- The lines of the events of a class. -/
def lines (events : Array ClassEvent) : Array String :=
  events.foldl (fun done e => done ++ classLines e) #[]

/-- The lines as one text, each with its end. -/
def text (lines : Array String) : String := lines.foldl (fun s line => s ++ line ++ "\n") ""

end ClassFile.Trace
