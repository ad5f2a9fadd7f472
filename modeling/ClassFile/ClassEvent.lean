/-
# Classes as events

A class is a sequence of events: its header, its annotations, its inner classes, its fields and
methods, and its end.  A field or a method carries the events of what is in it.  Readers of class
files produce these events; writers, traces and transforms consume them.

The events of a method come in this order: the default value if it has one, annotations,
annotations of parameters; then, if it has code, `code`, handlers, instructions with labels and
lines between them, local variables, the sizes of its frame; and `finish`.  What does not end
with `finish` is unfinished.
-/
import ClassFile.Annotation.Event
import ClassFile.Instruction
import ClassFile.Version

namespace ClassFile

/-- What the header of a class says beside version, access flags and name. -/
structure ClassInfo where
  /-- Absent only for the root of all classes and for modules. -/
  superclass : Option String
  interfaces : List String
  signature : Option String
  sourceFile : Option String
  nestHost : Option String
  nestMembers : List String
  deprecated : Bool
  deriving DecidableEq, Repr

/-- A class that is declared inside of another one. -/
structure InnerClass where
  name : String
  outer : Option String
  innerName : Option String
  access : UInt16
  deriving DecidableEq, Repr

/-- The declaration of a field. -/
structure FieldInfo where
  access : UInt16
  name : String
  descriptor : String
  signature : Option String
  /-- The value that a static field starts with. -/
  value : Option Loadable
  deprecated : Bool
  deriving BEq, Repr

/-- The declaration of a method. -/
structure MethodInfo where
  access : UInt16
  name : String
  descriptor : String
  signature : Option String
  exceptions : List String
  deprecated : Bool
  deriving DecidableEq, Repr

/-- An annotation of a declaration.  It is visible if it can be looked up at run time. -/
structure AnnotationInfo where
  descriptor : String
  visible : Bool
  values : List AnnotationEvent
  deriving BEq, Repr

/-- A step in going through a field. -/
inductive FieldEvent where
  | annotated (a : AnnotationInfo)
  | finish
  deriving BEq, Repr

/-- A step in going through a method. -/
inductive MethodEvent where
  /-- The default value of an element of an annotation type. -/
  | default (values : List AnnotationEvent)
  | annotated (a : AnnotationInfo)
  | parameterAnnotated (parameter : UInt8) (a : AnnotationInfo)
  /-- The beginning of the code. -/
  | code
  /-- What is thrown from `start` up to `stop` is handled at `handler` if its type is the caught
  one; without a type everything is caught. -/
  | handler (start stop handler : Label) (caught : Option String)
  | instruction (i : Instruction Label)
  /-- Places a label at the next instruction or at the end of the code. -/
  | label (l : Label)
  | line (number : UInt16) (start : Label)
  | localVariable (name descriptor : String) (start stop : Label) (index : UInt16)
  /-- The greatest height of the operand stack and the number of local variables. -/
  | sizes (stack locals : UInt16)
  | finish
  deriving BEq, Repr

/-- A step in going through a class. -/
inductive ClassEvent where
  | header (version : Version) (access : UInt16) (name : String) (info : ClassInfo)
  | annotated (a : AnnotationInfo)
  | innerClass (c : InnerClass)
  | field (info : FieldInfo) (events : List FieldEvent)
  | method (info : MethodInfo) (events : List MethodEvent)
  | finish
  deriving BEq, Repr

end ClassFile
