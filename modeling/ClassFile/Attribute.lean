/-
# Attributes

A class, a field, a method or a piece of code carries attributes: a name and a payload.  An
`Attribute` is the content of one whose form is known; `name` and `payload` say how it is written.
Tables are preceded by the number of their entries.
-/
import ClassFile.StackMap

namespace ClassFile

/-- An entry of the table of inner classes. -/
structure InnerClassEntry where
  inner : ConstantIndex
  /-- Absent for local and anonymous classes. -/
  outer : Option ConstantIndex
  /-- Absent for anonymous classes. -/
  name : Option ConstantIndex
  access : UInt16
  deriving DecidableEq, Repr

/-- An entry of the table of bootstrap methods. -/
structure BootstrapEntry where
  handle : ConstantIndex
  arguments : List ConstantIndex
  deriving DecidableEq, Hashable, Repr

/-- Where the code of a source line starts. -/
structure LineEntry where
  start : UInt16
  line : UInt16
  deriving DecidableEq, Repr

/-- Where a local variable has a name. -/
structure LocalEntry where
  start : UInt16
  length : UInt16
  name : ConstantIndex
  descriptor : ConstantIndex
  index : UInt16
  deriving DecidableEq, Repr

/-- The content of an attribute. -/
inductive Attribute where
  | constantValue (value : ConstantIndex)
  | sourceFile (name : ConstantIndex)
  | signature (text : ConstantIndex)
  | nestHost (host : ConstantIndex)
  | nestMembers (members : List ConstantIndex)
  | exceptions (classes : List ConstantIndex)
  | innerClasses (entries : List InnerClassEntry)
  | bootstrapMethods (entries : List BootstrapEntry)
  | lineNumberTable (entries : List LineEntry)
  | localVariableTable (entries : List LocalEntry)
  | stackMapTable (frames : List MapFrame)
  deriving DecidableEq, Repr

namespace Attribute

/-- The name of an attribute. -/
def name : Attribute → String
  | constantValue _ => "ConstantValue"
  | sourceFile _ => "SourceFile"
  | signature _ => "Signature"
  | nestHost _ => "NestHost"
  | nestMembers _ => "NestMembers"
  | exceptions _ => "Exceptions"
  | innerClasses _ => "InnerClasses"
  | bootstrapMethods _ => "BootstrapMethods"
  | lineNumberTable _ => "LineNumberTable"
  | localVariableTable _ => "LocalVariableTable"
  | stackMapTable _ => "StackMapTable"

/-- A table: the number of entries, and the entries. -/
def putTable {α : Type} (put : Bytes → α → Bytes) (b : Bytes) (entries : List α) : Bytes :=
  entries.foldl put (b.putU16 (UInt16.ofNat entries.length))

/-- Appends an entry of the table of inner classes; what is absent is written as 0. -/
def putInnerClass (b : Bytes) (e : InnerClassEntry) : Bytes :=
  (((b.putU16 e.inner).putU16 (e.outer.getD 0)).putU16 (e.name.getD 0)).putU16 e.access

/-- Appends an entry of the table of bootstrap methods. -/
def putBootstrap (b : Bytes) (e : BootstrapEntry) : Bytes :=
  (b.putU16 e.handle).putU16s e.arguments

/-- Appends an entry of the table of lines. -/
def putLine (b : Bytes) (e : LineEntry) : Bytes := (b.putU16 e.start).putU16 e.line

/-- Appends an entry of the table of local variables. -/
def putLocal (b : Bytes) (e : LocalEntry) : Bytes :=
  ((((b.putU16 e.start).putU16 e.length).putU16 e.name).putU16 e.descriptor).putU16 e.index

/-- The payload of an attribute. -/
def payload : Attribute → Bytes
  | constantValue i | sourceFile i | signature i | nestHost i => Bytes.empty.putU16 i
  | nestMembers is | exceptions is => Bytes.empty.putU16s is
  | innerClasses entries => putTable putInnerClass .empty entries
  | bootstrapMethods entries => putTable putBootstrap .empty entries
  | lineNumberTable entries => putTable putLine .empty entries
  | localVariableTable entries => putTable putLocal .empty entries
  | stackMapTable frames => putTable MapFrame.put .empty frames

end Attribute

/-- An attribute whose name is a record of a constant pool. -/
structure RawAttribute where
  name : ConstantIndex
  payload : Bytes

/-- Appends an attribute. -/
def RawAttribute.put (b : Bytes) (a : RawAttribute) : Bytes := b.putAttribute a.name a.payload

/-- Appends a table of attributes. -/
def RawAttribute.putAll (b : Bytes) (attributes : List RawAttribute) : Bytes :=
  Attribute.putTable RawAttribute.put b attributes

end ClassFile
