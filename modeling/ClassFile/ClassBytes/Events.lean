/-
# Reading classes

`ClassBytes.events` goes through a class file and emits the events of the class.  Attributes that
are not known here are passed over; of those that can stand only once, the last one counts.

A `Selection` says which fields and methods to go into.  What it leaves out is not decoded beyond
its declaration, and there are no events inside of it.
-/
import ClassFile.AccessFlags
import ClassFile.Annotation.Decode
import ClassFile.Code.Decode

namespace ClassFile

/-- Which fields and methods to go into. -/
structure Selection where
  field : FieldInfo → Bool
  method : MethodInfo → Bool

namespace Selection

/-- All of them. -/
def all : Selection := ⟨fun _ => true, fun _ => true⟩

/-- None of them. -/
def none : Selection := ⟨fun _ => false, fun _ => false⟩

end Selection

namespace ClassBytes

/-! ## 1. The header -/

/-- The version of a class. -/
def version (c : ClassBytes) : Except Error Version := do
  let minor ← c.bytes.u16At 4
  let major ← c.bytes.u16At 6
  return { major, minor }

/-- The access flags of a class. -/
def access (c : ClassBytes) : Except Error UInt16 := c.bytes.u16At c.header

/-- The class whose index stands at an offset, where 0 is not allowed. -/
def someClassAt (c : ClassBytes) (offset : Nat) : Except Error String := do
  match ← c.classAt offset with
  | some name => return name
  | none => throw (.invalidConstantIndex 0)

/-- The name of a class. -/
def className (c : ClassBytes) : Except Error String := c.someClassAt (c.header + 2)

/-- The super class of a class. -/
def superclass (c : ClassBytes) : Except Error (Option String) := c.classAt (c.header + 4)

/-- The classes whose indices stand in a table. -/
def classesAt (c : ClassBytes) (offset : Nat) : Except Error (List String) := do
  let count ← c.bytes.u16At offset
  (List.range count.toNat).mapM fun i => do c.readClass (← c.bytes.u16At (offset + 2 + 2 * i))

/-- The interfaces of a class. -/
def interfaces (c : ClassBytes) : Except Error (List String) := c.classesAt (c.header + 6)

/-! ## 2. Attributes -/

/-- An attribute: its name, and the offset of its payload. -/
structure AttributeAt where
  name : String
  payload : Nat

/-- The attribute at an offset, and the offset behind it. -/
def attributeAt (c : ClassBytes) (offset : Nat) : Except Error (AttributeAt × Nat) := do
  let name ← c.utf8At offset
  let length := (← c.bytes.u32At (offset + 2)).toNat
  let _ ← c.bytes.bytesAt (offset + 6) length
  return (⟨name, offset + 6⟩, offset + 6 + length)

/-- The attributes in the table at an offset, and the offset behind it. -/
def attributesAt (c : ClassBytes) (offset : Nat) : Except Error (List AttributeAt × Nat) := do
  let count ← c.bytes.u16At offset
  let (found, stop) ← iterateM (fun (found, offset) => do
    let (a, next) ← c.attributeAt offset
    return (found.push a, next)) count.toNat ((#[] : Array AttributeAt), offset + 2)
  return (found.toList, stop)

/-- The tables of annotations among attributes, in order, with whether they are visible. -/
def annotationTables (visible invisible : String) (attributes : List AttributeAt) :
    List (Nat × Bool) :=
  attributes.filterMap fun a =>
    if a.name = visible then some (a.payload, true)
    else if a.name = invisible then some (a.payload, false)
    else none

/-- The tables of annotations of a declaration. -/
def declarationTables : List AttributeAt → List (Nat × Bool) :=
  annotationTables "RuntimeVisibleAnnotations" "RuntimeInvisibleAnnotations"

/-- The tables of annotations of the parameters of a method. -/
def parameterTables : List AttributeAt → List (Nat × Bool) :=
  annotationTables "RuntimeVisibleParameterAnnotations" "RuntimeInvisibleParameterAnnotations"

/-- The offset of the payload of the last attribute with a name. -/
def lastNamed (name : String) (attributes : List AttributeAt) : Option Nat :=
  (attributes.reverse.find? fun a => a.name = name).map (·.payload)

/-- Is there an attribute with a name? -/
def hasNamed (name : String) (attributes : List AttributeAt) : Bool :=
  attributes.any fun a => a.name = name

/-- Access flags, with the one that an attribute can stand for. -/
def accessWith (access : UInt16) (attributes : List AttributeAt) : UInt16 :=
  if hasNamed "Synthetic" attributes then access ||| AccessFlags.syntheticBit else access

/-! ## 3. Annotations -/

/-- Emits so many annotations from an offset on; gives the offset behind them. -/
def readAnnotations {ε : Type} (c : ClassBytes) (wrap : String → List AnnotationEvent → ε) :
    Nat → Nat → Replay ε Nat
  | 0, offset => return offset
  | count + 1, offset => do
    let descriptor ← c.utf8At offset
    let offset ← Replay.nest (c.readAnnotationAt (offset + 2)) (wrap descriptor)
    readAnnotations c wrap count offset

/-- Emits the annotations in a table; gives the offset behind it. -/
def readAnnotationTable {ε : Type} (c : ClassBytes) (wrap : AnnotationInfo → ε) (visible : Bool)
    (offset : Nat) : Replay ε Nat := do
  let count ← c.bytes.u16At offset
  c.readAnnotations (fun descriptor values => wrap ⟨descriptor, visible, values⟩) count.toNat
    (offset + 2)

/-- Emits the annotations in several tables. -/
def readAnnotationTables {ε : Type} (c : ClassBytes) (wrap : AnnotationInfo → ε)
    (tables : List (Nat × Bool)) : Replay ε Unit := do
  for (offset, visible) in tables do
    let _ ← c.readAnnotationTable wrap visible offset

/-- Emits the annotations of parameters in several tables. -/
def readParameterTables (c : ClassBytes) (tables : List (Nat × Bool)) :
    Replay MethodEvent Unit := do
  for (start, visible) in tables do
    let count ← c.bytes.u8At start
    let mut offset := start + 1
    for parameter in List.range count.toNat do
      offset ← c.readAnnotationTable (.parameterAnnotated (UInt8.ofNat parameter)) visible offset

/-! ## 4. Fields -/

/-- What an attribute says about a field. -/
def fieldAttribute (c : ClassBytes) (info : FieldInfo) (a : AttributeAt) :
    Except Error FieldInfo := do
  match a.name with
  | "ConstantValue" =>
    return { info with value := some (← c.readLoadable (← c.bytes.u16At a.payload)) }
  | "Signature" => return { info with signature := some (← c.utf8At a.payload) }
  | "Deprecated" => return { info with deprecated := true }
  | _ => return info

/-- The declaration of a field with its attributes. -/
def fieldInfo (c : ClassBytes) (access : UInt16) (name descriptor : String)
    (attributes : List AttributeAt) : Except Error FieldInfo :=
  attributes.foldlM c.fieldAttribute
    ⟨accessWith access attributes, name, descriptor, none, none, false⟩

/-- Emits the events inside of a field. -/
def fieldEvents (c : ClassBytes) (attributes : List AttributeAt) : Replay FieldEvent Unit := do
  c.readAnnotationTables .annotated (declarationTables attributes)
  Replay.emit .finish

/-- Emits the field at an offset; gives the offset behind it. -/
def readField (c : ClassBytes) (selection : Selection) (offset : Nat) :
    Replay ClassEvent Nat := do
  let access ← c.bytes.u16At offset
  let name ← c.utf8At (offset + 2)
  let descriptor ← c.utf8At (offset + 4)
  let (attributes, stop) ← c.attributesAt (offset + 6)
  let info ← c.fieldInfo access name descriptor attributes
  Replay.nest (if selection.field info then c.fieldEvents attributes else pure ()) (.field info)
  return stop

/-! ## 5. Methods -/

/-- What an attribute says about the declaration of a method. -/
def methodAttribute (c : ClassBytes) (info : MethodInfo) (a : AttributeAt) :
    Except Error MethodInfo := do
  match a.name with
  | "Exceptions" => return { info with exceptions := ← c.classesAt a.payload }
  | "Signature" => return { info with signature := some (← c.utf8At a.payload) }
  | "Deprecated" => return { info with deprecated := true }
  | _ => return info

/-- The declaration of a method with its attributes. -/
def methodInfo (c : ClassBytes) (access : UInt16) (name descriptor : String)
    (attributes : List AttributeAt) : Except Error MethodInfo :=
  attributes.foldlM c.methodAttribute
    ⟨accessWith access attributes, name, descriptor, none, [], false⟩

/-- Emits the events inside of a method. -/
def methodEvents (c : ClassBytes) (attributes : List AttributeAt) :
    Replay MethodEvent Unit := do
  if let some offset := lastNamed "AnnotationDefault" attributes then
    let value : Replay AnnotationEvent Unit := do
      let _ ← c.readValue none offset
      Replay.emit .finish
    Replay.nest value .default
  c.readAnnotationTables .annotated (declarationTables attributes)
  c.readParameterTables (parameterTables attributes)
  if let some offset := lastNamed "Code" attributes then
    Replay.emit .code
    c.readCode offset
  Replay.emit .finish

/-- Emits the method at an offset; gives the offset behind it. -/
def readMethod (c : ClassBytes) (selection : Selection) (offset : Nat) :
    Replay ClassEvent Nat := do
  let access ← c.bytes.u16At offset
  let name ← c.utf8At (offset + 2)
  let descriptor ← c.utf8At (offset + 4)
  let (attributes, stop) ← c.attributesAt (offset + 6)
  let info ← c.methodInfo access name descriptor attributes
  Replay.nest (if selection.method info then c.methodEvents attributes else pure ()) (.method info)
  return stop

/-! ## 6. Classes -/

/-- What an attribute says about the header of a class. -/
def classAttribute (c : ClassBytes) (info : ClassInfo) (a : AttributeAt) :
    Except Error ClassInfo := do
  match a.name with
  | "SourceFile" => return { info with sourceFile := some (← c.utf8At a.payload) }
  | "Signature" => return { info with signature := some (← c.utf8At a.payload) }
  | "NestHost" => return { info with nestHost := ← c.classAt a.payload }
  | "NestMembers" => return { info with nestMembers := ← c.classesAt a.payload }
  | "Deprecated" => return { info with deprecated := true }
  | _ => return info

/-- What the header of a class says, with the attributes of the class. -/
def classInfo (c : ClassBytes) (superclass : Option String) (interfaces : List String)
    (attributes : List AttributeAt) : Except Error ClassInfo :=
  attributes.foldlM c.classAttribute ⟨superclass, interfaces, none, none, none, [], false⟩

/-- The row of the table of inner classes at an offset. -/
def innerClassAt (c : ClassBytes) (row : Nat) : Except Error InnerClass := do
  let name ← c.someClassAt row
  let index ← c.bytes.u16At (row + 4)
  let innerName ← if index = 0 then pure none else (c.readUtf8 index).map some
  let outer ← c.classAt (row + 2)
  return { name, outer, innerName, access := ← c.bytes.u16At (row + 6) }

/-- Emits the inner classes in a table. -/
def readInnerClasses (c : ClassBytes) (offset : Nat) : Replay ClassEvent Unit := do
  let count ← c.bytes.u16At offset
  for i in List.range count.toNat do
    Replay.emit (.innerClass (← c.innerClassAt (offset + 2 + 8 * i)))

/-- Emits so many members from an offset on; gives the offset behind them. -/
def readMembers (read : Nat → Replay ClassEvent Nat) : Nat → Nat → Replay ClassEvent Nat
  | 0, offset => return offset
  | count + 1, offset => do
    let offset ← read offset
    readMembers read count offset

/-- Emits the fields or the methods in the table at an offset; gives the offset behind it. -/
def readMemberTable (c : ClassBytes) (read : Nat → Replay ClassEvent Nat) (offset : Nat) :
    Replay ClassEvent Nat := do
  let count ← c.bytes.u16At offset
  readMembers read count.toNat (offset + 2)

/-- Emits the events of a class, going into the members that are selected. -/
def events (c : ClassBytes) (selection : Selection) : Replay ClassEvent Unit := do
  let name ← c.className
  let access ← c.access
  let superclass ← c.superclass
  let interfaces ← c.interfaces
  let (attributes, _) ← c.attributesAt c.classAttributes
  let info ← c.classInfo superclass interfaces attributes
  let version ← c.version
  Replay.emit (.header version (accessWith access attributes) name info)
  c.readAnnotationTables .annotated (declarationTables attributes)
  if let some offset := lastNamed "InnerClasses" attributes then
    c.readInnerClasses offset
  let fields := c.header + 8 + 2 * (← c.bytes.u16At (c.header + 6)).toNat
  let methods ← c.readMemberTable (c.readField selection) fields
  let _ ← c.readMemberTable (c.readMethod selection) methods
  Replay.emit .finish

end ClassBytes

end ClassFile
