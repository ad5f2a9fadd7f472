/-
# Writing classes

A `ClassWriter` takes the events of a class.  Fields and methods are encoded as their events come,
so that only the constant pool and what belongs to the class itself wait for the end, when
`ClassWriter.bytes` puts the file together.

The pool stands in front of the members that refer to it, but it is complete only after them.
That is why the members are kept in encoded form, and why every name that the file needs gets its
index before anything is written.
-/
import ClassFile.ClassBytes.Basic
import ClassFile.MemberWriter
import Std.Data.HashSet.Basic

namespace ClassFile

/-! ## 1. Inner classes -/

/-- The table of inner classes while it grows. -/
structure InnerClassTable where
  names : Std.HashSet String
  entries : Array InnerClassEntry

namespace InnerClassTable

/-- No inner classes. -/
def empty : InnerClassTable := ⟨∅, #[]⟩

/-- The constants of an inner class: those of the outer class and of the simple name come before
the class itself. -/
def entry (c : InnerClass) : PoolM InnerClassEntry := do
  let outer ← match c.outer with
    | some name => some <$> ConstantPool.classRef name
    | none => pure none
  let name ← match c.innerName with
    | some name => some <$> ConstantPool.utf8 name
    | none => pure none
  return ⟨← ConstantPool.classRef c.name, outer, name, c.access⟩

/-- Adds an inner class, unless one of that name is in the table. -/
def add (c : InnerClass) : InnerClassTable → PoolM InnerClassTable
  | ⟨names, entries⟩ => do
    if names.contains c.name then return ⟨names, entries⟩
    let e ← entry c
    return ⟨names.insert c.name, entries.push e⟩

/-- The attribute, if there are inner classes. -/
def attributes (t : InnerClassTable) : PoolM (List RawAttribute) := do
  if t.entries.isEmpty then return []
  return [← ConstantPool.named (.innerClasses t.entries.toList)]

end InnerClassTable

/-! ## 2. Headers -/

/-- How to write classes. -/
structure WriterOptions where
  /-- Frames are inferred only for classes of a version that has them. -/
  mode : ComputeMode
  hierarchy : Hierarchy

/-- The header of a class, with its constants. -/
structure ClassHeader where
  version : Version
  access : UInt16
  name : String
  /-- Absent before the header was visited. -/
  classRef : Option ConstantIndex
  superclass : Option ConstantIndex
  interfaces : List ConstantIndex
  attributes : List RawAttribute

namespace ClassHeader

/-- What holds before the header is known. -/
def unknown : ClassHeader := ⟨⟨52, 0⟩, 0, "", none, none, [], []⟩

/-- The attribute of the members of a nest, if there are any. -/
def nestMembersAttribute (members : List String) : PoolM (List RawAttribute) := do
  if members.isEmpty then return []
  let members ← members.mapM ConstantPool.classRef
  return [← ConstantPool.named (.nestMembers members)]

/-- The header of a class. -/
def of (version : Version) (access : UInt16) (name : String) (info : ClassInfo) :
    PoolM ClassHeader := do
  let classRef ← ConstantPool.classRef name
  let superclass ← match info.superclass with
    | some s => some <$> ConstantPool.classRef s
    | none => pure none
  let interfaces ← info.interfaces.mapM ConstantPool.classRef
  let source ← constantAttribute ConstantPool.utf8 .sourceFile info.sourceFile
  let signature ← constantAttribute ConstantPool.utf8 .signature info.signature
  let host ← constantAttribute ConstantPool.classRef .nestHost info.nestHost
  let members ← nestMembersAttribute info.nestMembers
  let deprecated ← deprecatedAttribute info.deprecated
  return ⟨version, access, name, classRef, superclass, interfaces,
    source ++ signature ++ host ++ members ++ deprecated⟩

/-- What is computed for the methods of a class. -/
def mode (h : ClassHeader) (options : WriterOptions) : ComputeMode :=
  if h.version.usesStackMapFrames then options.mode else .maxStack

/-- What the methods of a class have in common. -/
def context (h : ClassHeader) (options : WriterOptions) : ClassContext :=
  ⟨h.mode options, options.hierarchy, h.name⟩

end ClassHeader

/-! ## 3. Classes -/

/-- A class that is being written. -/
structure ClassWriter where
  options : WriterOptions
  header : ClassHeader
  annotations : DeclaredAnnotations
  innerClasses : InnerClassTable
  fields : MemberTable
  methods : MemberTable

namespace ClassWriter

/-- A class of which nothing is known. -/
def start (options : WriterOptions) : ClassWriter :=
  ⟨options, .unknown, .empty, .empty, .empty, .empty⟩

/-- What the methods of the class have in common. -/
def context (w : ClassWriter) : ClassContext := w.header.context w.options

/-- A field with its events. -/
def field (info : FieldInfo) (events : List FieldEvent) : ClassWriter → PoolM ClassWriter
  | ⟨options, header, annotations, innerClasses, fields, methods⟩ => do
    let member ← events.foldlM FieldWriter.event (← FieldWriter.start info fields)
    return ⟨options, header, annotations, innerClasses, member.table, methods⟩

/-- Starts a method; what is left waits for `endMethod`. -/
def startMethod (info : MethodInfo) : ClassWriter → PoolM (MethodWriter × ClassWriter)
  | ⟨options, header, annotations, innerClasses, fields, methods⟩ => do
    let member ← MethodWriter.start (header.mode options) info methods
    return (member, ⟨options, header, annotations, innerClasses, fields, .empty⟩)

/-- Takes the methods back. -/
def endMethod (member : MethodWriter) (w : ClassWriter) : ClassWriter :=
  { w with methods := member.table }

/-- A method with its events. -/
def method (info : MethodInfo) (events : List MethodEvent) (w : ClassWriter) :
    PoolM ClassWriter := do
  let (member, w) ← w.startMethod info
  return w.endMethod (← member.events w.context events)

/-- An event of the class.  A second header replaces the first one. -/
def event (w : ClassWriter) : ClassEvent → PoolM ClassWriter
  | .header version access name info =>
    return { w with header := ← ClassHeader.of version access name info }
  | .annotated a => return { w with annotations := ← w.annotations.add a }
  | .innerClass c => return { w with innerClasses := ← w.innerClasses.add c }
  | .field info events => w.field info events
  | .method info events => w.method info events
  | .finish => return w

/-- Several events of the class. -/
def events (w : ClassWriter) (es : Array ClassEvent) : PoolM ClassWriter := es.foldlM event w

/-- The attributes of the class. -/
def attributes (w : ClassWriter) : PoolM (List RawAttribute) := do
  let innerClasses ← w.innerClasses.attributes
  let annotations ← w.annotations.attributes
  let bootstrap ← ConstantPool.bootstrapAttribute?
  return w.header.attributes ++ innerClasses ++ annotations ++ bootstrap.toList

/-- Puts the file together. -/
def assemble (w : ClassWriter) (pool : ConstantPool) (classRef : ConstantIndex)
    (attributes : List RawAttribute) : Bytes :=
  let b := w.header.version.put (Bytes.empty.putU32 magicNumber)
  let b := ((pool.put b).putU16 w.header.access).putU16 classRef
  let b := (b.putU16 (w.header.superclass.getD 0)).putU16s w.header.interfaces
  RawAttribute.putAll (w.methods.put (w.fields.put b)) attributes

/-- The class file. -/
def bytes (w : ClassWriter) : PoolM Bytes := do
  let classRef ← match w.header.classRef with
    | some index => pure index
    | none => ConstantPool.classRef w.header.name
  let attributes ← w.attributes
  return w.assemble (← get) classRef attributes

end ClassWriter

end ClassFile
