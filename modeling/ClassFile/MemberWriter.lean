/-
# Writing fields and methods

A `FieldWriter` or a `MethodWriter` starts with a declaration and takes the events of what is in
it.  At the end of the member it is added to the table of fields or methods; a member without an
end is in no table, although its constants are in the pool.

The attributes of a member come in this order: its code, those of its declaration, the default of
an element, its annotations, and those of its parameters, each time first the visible ones.
-/
import ClassFile.Annotation.Encode
import ClassFile.Code.Encode

namespace ClassFile

/-! ## 1. Tables of members -/

/-- Members in the form in which they are written, and their number. -/
structure MemberTable where
  count : UInt16
  bytes : Bytes

namespace MemberTable

/-- No members. -/
def empty : MemberTable := ⟨0, .empty⟩

/-- Adds a member. -/
def add (access : UInt16) (name descriptor : ConstantIndex) (attributes : List RawAttribute) :
    MemberTable → MemberTable
  | ⟨count, bytes⟩ =>
    let bytes := ((bytes.putU16 access).putU16 name).putU16 descriptor
    ⟨count + 1, RawAttribute.putAll bytes attributes⟩

/-- Appends the members, preceded by their number. -/
def put (b : Bytes) (t : MemberTable) : Bytes := (b.putU16 t.count).putBytes t.bytes

end MemberTable

/-! ## 2. Parts of declarations -/

/-- The attribute that holds the index of a constant, if there is one. -/
def constantAttribute {α : Type} (constant : α → PoolM ConstantIndex)
    (content : ConstantIndex → Attribute) (value : Option α) : PoolM (List RawAttribute) := do
  match value with
  | some v => return [← ConstantPool.named (content (← constant v))]
  | none => return []

/-- The attribute that marks what is deprecated. -/
def deprecatedAttribute (deprecated : Bool) : PoolM (List RawAttribute) := do
  if deprecated then return [⟨← ConstantPool.utf8 "Deprecated", .empty⟩] else return []

/-- The annotations of a declaration. -/
structure DeclaredAnnotations where
  visible : AnnotationSet
  invisible : AnnotationSet

namespace DeclaredAnnotations

/-- No annotations. -/
def empty : DeclaredAnnotations := ⟨.empty, .empty⟩

/-- Adds what is annotated. -/
def add (a : AnnotationInfo) (d : DeclaredAnnotations) : PoolM DeclaredAnnotations := do
  if a.visible then return { d with visible := ← d.visible.add a.descriptor a.values }
  else return { d with invisible := ← d.invisible.add a.descriptor a.values }

/-- The attributes, of which there is one for each set that has annotations. -/
def attributes (d : DeclaredAnnotations) : PoolM (List RawAttribute) := do
  let visible ← d.visible.attribute? "RuntimeVisibleAnnotations"
  let invisible ← d.invisible.attribute? "RuntimeInvisibleAnnotations"
  return visible.toList ++ invisible.toList

end DeclaredAnnotations

/-- The annotations of parameters, by the number of the parameter. -/
structure ParameterAnnotations where
  visible : Array AnnotationSet
  invisible : Array AnnotationSet

namespace ParameterAnnotations

/-- No annotations. -/
def empty : ParameterAnnotations := ⟨#[], #[]⟩

/-- Adds an annotation to the set of a parameter. -/
def addTo (sets : Array AnnotationSet) (parameter : Nat) (a : AnnotationInfo) :
    PoolM (Array AnnotationSet) := do
  let sets := sets ++ Array.replicate (parameter + 1 - sets.size) AnnotationSet.empty
  let set ← (sets.getD parameter .empty).add a.descriptor a.values
  return sets.setIfInBounds parameter set

/-- Adds what is annotated. -/
def add (parameter : UInt8) (a : AnnotationInfo) (p : ParameterAnnotations) :
    PoolM ParameterAnnotations := do
  if a.visible then return { p with visible := ← addTo p.visible parameter.toNat a }
  else return { p with invisible := ← addTo p.invisible parameter.toNat a }

/-- The attributes, in a method with so many parameters. -/
def attributes (parameters : Nat) (p : ParameterAnnotations) : PoolM (List RawAttribute) := do
  let visible ← AnnotationSet.parametersAttribute? p.visible parameters
    "RuntimeVisibleParameterAnnotations"
  let invisible ← AnnotationSet.parametersAttribute? p.invisible parameters
    "RuntimeInvisibleParameterAnnotations"
  return visible.toList ++ invisible.toList

end ParameterAnnotations

/-! ## 3. Fields -/

/-- A field that is being written. -/
structure FieldWriter where
  access : UInt16
  name : ConstantIndex
  descriptor : ConstantIndex
  /-- The attributes of the declaration. -/
  attributes : List RawAttribute
  annotations : DeclaredAnnotations
  /-- The fields that have ended. -/
  table : MemberTable

namespace FieldWriter

/-- Starts a field. -/
def start (info : FieldInfo) (table : MemberTable) : PoolM FieldWriter := do
  let name ← ConstantPool.utf8 info.name
  let descriptor ← ConstantPool.utf8 info.descriptor
  let value ← constantAttribute ConstantPool.loadable .constantValue info.value
  let signature ← constantAttribute ConstantPool.utf8 .signature info.signature
  let deprecated ← deprecatedAttribute info.deprecated
  return ⟨info.access, name, descriptor, value ++ signature ++ deprecated, .empty, table⟩

/-- An event in a field. -/
def event (w : FieldWriter) : FieldEvent → PoolM FieldWriter
  | .annotated a => return { w with annotations := ← w.annotations.add a }
  | .finish => do
    let attributes := w.attributes ++ (← w.annotations.attributes)
    return { w with
      attributes := []
      table := w.table.add w.access w.name w.descriptor attributes }

end FieldWriter

/-! ## 4. Methods -/

/-- What the methods of a class have in common. -/
structure ClassContext where
  mode : ComputeMode
  hierarchy : Hierarchy
  className : String

/-- The declaration of a method, with its constants. -/
structure MethodHeader where
  info : MethodInfo
  name : ConstantIndex
  descriptor : ConstantIndex
  parameters : Nat

/-- A method that is being written. -/
structure MethodWriter where
  header : MethodHeader
  /-- The attributes of the declaration. -/
  attributes : List RawAttribute
  /-- The default of an element. -/
  default : Option Bytes
  annotations : DeclaredAnnotations
  parameterAnnotations : ParameterAnnotations
  hasCode : Bool
  code : CodeWriter
  /-- The methods that have ended. -/
  table : MemberTable

namespace MethodWriter

/-- The attribute of the exceptions that a method declares. -/
def exceptionsAttribute (exceptions : List String) : PoolM (List RawAttribute) := do
  if exceptions.isEmpty then return []
  let classes ← exceptions.mapM ConstantPool.classRef
  return [← ConstantPool.named (.exceptions classes)]

/-- Starts a method. -/
def start (mode : ComputeMode) (info : MethodInfo) (table : MemberTable) :
    PoolM MethodWriter := do
  let type ← Descriptor.methodType info.descriptor
  let name ← ConstantPool.utf8 info.name
  let descriptor ← ConstantPool.utf8 info.descriptor
  let exceptions ← exceptionsAttribute info.exceptions
  let signature ← constantAttribute ConstantPool.utf8 .signature info.signature
  let deprecated ← deprecatedAttribute info.deprecated
  let slots := type.parameterSlots (!AccessFlags.isStatic info.access)
  return ⟨⟨info, name, descriptor, type.parameters.length⟩, exceptions ++ signature ++ deprecated,
    none, .empty, .empty, false, .start mode (UInt16.ofNat slots), table⟩

/-- An event in the code. -/
def onCode (f : CodeM Unit) : MethodWriter → PoolM MethodWriter
  | ⟨header, attributes, default, annotations, parameters, hasCode, code, table⟩ => do
    let ((), code) ← f code
    return ⟨header, attributes, default, annotations, parameters, hasCode, code, table⟩

/-- What types are inferred for. -/
def context (c : ClassContext) (info : MethodInfo) (maxLocals : UInt16) : MethodContext :=
  { hierarchy := c.hierarchy, className := c.className, access := info.access,
    name := info.name, descriptor := info.descriptor, maxLocals }

/-- The attribute of the code, if there is any, and the code afterwards. -/
def codeAttribute (c : ClassContext) (w : MethodWriter) :
    PoolM (List RawAttribute × CodeWriter) := do
  if w.hasCode then
    let (a, code) ← (CodeWriter.finish (context c w.header.info)).run w.code
    return ([a], code)
  else return ([], w.code)

/-- The attribute of the default of an element, if there is one. -/
def defaultAttribute (default : Option Bytes) : PoolM (List RawAttribute) := do
  match default with
  | some payload => return [⟨← ConstantPool.utf8 "AnnotationDefault", payload⟩]
  | none => return []

/-- Ends a method. -/
def finish (c : ClassContext) (w : MethodWriter) : PoolM MethodWriter := do
  let (codeAttribute, code) ← w.codeAttribute c
  let default ← defaultAttribute w.default
  let annotations ← w.annotations.attributes
  let parameters ← w.parameterAnnotations.attributes w.header.parameters
  let attributes := codeAttribute ++ w.attributes ++ default ++ annotations ++ parameters
  let table := w.table.add w.header.info.access w.header.name w.header.descriptor attributes
  return { w with attributes := [], default := none, code, table }

/-- An event in a method. -/
def event (c : ClassContext) (w : MethodWriter) : MethodEvent → PoolM MethodWriter
  | .default values => do
    let payload ← AnnotationWriter.encodeDefault .empty values
    return { w with default := some payload }
  | .annotated a => return { w with annotations := ← w.annotations.add a }
  | .parameterAnnotated parameter a =>
    return { w with parameterAnnotations := ← w.parameterAnnotations.add parameter a }
  | .code => return { w with hasCode := true }
  | .handler start stop target caught => w.onCode (CodeWriter.handler start stop target caught)
  | .instruction i => w.onCode (CodeWriter.instruction i)
  | .label l => w.onCode (CodeWriter.label l)
  | .line number start => w.onCode (modify (CodeWriter.line number start))
  | .localVariable name descriptor start stop index =>
    w.onCode (CodeWriter.localVariable name descriptor start stop index)
  | .sizes stack locals =>
    w.onCode (modify fun code => { code with givenStack := stack, givenLocals := locals })
  | .finish => w.finish c

/-- Several events in a method. -/
def events (c : ClassContext) (w : MethodWriter) (es : List MethodEvent) : PoolM MethodWriter :=
  es.foldlM (event c) w

end MethodWriter

end ClassFile
