/-
# Writing annotations

Annotations are written while their events come in.  The number of values stands in front of the
values, where room is reserved for it when an annotation or an array begins; it is filled in at
the end.  A value that comes as a whole is written in the same way (`putValue`).

The annotations of a class, a field, a method or a parameter that are visible at run time are
one set, and the others another one.  A set is written as one attribute.
-/
import ClassFile.Annotation.Event
import ClassFile.ConstantPool.Basic

namespace ClassFile

/-- Writing to a buffer, with constants in a pool. -/
abbrev PutM := StateT Bytes PoolM

namespace ElementValue

/-- Appends bytes as a function on the buffer gives them. -/
def append (f : Bytes → Bytes) : PutM Unit := modify f

/-- Reserves room for a number of values. -/
def reserve : PutM Bytes.Placeholder := modifyGet Bytes.reserveU16

/-- Fills in a number of values. -/
def patch (placeholder : Bytes.Placeholder) (count : UInt16) : PutM Unit :=
  modify fun b => b.patchU16 placeholder count

/-- Appends a tag and an index. -/
def putTagged (tag : Char) (index : ConstantIndex) : PutM Unit :=
  append fun b => b.put12 (UInt8.ofNat tag.toNat) index

/-- Appends the tag of a literal and the index of its constant. -/
def putLiteral (tag : Char) (constant : PoolM ConstantIndex) : PutM Unit := do
  putTagged tag (← constant)

/-- Appends a constant of an enumeration. -/
def putEnum (descriptor value : String) : PutM Unit := do
  let descriptor ← ConstantPool.utf8 descriptor
  let value ← ConstantPool.utf8 value
  append fun b => (b.put12 (UInt8.ofNat 'e'.toNat) descriptor).putU16 value

/- Appends a value and the values below it. -/
mutual

/-- Appends a value. -/
def putValue : ElementValue → PutM Unit
  | boolean value => putLiteral 'Z' (ConstantPool.intern (.integer (if value then 1 else 0)))
  | byte value => putLiteral 'B' (ConstantPool.intern (.integer value.toInt32))
  | char value => putLiteral 'C' (ConstantPool.intern (.integer value.toUInt32.toInt32))
  | short value => putLiteral 'S' (ConstantPool.intern (.integer value.toInt32))
  | int value => putLiteral 'I' (ConstantPool.intern (.integer value))
  | long value => putLiteral 'J' (ConstantPool.intern (.long value))
  | float value => putLiteral 'F' (ConstantPool.intern (.float value))
  | double value => putLiteral 'D' (ConstantPool.intern (.double value))
  | string value => putLiteral 's' (ConstantPool.utf8 value)
  | classLiteral descriptor => putLiteral 'c' (ConstantPool.utf8 descriptor)
  | enumConstant descriptor value => putEnum descriptor value
  | nested descriptor values => do
    putTagged '@' (← ConstantPool.utf8 descriptor)
    let count ← reserve
    patch count (← putPairs 0 values)
  | array values => do
    append fun b => b.putU8 (UInt8.ofNat '['.toNat)
    let count ← reserve
    patch count (← putEntries 0 values)

/-- Appends values with their names, behind `count` others; gives the number of all. -/
def putPairs (count : UInt16) : List (String × ElementValue) → PutM UInt16
  | [] => return count
  | (name, value) :: values => do
    let name ← ConstantPool.utf8 name
    append fun b => b.putU16 name
    putValue value
    putPairs (count + 1) values

/-- Appends values without names, behind `count` others; gives the number of all. -/
def putEntries (count : UInt16) : List ElementValue → PutM UInt16
  | [] => return count
  | value :: values => do
    putValue value
    putEntries (count + 1) values

end

end ElementValue

/-! ## Events -/

/-- What encloses a value that is written. -/
inductive AnnotationLevel where
  /-- Nothing: the value is the default of an element. -/
  | bare
  /-- An annotation, whose values have names, or an array: how many values have been written, and
  where their number goes. -/
  | counted (named : Bool) (count : UInt16) (place : Bytes.Placeholder)
  deriving DecidableEq, Repr

/-- An annotation that is being written: its bytes, and what has begun, the innermost first. -/
structure AnnotationWriter where
  buffer : Bytes
  levels : List AnnotationLevel

namespace AnnotationWriter

open ElementValue (putValue putTagged putEnum append reserve patch)

/-- Counts a value and appends its name, if values have names here. -/
def putName (name : Option String) : AnnotationLevel → PutM AnnotationLevel
  | .bare => return .bare
  | .counted named count place => do
    if named then
      let index ← ConstantPool.utf8 (name.getD "")
      append fun b => b.putU16 index
    return .counted named (count + 1) place

/-- Appends a whole value.  The default of an element is prepared in a buffer of its own, behind
room for a number that is then dropped. -/
def putWhole (value : ElementValue) : AnnotationLevel → PutM Unit
  | .counted .. => putValue value
  | .bare => do
    let prepare : PutM Unit := do
      let _ ← reserve
      putValue value
    let ((), scratch) ← prepare.run .empty
    append fun b => b.putBytes (scratch.extract 2 scratch.size)

/-- Begins an annotation or an array inside of what has begun. -/
def begin (named : Bool) (levels : List AnnotationLevel) : PutM (List AnnotationLevel) := do
  return .counted named 0 (← reserve) :: levels

/-- Writes one event. -/
def event (levels : List AnnotationLevel) (e : AnnotationEvent) : PutM (List AnnotationLevel) := do
  match levels with
  | [] => return []
  | level :: outer =>
    match e with
    | .value name value =>
      let level ← putName name level
      putWhole value level
      return level :: outer
    | .enumConstant name descriptor value =>
      let level ← putName name level
      putEnum descriptor value
      return level :: outer
    | .beginNested name descriptor =>
      let level ← putName name level
      putTagged '@' (← ConstantPool.utf8 descriptor)
      begin true (level :: outer)
    | .beginArray name =>
      let level ← putName name level
      append fun b => b.putU8 (UInt8.ofNat '['.toNat)
      begin false (level :: outer)
    | .finish =>
      match level with
      | .bare => return level :: outer
      | .counted _ count place =>
        patch place count
        return outer

/-- Writes events, inside of what has begun. -/
def all (levels : List AnnotationLevel) : List AnnotationEvent → PutM Unit
  | [] => return
  | e :: es => do all (← event levels e) es

/-- The bytes of an annotation: the index of its type, and its values. -/
def encode (descriptor : String) (events : List AnnotationEvent) : PoolM Bytes := do
  let put : PutM Unit := do
    let type ← ConstantPool.utf8 descriptor
    append fun b => b.putU16 type
    let levels ← begin true []
    all levels events
  let ((), buffer) ← put.run .empty
  return buffer

/-- Appends the default of an element. -/
def encodeDefault (b : Bytes) (events : List AnnotationEvent) : PoolM Bytes := do
  let ((), buffer) ← (all [.bare] events).run b
  return buffer

end AnnotationWriter

/-! ## Sets -/

/-- The bytes of the annotations of one kind in one place. -/
structure AnnotationSet where
  annotations : Array Bytes

namespace AnnotationSet

/-- The set without annotations. -/
def empty : AnnotationSet := ⟨#[]⟩

/-- Is the set without annotations? -/
def isEmpty (s : AnnotationSet) : Bool := s.annotations.isEmpty

/-- Adds an annotation. -/
def add (s : AnnotationSet) (descriptor : String) (events : List AnnotationEvent) :
    PoolM AnnotationSet := do
  return ⟨s.annotations.push (← AnnotationWriter.encode descriptor events)⟩

/-- Appends the annotations, preceded by their number. -/
def put (b : Bytes) (s : AnnotationSet) : Bytes :=
  s.annotations.foldl Bytes.putBytes (b.putU16 (UInt16.ofNat s.annotations.size))

/-- The attribute of a set, unless it is empty. -/
def attribute? (s : AnnotationSet) (name : String) : PoolM (Option RawAttribute) := do
  if s.isEmpty then return none
  return some ⟨← ConstantPool.utf8 name, s.put .empty⟩

/-- The attribute of the sets of parameters, at least so many, unless all sets are empty. -/
def parametersAttribute? (sets : Array AnnotationSet) (parameters : Nat) (name : String) :
    PoolM (Option RawAttribute) := do
  if sets.all isEmpty then return none
  let count := max sets.size parameters
  let payload := (List.range count).foldl (fun b i => (sets.getD i empty).put b)
    (Bytes.empty.putU8 (UInt8.ofNat count))
  return some ⟨← ConstantPool.utf8 name, payload⟩

end AnnotationSet

end ClassFile
