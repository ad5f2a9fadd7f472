/-
# Annotations in class files

An annotation is written as the index of its type and then its values, which are counted and
have names; the values of an array are counted too and have no names.  A value starts with a tag.

Reading gives events and the offset behind what was read.  `skipAnnotationAt` and `skipValue` walk
over the same bytes, with the same checks, without giving events.

A value takes at least one byte, so values are nested at most as deep as bytes are left; that is
the measure that readers count down.  When it is used up the input is, too.
-/
import ClassFile.Annotation.Event
import ClassFile.ClassBytes.Records
import ClassFile.Replay

namespace ClassFile.ClassBytes

/-! ## 1. Literals -/

/-- The literal that a tag announces, at the index that stands at an offset.  Integers of the
smaller types are cut to their width. -/
def readLiteral? (c : ClassBytes) (tag : Char) (offset : Nat) :
    Except Error (Option ElementValue) := do
  let constant : Except Error Loadable := do c.readLoadable (← c.bytes.u16At offset)
  let mismatch (expected : Expected) : Except Error (Option ElementValue) := do
    throw (.unexpectedConstant (← c.bytes.u16At offset) expected)
  let integer (make : Int32 → ElementValue) : Except Error (Option ElementValue) := do
    match ← constant with
    | .integer value => return some (make value)
    | _ => mismatch .integer
  match tag with
  | 'B' => integer fun value => .byte value.toInt8
  | 'C' => integer fun value => .char value.toInt16.toUInt16
  | 'S' => integer fun value => .short value.toInt16
  | 'Z' => integer fun value => .boolean (value != 0)
  | 'I' => integer fun value => .int value
  | 'J' =>
    match ← constant with
    | .long value => return some (.long value)
    | _ => mismatch .long
  | 'F' =>
    match ← constant with
    | .float value => return some (.float value)
    | _ => mismatch .float
  | 'D' =>
    match ← constant with
    | .double value => return some (.double value)
    | _ => mismatch .double
  | 's' => return some (.string (← c.utf8At offset))
  | 'c' => return some (.classLiteral (← c.utf8At offset))
  | _ => return none

/-! ## 2. Reading -/

/-- Reads so many values with their names from an offset on. -/
def readPairs (c : ClassBytes)
    (read : Option String → Nat → Replay AnnotationEvent Nat) :
    Nat → Nat → Replay AnnotationEvent Nat
  | 0, offset => return offset
  | count + 1, offset => do
    let name ← c.utf8At offset
    let offset ← read (some name) (offset + 2)
    readPairs c read count offset

/-- Reads so many values without names from an offset on. -/
def readEntries (read : Option String → Nat → Replay AnnotationEvent Nat) :
    Nat → Nat → Replay AnnotationEvent Nat
  | 0, offset => return offset
  | count + 1, offset => do
    let offset ← read none offset
    readEntries read count offset

/-- Reads the values of an annotation and its end, where `read` reads a value. -/
def readAnnotationWith (c : ClassBytes)
    (read : Option String → Nat → Replay AnnotationEvent Nat) (offset : Nat) :
    Replay AnnotationEvent Nat := do
  let count ← c.bytes.u16At offset
  let offset ← c.readPairs read count.toNat (offset + 2)
  Replay.emit .finish
  return offset

/-- Reads a value at an offset, when at most so many bytes are left. -/
def readValueWithin (c : ClassBytes) : Nat → Option String → Nat → Replay AnnotationEvent Nat
  | 0, _, offset => throw (.unexpectedEof offset 1)
  | left + 1, name, offset => do
    let byte ← c.bytes.u8At offset
    match Char.ofNat byte.toNat with
    | 'e' =>
      let descriptor ← c.utf8At (offset + 1)
      let value ← c.utf8At (offset + 3)
      Replay.emit (.enumConstant name descriptor value)
      return offset + 5
    | '@' =>
      let descriptor ← c.utf8At (offset + 1)
      Replay.emit (.beginNested name descriptor)
      c.readAnnotationWith (c.readValueWithin left) (offset + 3)
    | '[' =>
      let count ← c.bytes.u16At (offset + 1)
      Replay.emit (.beginArray name)
      let offset ← readEntries (c.readValueWithin left) count.toNat (offset + 3)
      Replay.emit .finish
      return offset
    | tag =>
      match ← c.readLiteral? tag (offset + 1) with
      | some value =>
        Replay.emit (.value name value)
        return offset + 3
      | none => throw (.invalidAnnotationTag byte offset)

/-- Reads a value at an offset; gives the offset behind it. -/
def readValue (c : ClassBytes) (name : Option String) (offset : Nat) :
    Replay AnnotationEvent Nat :=
  c.readValueWithin (c.bytes.size - offset) name offset

/-- Reads the values of an annotation at an offset and its end; gives the offset behind it. -/
def readAnnotationAt (c : ClassBytes) (offset : Nat) : Replay AnnotationEvent Nat :=
  c.readAnnotationWith (c.readValueWithin (c.bytes.size - offset)) offset

/-! ## 3. Skipping -/

/-- Skips the values of an annotation, where `skip` skips a value. -/
def skipAnnotationWith (c : ClassBytes) (skip : Nat → Except Error Nat) (offset : Nat) :
    Except Error Nat := do
  let count ← c.bytes.u16At offset
  iterateM (fun offset => do
    let _ ← c.utf8At offset
    skip (offset + 2)) count.toNat (offset + 2)

/-- Skips a value at an offset, when at most so many bytes are left. -/
def skipValueWithin (c : ClassBytes) : Nat → Nat → Except Error Nat
  | 0, offset => throw (.unexpectedEof offset 1)
  | left + 1, offset => do
    let byte ← c.bytes.u8At offset
    match Char.ofNat byte.toNat with
    | 'e' =>
      let _ ← c.utf8At (offset + 1)
      let _ ← c.utf8At (offset + 3)
      return offset + 5
    | '@' =>
      let _ ← c.utf8At (offset + 1)
      c.skipAnnotationWith (c.skipValueWithin left) (offset + 3)
    | '[' =>
      let count ← c.bytes.u16At (offset + 1)
      iterateM (c.skipValueWithin left) count.toNat (offset + 3)
    | tag =>
      match ← c.readLiteral? tag (offset + 1) with
      | some _ => return offset + 3
      | none => throw (.invalidAnnotationTag byte offset)

/-- The offset behind the value at an offset. -/
def skipValue (c : ClassBytes) (offset : Nat) : Except Error Nat :=
  c.skipValueWithin (c.bytes.size - offset) offset

/-- The offset behind the values of the annotation at an offset. -/
def skipAnnotationAt (c : ClassBytes) (offset : Nat) : Except Error Nat :=
  c.skipAnnotationWith (c.skipValueWithin (c.bytes.size - offset)) offset

end ClassFile.ClassBytes
