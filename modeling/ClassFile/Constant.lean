/-
# Records of a constant pool

A record is either a literal or refers to other records by index.  Records that have the same
fields are the same constant; literals in floating point are compared by their bits.

`Constant.put` writes a record.  A `long` or a `double` takes two indices, every other record one.
-/
import ClassFile.Loadable
import ClassFile.OffsetTable
import ClassFile.Text.ModifiedUtf8

namespace ClassFile

/-- The number of a record in a constant pool; 0 is no record. -/
abbrev ConstantIndex := UInt16

/-- A record of a constant pool. -/
inductive Constant where
  | utf8 (text : String)
  | integer (value : Int32)
  | float (value : Single)
  | long (value : Int64)
  | double (value : Double)
  | classRef (name : ConstantIndex)
  | string (text : ConstantIndex)
  | fieldRef (owner nameAndType : ConstantIndex)
  | methodRef (owner nameAndType : ConstantIndex) (interface : Bool)
  | nameAndType (name descriptor : ConstantIndex)
  | methodHandle (kind : HandleKind) (member : ConstantIndex)
  | methodType (descriptor : ConstantIndex)
  | dynamic (bootstrap : UInt16) (nameAndType : ConstantIndex)
  | invokeDynamic (bootstrap : UInt16) (nameAndType : ConstantIndex)
  | module (name : ConstantIndex)
  | package (name : ConstantIndex)
  deriving DecidableEq, Hashable, Repr

namespace Constant

/-- The bytes that say which kind a record is. -/
inductive Tag where
  | utf8
  | integer
  | float
  | long
  | double
  | classRef
  | string
  | fieldRef
  | methodRef
  | interfaceMethodRef
  | nameAndType
  | methodHandle
  | methodType
  | dynamic
  | invokeDynamic
  | module
  | package
  deriving DecidableEq, Repr

namespace Tag

/-- The value of a tag. -/
def byte : Tag → UInt8
  | utf8 => 1
  | integer => 3
  | float => 4
  | long => 5
  | double => 6
  | classRef => 7
  | string => 8
  | fieldRef => 9
  | methodRef => 10
  | interfaceMethodRef => 11
  | nameAndType => 12
  | methodHandle => 15
  | methodType => 16
  | dynamic => 17
  | invokeDynamic => 18
  | module => 19
  | package => 20

/-- The tag that a byte stands for. -/
def ofByte? (b : UInt8) : Option Tag :=
  match b.toNat with
  | 1 => some utf8
  | 3 => some integer
  | 4 => some float
  | 5 => some long
  | 6 => some double
  | 7 => some classRef
  | 8 => some string
  | 9 => some fieldRef
  | 10 => some methodRef
  | 11 => some interfaceMethodRef
  | 12 => some nameAndType
  | 15 => some methodHandle
  | 16 => some methodType
  | 17 => some dynamic
  | 18 => some invokeDynamic
  | 19 => some module
  | 20 => some package
  | _ => none

@[simp] theorem ofByte?_byte (t : Tag) : ofByte? t.byte = some t := by
  cases t <;> rfl

theorem byte_of_ofByte? {b : UInt8} {t : Tag} (h : ofByte? b = some t) : t.byte = b := by
  apply UInt8.toNat_inj.1
  unfold ofByte? at h
  split at h <;> cases h
  all_goals
    rename_i hb
    exact hb.symm

/-- The number of indices that a record with this tag takes. -/
def width : Tag → Nat
  | long | double => 2
  | _ => 1

theorem width_pos (t : Tag) : 0 < t.width := by
  cases t <;> decide

end Tag

/-- The tag of a record. -/
def tag : Constant → Tag
  | utf8 _ => .utf8
  | integer _ => .integer
  | float _ => .float
  | long _ => .long
  | double _ => .double
  | classRef _ => .classRef
  | string _ => .string
  | fieldRef _ _ => .fieldRef
  | methodRef _ _ interface => if interface then .interfaceMethodRef else .methodRef
  | nameAndType _ _ => .nameAndType
  | methodHandle _ _ => .methodHandle
  | methodType _ => .methodType
  | dynamic _ _ => .dynamic
  | invokeDynamic _ _ => .invokeDynamic
  | module _ => .module
  | package _ => .package

/-- A `long` or a `double` takes two indices, of which the second stands for nothing. -/
instance : HasWidth Constant where
  width c := c.tag.width

theorem width_pos (c : Constant) : 0 < width c := c.tag.width_pos

/-- Appends the fields of a record. -/
def putFields (b : Bytes) : Constant → Bytes
  | utf8 text =>
    let encoded := ModifiedUtf8.encode text
    (b.putU16 (UInt16.ofNat encoded.size)).putBytes encoded
  | integer value => b.putI32 value
  | float value => b.putU32 value.bits
  | long value => b.putI64 value
  | double value => b.putU64 value.bits
  | classRef i | string i | methodType i | module i | package i => b.putU16 i
  | fieldRef i j | methodRef i j _ | nameAndType i j | dynamic i j | invokeDynamic i j =>
    (b.putU16 i).putU16 j
  | methodHandle kind member => b.put12 kind.tag member

/-- Appends a record: its tag and its fields. -/
def put (b : Bytes) (c : Constant) : Bytes := putFields (b.putU8 c.tag.byte) c

/-! ## Text -/

open Text

/-- The text of an index. -/
def indexText (i : ConstantIndex) : String := call "ConstantIndex" [toString i.toNat]

/-- The text of the index of a string record. -/
def utf8IndexText (i : ConstantIndex) : String := call "Utf8ConstantIndex" [indexText i]

/-- The text of the index of a class record. -/
def classIndexText (i : ConstantIndex) : String := call "ClassConstantIndex" [indexText i]

/-- The text of the index of a record of name and type. -/
def nameAndTypeIndexText (i : ConstantIndex) : String :=
  call "NameAndTypeConstantIndex" [indexText i]

/-- The text of a record, as errors show it. -/
def text : Constant → String
  | utf8 text => call "Utf8" [quote text]
  | integer value => call "Integer" [toString value.toInt]
  | float value => call "Float" [value.text]
  | long value => call "Long" [toString value.toInt]
  | double value => call "Double" [value.text]
  | classRef name => call "Class" [utf8IndexText name]
  | string text => call "String" [utf8IndexText text]
  | fieldRef owner member =>
    call "FieldRef" [classIndexText owner, nameAndTypeIndexText member]
  | methodRef owner member interface =>
    braced "MethodRef" [("class", classIndexText owner),
      ("name_and_type", nameAndTypeIndexText member), ("is_interface", truth interface)]
  | nameAndType name descriptor =>
    braced "NameAndType" [("name", utf8IndexText name), ("descriptor", utf8IndexText descriptor)]
  | methodHandle kind member =>
    braced "MethodHandle" [("handle_kind", kind.text), ("member", indexText member)]
  | methodType descriptor => braced "MethodType" [("descriptor", utf8IndexText descriptor)]
  | dynamic bootstrap member =>
    braced "Dynamic" [("bootstrap_method", toString bootstrap.toNat),
      ("name_and_type", nameAndTypeIndexText member)]
  | invokeDynamic bootstrap member =>
    braced "InvokeDynamic" [("bootstrap_method", toString bootstrap.toNat),
      ("name_and_type", nameAndTypeIndexText member)]
  | module name => call "Module" [utf8IndexText name]
  | package name => call "Package" [utf8IndexText name]

end Constant

end ClassFile
