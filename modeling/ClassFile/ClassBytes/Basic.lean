/-
# Reading words, and the index of a class file

`Bytes.u16At` and its kin read one word at an offset; all they can do wrong is to run past the
end of the input.

A `ClassBytes` is the bytes of a class file together with where things are: the offset of each
record of the constant pool, of the class itself behind the pool, of its attributes, and of the
entries of its bootstrap table.  `ClassBytes.ofBytes` finds them: it walks over the records with
`indexRecords`, then over fields and methods, then over the attributes.
-/
import ClassFile.Error

namespace ClassFile

/-! ## 1. Words -/

namespace Bytes

/-- The bytes from `offset` up to `offset + length`. -/
def bytesAt (b : Bytes) (offset length : Nat) : Except Error Bytes :=
  match b.slice? offset length with
  | some s => .ok s
  | none => .error (.unexpectedEof offset length)

/-- The `w` byte word at an offset. -/
def wordAt (b : Bytes) (w offset : Nat) : Except Error Nat :=
  match b.word? w offset with
  | some n => .ok n
  | none => .error (.unexpectedEof offset w)

/-- The byte at an offset. -/
def u8At (b : Bytes) (offset : Nat) : Except Error UInt8 :=
  (b.wordAt 1 offset).map UInt8.ofNat

/-- The two byte word at an offset. -/
def u16At (b : Bytes) (offset : Nat) : Except Error UInt16 :=
  (b.wordAt 2 offset).map UInt16.ofNat

/-- The four byte word at an offset. -/
def u32At (b : Bytes) (offset : Nat) : Except Error UInt32 :=
  (b.wordAt 4 offset).map UInt32.ofNat

/-- The eight byte word at an offset. -/
def u64At (b : Bytes) (offset : Nat) : Except Error UInt64 :=
  (b.wordAt 8 offset).map UInt64.ofNat

/-- The signed byte at an offset. -/
def i8At (b : Bytes) (offset : Nat) : Except Error Int8 := (b.u8At offset).map UInt8.toInt8

/-- The signed two byte word at an offset. -/
def i16At (b : Bytes) (offset : Nat) : Except Error Int16 := (b.u16At offset).map UInt16.toInt16

/-- The signed four byte word at an offset. -/
def i32At (b : Bytes) (offset : Nat) : Except Error Int32 := (b.u32At offset).map UInt32.toInt32

/-- The signed eight byte word at an offset. -/
def i64At (b : Bytes) (offset : Nat) : Except Error Int64 := (b.u64At offset).map UInt64.toInt64

/-- The 32 bit floating-point number at an offset. -/
def singleAt (b : Bytes) (offset : Nat) : Except Error Single := (b.u32At offset).map Single.mk

/-- The 64 bit floating-point number at an offset. -/
def doubleAt (b : Bytes) (offset : Nat) : Except Error Double := (b.u64At offset).map Double.mk

end Bytes

/-- A place in a string of bytes, from which words are read one after the other. -/
structure Cursor where
  bytes : Bytes
  position : Nat

namespace Cursor

/-- Reads at the position and moves behind what was read; an error moves nothing. -/
def next {α : Type} (c : Cursor) (length : Nat) (read : Bytes → Nat → Except Error α) :
    Except Error α × Cursor :=
  match read c.bytes c.position with
  | .ok a => (.ok a, { c with position := c.position + length })
  | .error e => (.error e, c)

/-- The next byte. -/
def nextU8 (c : Cursor) : Except Error UInt8 × Cursor := c.next 1 Bytes.u8At

/-- The next two byte word. -/
def nextU16 (c : Cursor) : Except Error UInt16 × Cursor := c.next 2 Bytes.u16At

/-- The next four byte word. -/
def nextU32 (c : Cursor) : Except Error UInt32 × Cursor := c.next 4 Bytes.u32At

/-- The next signed four byte word. -/
def nextI32 (c : Cursor) : Except Error Int32 × Cursor := c.next 4 Bytes.i32At

end Cursor

/-! ## 2. Records of the constant pool -/

/-- The four bytes with which a class file starts. -/
def magicNumber : UInt32 := 0xCAFEBABE

/-- The tag of the record at an offset. -/
def recordTag (b : Bytes) (offset : Nat) : Except Error Constant.Tag := do
  let byte ← b.u8At offset
  match Constant.Tag.ofByte? byte with
  | some tag => return tag
  | none => throw (.invalidConstantTag byte offset)

/-- The number of bytes of the record at an offset, its tag included. -/
def recordLength (b : Bytes) (offset : Nat) : Constant.Tag → Except Error Nat
  | .utf8 => (b.u16At (offset + 1)).map fun length => 3 + length.toNat
  | .long | .double => .ok 9
  | .methodHandle => .ok 4
  | .classRef | .string | .methodType | .module | .package => .ok 3
  | .integer | .float | .fieldRef | .methodRef | .interfaceMethodRef | .nameAndType
  | .dynamic | .invokeDynamic => .ok 5

/-- Walks over the records from `index` on; `offsets` has the offset of each record before it,
and 0 for each index without a record.  Also the offset behind the last record. -/
def indexRecords (b : Bytes) (count index offset : Nat) (offsets : Array Nat) :
    Except Error (Array Nat × Nat) :=
  if index < count then do
    let tag ← recordTag b offset
    let length ← recordLength b offset tag
    indexRecords b count (index + tag.width) (offset + length)
      (offsets.setIfInBounds index offset)
  else .ok (offsets, offset)
termination_by count - index
decreasing_by have := tag.width_pos; omega

/-! ## 3. The class behind the pool -/

/-- Applies a step a number of times, as long as it succeeds. -/
def iterateM {α : Type} (step : α → Except Error α) : Nat → α → Except Error α
  | 0, a => .ok a
  | n + 1, a =>
    match step a with
    | .ok a => iterateM step n a
    | .error e => .error e

/-- The offset behind an attribute. -/
def skipAttribute (b : Bytes) (offset : Nat) : Except Error Nat :=
  (b.u32At (offset + 2)).map fun length => offset + 6 + length.toNat

/-- The offset behind the table of attributes at an offset. -/
def skipAttributes (b : Bytes) (offset : Nat) : Except Error Nat := do
  let count ← b.u16At offset
  iterateM (skipAttribute b) count.toNat (offset + 2)

/-- The offset behind the table of fields or of methods at an offset. -/
def skipMembers (b : Bytes) (offset : Nat) : Except Error Nat := do
  let count ← b.u16At offset
  iterateM (fun offset => skipAttributes b (offset + 6)) count.toNat (offset + 2)

/-- The offset of the attributes of the class that starts at `header`. -/
def findAttributes (b : Bytes) (header : Nat) : Except Error Nat := do
  let interfaces ← b.u16At (header + 6)
  let fields := header + 8 + 2 * interfaces.toNat
  skipMembers b (← skipMembers b fields)

/-- The bytes of a class file, and where things are in it. -/
structure ClassBytes where
  bytes : Bytes
  /-- The offset of each record by its index, and 0 for an index without a record. -/
  itemOffsets : Array Nat
  /-- The offset behind the constant pool. -/
  header : Nat
  /-- The offset of the attributes of the class. -/
  classAttributes : Nat
  /-- The offset of each entry of the bootstrap table. -/
  bootstrapOffsets : Array Nat
  /-- The offset of the payload of the bootstrap table. -/
  bootstrapTable : Option Nat

namespace ClassBytes

/-- The count in front of the constant pool, which is one more than the largest index. -/
def itemCount (c : ClassBytes) : UInt16 := UInt16.ofNat c.itemOffsets.size

/-- The offset of a record. -/
def itemOffset (c : ClassBytes) (index : ConstantIndex) : Except Error Nat :=
  match c.itemOffsets[index.toNat]? with
  | some (offset + 1) => .ok (offset + 1)
  | _ => .error (.invalidConstantIndex index)

/-- The offset of a record that has to have a tag. -/
def itemWithTag (c : ClassBytes) (index : ConstantIndex) (tag : Constant.Tag)
    (expected : Expected) : Except Error Nat := do
  let offset ← c.itemOffset index
  if (← c.bytes.u8At offset) = tag.byte then return offset
  else throw (.unexpectedConstant index expected)

/-- The text of a string record. -/
def readUtf8 (c : ClassBytes) (index : ConstantIndex) : Except Error String := do
  let offset ← c.itemWithTag index .utf8 .utf8
  let length ← c.bytes.u16At (offset + 1)
  let start := offset + 3
  match ModifiedUtf8.decode (← c.bytes.bytesAt start length.toNat) with
  | .ok text => return text
  | .error position => throw (.malformedUtf8 (start + position))

/-- The text of the string record whose index stands at an offset. -/
def utf8At (c : ClassBytes) (offset : Nat) : Except Error String := do
  c.readUtf8 (← c.bytes.u16At offset)

/-- The offsets of so many entries of a bootstrap table from `entry` on, behind those found. -/
def indexBootstrapEntries (b : Bytes) (count entry : Nat) (found : Array Nat) :
    Except Error (Array Nat) :=
  (iterateM (fun (entry, found) => do
    let arguments ← b.u16At (entry + 2)
    return (entry + 4 + 2 * arguments.toNat, found.push entry)) count (entry, found)).map (·.2)

/-- Looks at an attribute of the class and moves behind it.  The entries of each bootstrap table
are found in turn; the last one counts as the table. -/
def indexAttribute (c : ClassBytes) (offset : Nat) : Except Error (ClassBytes × Nat) := do
  let length ← c.bytes.u32At (offset + 2)
  let next := offset + 6 + length.toNat
  if (← c.utf8At offset) = "BootstrapMethods" then
    let payload := offset + 6
    let count ← c.bytes.u16At payload
    let found ← indexBootstrapEntries c.bytes count.toNat (payload + 2) c.bootstrapOffsets
    return ({ c with bootstrapOffsets := found, bootstrapTable := some payload }, next)
  else return (c, next)

/-- Checks the magic number and finds where things are. -/
def ofBytes (b : Bytes) : Except Error ClassBytes := do
  let magic ← b.u32At 0
  if magic ≠ magicNumber then throw (.badMagic magic.toNat)
  let count := (← b.u16At 8).toNat
  let (itemOffsets, header) ← indexRecords b count 1 10 (Array.replicate (max count 1) 0)
  let classAttributes ← findAttributes b header
  let attributes ← b.u16At classAttributes
  let c : ClassBytes := ⟨b, itemOffsets, header, classAttributes, #[], none⟩
  let (c, _) ← iterateM (fun (c, offset) => c.indexAttribute offset) attributes.toNat
    (c, classAttributes + 2)
  return c

end ClassBytes

end ClassFile
