/-
# Stack map frames as they are written

A stack map table says which types the locals and the operand stack have where blocks start.
Each frame is written relative to the one before it, in one of five shapes; `offsetDelta` counts
the bytes since the previous frame, less one.
-/
import ClassFile.Constant

namespace ClassFile

/-- The type of a local or of a stack entry, as a stack map table has it. -/
inductive VerificationType where
  | top
  | integer
  | float
  | double
  | long
  | null
  | uninitializedThis
  /-- An object or an array, given by its class record. -/
  | object (classRef : ConstantIndex)
  /-- What a `new` instruction made, before its constructor has run. -/
  | uninitialized (offset : UInt16)
  deriving DecidableEq, Repr

namespace VerificationType

/-- Do values of the type refer to objects or arrays? -/
def isReference : VerificationType → Bool
  | null | uninitializedThis | object _ | uninitialized _ => true
  | _ => false

/-- The number of slots that a value takes. -/
def slots : VerificationType → Nat
  | double | long => 2
  | _ => 1

/-- Appends the type: a tag, and for the last two kinds an index or an offset. -/
def put (b : Bytes) : VerificationType → Bytes
  | top => b.putU8 0
  | integer => b.putU8 1
  | float => b.putU8 2
  | double => b.putU8 3
  | long => b.putU8 4
  | null => b.putU8 5
  | uninitializedThis => b.putU8 6
  | object classRef => b.put12 7 classRef
  | uninitialized offset => b.put12 8 offset

end VerificationType

/-- A frame relative to the one before it. -/
inductive MapFrame where
  /-- The same locals and an empty stack. -/
  | same (offsetDelta : UInt16)
  /-- The same locals and one stack entry. -/
  | sameOneStack (offsetDelta : UInt16) (stack : VerificationType)
  /-- All but the last one to three locals, and an empty stack. -/
  | chop (offsetDelta : UInt16) (count : UInt8)
  /-- One to three more locals, and an empty stack. -/
  | append (offsetDelta : UInt16) (locals : List VerificationType)
  /-- Exactly these locals and this stack. -/
  | full (offsetDelta : UInt16) (locals stack : List VerificationType)
  deriving DecidableEq, Repr

namespace MapFrame

/-- Appends a table of types, preceded by their number. -/
def putTypes (b : Bytes) (types : List VerificationType) : Bytes :=
  types.foldl VerificationType.put (b.putU16 (UInt16.ofNat types.length))

/-- Appends a frame.  Short distances share a byte with the tag. -/
def put (b : Bytes) : MapFrame → Bytes
  | same delta => if delta ≤ 63 then b.putU8 delta.toUInt8 else b.put12 251 delta
  | sameOneStack delta stack =>
    stack.put (if delta ≤ 63 then b.putU8 (delta.toUInt8 + 64) else b.put12 247 delta)
  | chop delta count => b.put12 (251 - count) delta
  | append delta locals =>
    locals.foldl VerificationType.put (b.put12 (251 + UInt8.ofNat locals.length) delta)
  | full delta locals stack => putTypes (putTypes (b.put12 255 delta) locals) stack

end MapFrame

end ClassFile
