/-
# Assembling code

An `Assembler` encodes instructions one by one, each in the shortest form that its operands allow.
The distance to a label that has been placed is written at once.  Where a label has not been placed
yet, room is reserved, and filled in when the label is placed.

A jump reserves two bytes.  If the label is known to be further away, `goto` and `jsr` have a long
form; a conditional jump is written as the opposite one around a long `goto`.
-/
import ClassFile.ConstantPool.Basic
import ClassFile.Descriptor.WellFormed
import ClassFile.Instruction
import Std.Data.HashMap

namespace ClassFile

/-! ## 1. Distances -/

/-- Room for the distance from an instruction to a label. -/
structure Reference where
  /-- The offset of the instruction. -/
  source : Nat
  /-- The offset of the room. -/
  operand : Nat
  /-- Four bytes are reserved rather than two. -/
  isLong : Bool
  deriving DecidableEq, Repr

/-- Code so far, where labels have been placed, and the room that waits for other labels, the last
one first. -/
structure Assembler where
  code : Bytes
  places : Std.HashMap Label Nat
  waiting : Std.HashMap Label (List Reference)

namespace Assembler

/-- No code. -/
def empty : Assembler := ⟨.empty, ∅, ∅⟩

/-- The position of a label that has been placed. -/
def place? (a : Assembler) (l : Label) : Option Nat := a.places[l]?

/-- Is a distance small enough for two bytes? -/
def isShort (distance : Int) : Bool := -32768 ≤ distance && distance ≤ 32767

/-- Appends bytes as a function on the buffer gives them. -/
def put (f : Bytes → Bytes) : Assembler → Assembler
  | ⟨code, places, waiting⟩ => ⟨f code, places, waiting⟩

/-- Reserves room for the distance from an instruction to a label. -/
def wait (l : Label) (source : Nat) (isLong : Bool) : Assembler → Assembler
  | ⟨code, places, waiting⟩ =>
    let r : Reference := ⟨source, code.size, isLong⟩
    ⟨if isLong then code.putI32 0 else code.putI16 0, places,
      waiting.insert l (r :: waiting.getD l [])⟩

/-- Appends the long distance from an instruction to a label. -/
def putDistance (source : Nat) (a : Assembler) (l : Label) : Assembler :=
  match a.place? l with
  | some place => a.put fun b => b.putI32 (Int32.ofInt ((place : Int) - source))
  | none => a.wait l source true

/-- Fills in room, when the label it waits for has been placed. -/
def fill (place : Nat) (code : Bytes) (r : Reference) : Except Error Bytes :=
  let distance := (place : Int) - r.source
  if r.isLong then .ok (code.setI32 r.operand (Int32.ofInt distance))
  else if isShort distance then .ok (code.setI16 r.operand (Int16.ofInt distance))
  else .error (.jumpOffsetOverflow r.source place)

/-- Places a label at the end of the code. -/
def placeLabel (l : Label) : Assembler → Except Error Assembler
  | ⟨code, places, waiting⟩ => do
    let place := code.size
    let references := (waiting.getD l []).reverse
    let code ← references.foldlM (fill place) code
    return ⟨code, places.insert l place, waiting.erase l⟩

/-- The label whose room comes first, of those that have not been placed. -/
def firstWaiting? (a : Assembler) : Option Label :=
  let earlier (found : Option (Nat × Label)) (l : Label) (rs : List Reference) :=
    rs.foldl (fun found r =>
      match found with
      | some (operand, _) => if r.operand < operand then some (r.operand, l) else found
      | none => some (r.operand, l)) found
  (a.waiting.fold earlier none).map (·.2)

end Assembler

/-- What is encoded: code, with constants in a pool. -/
abbrev AssembleM := StateT Assembler PoolM

namespace Assembler

/-! ## 2. Forms of instructions -/

/-- A jump and whether its long form is asked for. -/
def shortForm (op : Opcode) : Opcode × Bool :=
  if op = Opcode.gotoW then (Opcode.goto, true)
  else if op = Opcode.jsrW then (Opcode.jsr, true)
  else (op, false)

/-- The long form of a jump. -/
def longForm (op : Opcode) : Opcode := if op = Opcode.goto then Opcode.gotoW else Opcode.jsrW

/-- The conditional jump that is taken when this one is not.  Opposite conditions are neighbours,
the first one odd. -/
def opposite (op : Opcode) : Opcode :=
  if op = Opcode.ifnull then Opcode.ifnonnull
  else if op = Opcode.ifnonnull then Opcode.ifnull
  else ((op + 1) ^^^ 1) - 1

/-- The first of the four opcodes of a load or store that name a local themselves. -/
def packedForm? (op : Opcode) : Option Opcode :=
  if Opcode.iload ≤ op && op ≤ Opcode.aload then some (Opcode.iload0 + 4 * (op - Opcode.iload))
  else if Opcode.istore ≤ op && op ≤ Opcode.astore then
    some (Opcode.istore0 + 4 * (op - Opcode.istore))
  else none

/-- Appends an instruction whose operand is a number. -/
def putNumber (op : Opcode) (operand : Int32) (b : Bytes) : Bytes :=
  if op = Opcode.sipush then (b.putU8 op).putI16 operand.toInt16
  else b.put11 op operand.toUInt32.toUInt8

/-- Appends an instruction whose operand is a local. -/
def putLocal (op : Opcode) (index : UInt16) (b : Bytes) : Bytes :=
  match packedForm? op, decide (index < 4) with
  | some packed, true => b.putU8 (packed + index.toUInt8)
  | _, _ =>
    if 255 < index then ((b.putU8 Opcode.wide).putU8 op).putU16 index
    else b.put11 op index.toUInt8

/-- Appends an instruction that adds to a local. -/
def putIncrement (index : UInt16) (amount : Int16) (b : Bytes) : Bytes :=
  if index ≤ 255 ∧ -128 ≤ amount ∧ amount ≤ 127 then
    (b.put11 Opcode.iinc index.toUInt8).putU8 amount.toUInt16.toUInt8
  else ((b.put11 Opcode.wide Opcode.iinc).putU16 index).putI16 amount

/-- Appends an instruction that loads a constant. -/
def putConstant (isWide : Bool) (index : ConstantIndex) (b : Bytes) : Bytes :=
  if isWide then b.put12 Opcode.ldc2W index
  else if index ≤ 255 then b.put11 Opcode.ldc index.toUInt8
  else b.put12 Opcode.ldcW index

/-- Appends a jump.  The answer says whether it has become a jump around a long one. -/
def putJump (op : Opcode) (goal : Label) (a : Assembler) : Bool × Assembler :=
  let source := a.code.size
  let (op, isLong) := shortForm op
  match a.place? goal with
  | some place =>
    let distance := (place : Int) - source
    if isShort distance && !isLong then
      (false, a.put fun b => (b.putU8 op).putI16 (Int16.ofInt distance))
    else if op = Opcode.goto ∨ op = Opcode.jsr then
      (false, a.put fun b => (b.putU8 (longForm op)).putI32 (Int32.ofInt distance))
    else
      (true, a.put fun b =>
        (((b.putU8 (opposite op)).putI16 8).putU8 Opcode.gotoW).putI32
          (Int32.ofInt (distance - 3)))
  | none =>
    if isLong then (false, (a.put fun b => b.putU8 (longForm op)).wait goal source true)
    else (false, (a.put fun b => b.putU8 op).wait goal source false)

/-- Appends a `tableswitch`. -/
def putTableSwitch (low high : Int32) (default : Label) (targets : List Label) (a : Assembler) :
    Assembler :=
  let source := a.code.size
  let a := (a.put fun b => (b.putU8 Opcode.tableswitch).align4).putDistance source default
  targets.foldl (putDistance source) (a.put fun b => (b.putI32 low).putI32 high)

/-- Appends a `lookupswitch`, with a key for each target. -/
def putLookupSwitch (default : Label) (pairs : List (Int32 × Label)) (a : Assembler) :
    Assembler :=
  let source := a.code.size
  let a := (a.put fun b => (b.putU8 Opcode.lookupswitch).align4).putDistance source default
  pairs.foldl (fun a (key, target) => (a.put fun b => b.putI32 key).putDistance source target)
    (a.put fun b => b.putI32 (Int32.ofInt pairs.length))

/-! ## 3. Instructions -/

/-- Appends bytes. -/
def append (f : Bytes → Bytes) : AssembleM Unit := modify (put f)

/-- Encodes a call of a method.  For a method of an interface, the number of slots of the arguments
is written as well. -/
def encodeCall (op : Opcode) (owner name descriptor : String) (interface : Bool) :
    AssembleM Unit := do
  let index ← ConstantPool.methodRef owner name descriptor interface
  append fun b => b.put12 op index
  if op = Opcode.invokeinterface then
    let (arguments, _) ← Descriptor.methodSlots descriptor
    append fun b => b.put11 (UInt8.ofNat arguments) 0

/-- Encodes an instruction.  The answer says whether it has become a jump around a long one. -/
def encode : Instruction Label → AssembleM Bool
  | .simple op => do
    append fun b => b.putU8 op
    return false
  | .int op operand => do
    append (putNumber op operand)
    return false
  | .var op index => do
    append (putLocal op index)
    return false
  | .type op name => do
    let index ← ConstantPool.classRef name
    append fun b => b.put12 op index
    return false
  | .field op owner name descriptor => do
    let index ← ConstantPool.fieldRef owner name descriptor
    append fun b => b.put12 op index
    return false
  | .method op owner name descriptor interface => do
    encodeCall op owner name descriptor interface
    return false
  | .invokeDynamic name descriptor bootstrap arguments => do
    let entry ← ConstantPool.bootstrapMethod bootstrap arguments
    let index ← ConstantPool.invokeDynamic name descriptor entry
    append fun b => (b.put12 Opcode.invokedynamic index).putU16 0
    return false
  | .jump op goal => modifyGet (putJump op goal)
  | .constant value => do
    let index ← ConstantPool.loadable value
    append (putConstant value.isWide index)
    return false
  | .increment index amount => do
    append (putIncrement index amount)
    return false
  | .tableSwitch low high default targets => do
    modify (putTableSwitch low high default targets)
    return false
  | .lookupSwitch default keys targets => do
    if keys.length ≠ targets.length then throw (.switchArity keys.length targets.length)
    modify (putLookupSwitch default (keys.zip targets))
    return false
  | .multiArray descriptor dimensions => do
    let index ← ConstantPool.classRef descriptor
    append fun b => (b.put12 Opcode.multianewarray index).putU8 dimensions
    return false

end Assembler

end ClassFile
