/-
# What instructions do to a frame

Most instructions without operands take a number of slots from the stack and leave at most one
value, whatever was there: `StackEffect` is the table of them.  A few rearrange what they take
(`shuffle?`).  The others depend on their operands, and have a function for each shape of operands.

Instructions are actions of `FrameM`: they may fail, and what has been done to the frame before
the failure stays.  Subroutines (`jsr`, `ret`) are not supported.
-/
import ClassFile.Frame.Basic
import ClassFile.Instruction

namespace ClassFile

/-! ## 1. Instructions without operands -/

/-- What an instruction takes from the stack and leaves there, whatever the slots hold. -/
structure StackEffect where
  taken : Nat
  left : Option SlotType
  deriving DecidableEq, Repr

namespace Opcode

/-- The instructions that take so many slots and leave nothing. -/
def consumers : List (List Opcode × Nat) :=
  [([nop, ineg, lneg, fneg, dneg, i2b, i2c, i2s, goto, gotoW, return_], 0),
    ([pop, ifeq, ifne, iflt, ifge, ifgt, ifle, ireturn, freturn, areturn, tableswitch,
      lookupswitch, athrow, monitorenter, monitorexit, ifnull, ifnonnull], 1),
    ([pop2, ifIcmpeq, ifIcmpne, ifIcmplt, ifIcmpge, ifIcmpgt, ifIcmple, ifAcmpeq, ifAcmpne,
      lreturn, dreturn], 2),
    ([iastore, bastore, castore, sastore, fastore, aastore], 3),
    ([lastore, dastore], 4)]

/-- The instructions that take so many slots and leave a value. -/
def producers : List (List Opcode × Nat × SlotType) :=
  [([aconstNull], 0, .null),
    ([iconstM1, iconst0, iconst1, iconst2, iconst3, iconst4, iconst5], 0, .int),
    ([f2i, arraylength], 1, .int),
    ([iaload, baload, caload, saload, iadd, isub, imul, idiv, irem, iand, ior, ixor, ishl, ishr,
      iushr, l2i, d2i, fcmpl, fcmpg], 2, .int),
    ([lcmp, dcmpl, dcmpg], 4, .int),
    ([lconst0, lconst1], 0, .long),
    ([i2l, f2l], 1, .long),
    ([laload, d2l], 2, .long),
    ([lshl, lshr, lushr], 3, .long),
    ([ladd, lsub, lmul, ldiv, lrem, land, lor, lxor], 4, .long),
    ([fconst0, fconst1, fconst2], 0, .float),
    ([i2f], 1, .float),
    ([faload, fadd, fsub, fmul, fdiv, frem, l2f, d2f], 2, .float),
    ([dconst0, dconst1], 0, .double),
    ([i2d, f2d], 1, .double),
    ([daload, l2d], 2, .double),
    ([dadd, dsub, dmul, ddiv, drem], 4, .double)]

/-- The effect of an instruction that does not look at what it takes. -/
def stackEffect? (op : Opcode) : Option StackEffect :=
  match consumers.find? fun row => row.1.contains op with
  | some (_, taken) => some ⟨taken, none⟩
  | none =>
    match producers.find? fun row => row.1.contains op with
    | some (_, taken, left) => some ⟨taken, some left⟩
    | none => none

/-- For an instruction that rearranges slots: how many it takes, and which of them it puts back, in
order, where 0 is the one that was last on the stack. -/
def shuffle? (op : Opcode) : Option (Nat × List Nat) :=
  if op = dup then some (1, [0, 0])
  else if op = dupX1 then some (2, [0, 1, 0])
  else if op = dupX2 then some (3, [0, 2, 1, 0])
  else if op = dup2 then some (2, [1, 0, 1, 0])
  else if op = dup2X1 then some (3, [1, 0, 2, 1, 0])
  else if op = dup2X2 then some (4, [1, 0, 3, 2, 1, 0])
  else if op = swap then some (2, [0, 1])
  else none

end Opcode

namespace Frame

/-- Takes slots and leaves a value. -/
def applyEffect (e : StackEffect) (f : Frame) : Frame :=
  match e.left with
  | some t => (f.drop e.taken).pushValue t
  | none => f.drop e.taken

/-- Takes slots and puts some of them back. -/
def applyShuffle (count : Nat) (order : List Nat) (f : Frame) : Frame :=
  let (ts, f) := f.popAll count
  f.pushAll (order.map fun i => ts.getD i .top)

/-- Takes an array and an index, and leaves the entry of the array. -/
def loadEntry (f : Frame) : Frame :=
  let (array, f) := (f.drop 1).pop
  f.push array.entry

/-- What an instruction without operands does, or a jump, a switch or a return with what it
takes. -/
def plain? (op : Opcode) : Option (Frame → Frame) :=
  match op.stackEffect?, op.shuffle? with
  | some e, _ => some (applyEffect e)
  | none, some (count, order) => some (applyShuffle count order)
  | none, none => if op = Opcode.aaload then some loadEntry else none

end Frame

/-- What an instruction does to a frame: it may fail, and may add types to the table. -/
abbrev FrameM := ExceptT Error (StateT Frame (StateM TypeTable))

namespace Frame

/-- Runs an operation on the table of types. -/
def onTypes {α : Type} (f : TypeM α) : FrameM α := fun frame types =>
  let (answer, types) := f types
  ((answer, frame), types)

/-- An instruction without operands, or a jump, a switch or a return. -/
def plain (op : Opcode) : FrameM Unit :=
  match plain? op with
  | some change => modify change
  | none =>
    if op = Opcode.jsr ∨ op = Opcode.jsrW ∨ op = Opcode.ret then
      throw (.unsupportedInstruction op)
    else throw (.invalidOpcode op 0)

/-! ## 2. Numbers and local variables -/

/-- An instruction whose operand is a number: what is pushed, or the code of the type of the
entries of an array, where an unknown code stands for `long`. -/
def number (op : Opcode) (operand : Int32) : FrameM Unit :=
  if op = Opcode.bipush ∨ op = Opcode.sipush then modify (push .int)
  else if op = Opcode.newarray then
    let code := operand.toUInt32.toUInt8
    let entries := (BaseType.ofArrayCode? code).getD .long
    modify fun f => (f.drop 1).push ⟨1, .base entries⟩
  else throw (.invalidOpcode op 0)

/-- Loads a reference from a local. -/
def loadReference (index : UInt16) (f : Frame) : Frame :=
  let t := f.localAt index
  f.push t

/-- Stores a value of one slot in a local. -/
def store (index : UInt16) (f : Frame) : Frame :=
  let (t, f) := f.pop
  (f.setLocal index t).halveBefore index

/-- Stores a value of two slots in a local and the one behind it. -/
def storeWide (index : UInt16) (f : Frame) : Frame :=
  let (t, f) := (f.drop 1).pop
  let next := if index = 65535 then index else index + 1
  ((f.setLocal index t).setLocal next .top).halveBefore index

/-- An instruction that loads or stores a local. -/
def localOperand (op : Opcode) (index : UInt16) : FrameM Unit :=
  if op = Opcode.iload then modify (pushValue .int)
  else if op = Opcode.lload then modify (pushValue .long)
  else if op = Opcode.fload then modify (pushValue .float)
  else if op = Opcode.dload then modify (pushValue .double)
  else if op = Opcode.aload then modify (loadReference index)
  else if op = Opcode.istore ∨ op = Opcode.fstore ∨ op = Opcode.astore then modify (store index)
  else if op = Opcode.lstore ∨ op = Opcode.dstore then modify (storeWide index)
  else if op = Opcode.ret then throw (.unsupportedInstruction op)
  else throw (.invalidOpcode op 0)

/-- Adds to a local, which is an `int` from then on. -/
def increment (index : UInt16) : FrameM Unit := modify (setLocal index .int)

/-! ## 3. Classes, fields and methods -/

/-- Puts the value of a descriptor on the stack. -/
def pushDescriptor (descriptor : String) : FrameM Unit := do
  match ← onTypes (SlotType.ofDescriptor descriptor) with
  | some t => modify (pushValue t)
  | none => return

/-- Takes the value of a field descriptor, or the arguments of a method descriptor without a
receiver. -/
def popDescriptor (descriptor : String) : FrameM Unit := do
  if Descriptor.isMethod descriptor then
    let (arguments, _) ← Descriptor.methodSlots descriptor
    modify (drop (arguments - 1))
  else
    let type ← Descriptor.fieldType descriptor
    modify (drop type.slots)

/-- An instruction at an offset that makes or checks objects of a class or an array. -/
def typeOperand (op : Opcode) (offset : Nat) (name : String) : FrameM Unit := do
  if op = Opcode.new then
    let type ← onTypes (TypeTable.uninitialized name offset)
    modify (push (.scalar (.uninitialized type)))
  else if op = Opcode.anewarray then
    modify (drop 1)
    if Descriptor.isArrayName name then pushDescriptor ("[" ++ name)
    else
      let t ← onTypes (SlotType.object name)
      modify (push t.arrayOf)
  else if op = Opcode.checkcast then
    modify (drop 1)
    if Descriptor.isArrayName name then pushDescriptor name
    else
      let t ← onTypes (SlotType.object name)
      modify (push t)
  else if op = Opcode.instanceof then modify fun f => (f.drop 1).push .int
  else throw (.invalidOpcode op offset)

/-- Takes the receiver of a method, and remembers it if the method is a constructor. -/
def takeReceiver (construction : Bool) (f : Frame) : Frame :=
  let (t, f) := f.pop
  if construction then f.construct t else f

/-- An instruction that accesses a field or calls a method. -/
def member (op : Opcode) (name descriptor : String) : FrameM Unit := do
  if op = Opcode.getstatic then pushDescriptor descriptor
  else if op = Opcode.putstatic then popDescriptor descriptor
  else if op = Opcode.getfield then
    modify (drop 1)
    pushDescriptor descriptor
  else if op = Opcode.putfield then
    popDescriptor descriptor
    modify (drop 1)
  else if op = Opcode.invokestatic then
    popDescriptor descriptor
    pushDescriptor descriptor
  else if op = Opcode.invokevirtual ∨ op = Opcode.invokespecial ∨ op = Opcode.invokeinterface then
    popDescriptor descriptor
    let special := name.toList.head? == some '<'
    modify (takeReceiver (op == Opcode.invokespecial && special))
    pushDescriptor descriptor
  else throw (.invalidOpcode op 0)

/-- A call whose target is made at run time. -/
def dynamicCall (descriptor : String) : FrameM Unit := do
  popDescriptor descriptor
  pushDescriptor descriptor

/-- Puts a constant on the stack. -/
def constant (value : Loadable) : FrameM Unit := do
  let object (name : String) : FrameM Unit := do
    let t ← onTypes (SlotType.object name)
    modify (push t)
  match value with
  | .integer _ => modify (pushValue .int)
  | .float _ => modify (pushValue .float)
  | .long _ => modify (pushValue .long)
  | .double _ => modify (pushValue .double)
  | .string _ => object "java/lang/String"
  | .type _ => object "java/lang/Class"
  | .methodType _ => object "java/lang/invoke/MethodType"
  | .handle _ => object "java/lang/invoke/MethodHandle"
  | .dynamic _ descriptor _ _ => pushDescriptor descriptor

/-- Makes an array of arrays, of which so many dimensions are given. -/
def multiArray (descriptor : String) (dimensions : UInt8) : FrameM Unit := do
  modify (drop dimensions.toNat)
  pushDescriptor descriptor

/-! ## 4. All instructions -/

/-- The instruction at an offset. -/
def step {τ : Type} (offset : Nat) : Instruction τ → FrameM Unit
  | .simple op | .jump op _ => plain op
  | .int op operand => number op operand
  | .var op index => localOperand op index
  | .type op name => typeOperand op offset name
  | .field op _ name descriptor | .method op _ name descriptor _ => member op name descriptor
  | .invokeDynamic _ descriptor _ _ => dynamicCall descriptor
  | .constant value => constant value
  | .increment index _ => increment index
  | .tableSwitch .. => plain Opcode.tableswitch
  | .lookupSwitch .. => plain Opcode.lookupswitch
  | .multiArray descriptor dimensions => multiArray descriptor dimensions

end Frame

end ClassFile
