/-
# Instructions and the block graph

Each instruction is reported to the graph behind those before it, with the offset at which it
starts or ends.  An instruction that cannot be reached changes nothing.  Where only heights are
recorded, an instruction changes the height of the stack, and a conditional jump does not end its
block; where there are frames, it changes the frame of the current block, and any jump ends it.
-/
import ClassFile.BlockGraph.Basic

namespace ClassFile

/-- What an instruction does to a graph: it may fail, and may add types to the table. -/
abbrev GraphM := ExceptT Error (StateT BlockGraph (StateM TypeTable))

namespace BlockGraph

/-! ## 1. The current block -/

/-- Does what can be done in a current block only. -/
def whenReached (act : GraphM Unit) : GraphM Unit := do
  if (← get).current.isSome then act

/-- Changes a block by an operation that has an answer. -/
def changeBlock {α : Type} (blocks : Array Block) (i : BlockId) (otherwise : α)
    (f : Block → α × Block) : α × Array Block :=
  match blocks[i]? with
  | none => (otherwise, blocks)
  | some b =>
    let blocks := blocks.setIfInBounds i (.empty none)
    let (a, b) := f b
    (a, blocks.setIfInBounds i b)

/-- Changes the frame of the current block, if there are frames. -/
def onFrame (act : FrameM Unit) : GraphM Unit := fun g types =>
  match g with
  | ⟨mode, blocks, labels, some i, last, height, peak, handlers⟩ =>
    let unreached : Except Error Unit × TypeTable := (.ok (), .empty)
    if i < blocks.size then
      let ((answer, types), blocks) := changeBlock blocks i unreached (Block.onFrame act types)
      ((answer, ⟨mode, blocks, labels, some i, last, height, peak, handlers⟩), types)
    else ((.ok (), ⟨mode, blocks, labels, some i, last, height, peak, handlers⟩), types)
  | g => ((.ok (), g), types)

/-- Does one thing where there are frames, and another where only heights are recorded. -/
def byMode (frames heights : GraphM Unit) : GraphM Unit := do
  match (← get).mode with
  | .frames => frames
  | .maxStack => heights

/-- Changes the height of the stack by what an opcode always does. -/
def growBy (change : Int32 → BlockGraph → BlockGraph) (op : Opcode) (stop : Nat) : GraphM Unit :=
  match op.stackDelta? with
  | some slots => modify (change (.ofInt slots))
  | none => throw (.invalidOpcode op stop)

/-! ## 2. Instructions by the shapes of their operands -/

/-- An instruction without operands. -/
def plain (op : Opcode) (stop : Nat) : GraphM Unit := whenReached do
  byMode (onFrame (Frame.plain op)) (growBy grow op stop)
  if op.isReturn || op == Opcode.athrow then modify (endBlock stop)

/-- An instruction whose operand is a number. -/
def number (op : Opcode) (operand : Int32) : GraphM Unit := whenReached do
  byMode (onFrame (Frame.number op operand)) do
    if op ≠ Opcode.newarray then modify (grow 1)

/-- An instruction that loads or stores a local, or returns from a subroutine. -/
def localOperand (op : Opcode) (index : UInt16) (stop : Nat) : GraphM Unit := whenReached do
  byMode (onFrame (Frame.localOperand op index)) do
    if op = Opcode.ret then modify (endBlock stop) else growBy grow op stop

/-- An instruction at an offset that makes or checks objects of a class or an array. -/
def typeOperand (op : Opcode) (offset : Nat) (name : String) : GraphM Unit := whenReached do
  byMode (onFrame (Frame.typeOperand op offset name)) do
    if op = Opcode.new then modify (grow 1)

/-- An instruction that accesses a field. -/
def field (op : Opcode) (name descriptor : String) : GraphM Unit := whenReached do
  byMode (onFrame (Frame.member op name descriptor)) do
    let slots : Int := (← Descriptor.fieldType descriptor).slots
    modify (grow (.ofInt (if op = Opcode.getstatic then slots
      else if op = Opcode.putstatic then -slots
      else if op = Opcode.getfield then slots - 1
      else -slots - 1)))

/-- An instruction that calls a method. -/
def call (op : Opcode) (name descriptor : String) : GraphM Unit := whenReached do
  byMode
    (onFrame (if op = Opcode.invokedynamic then Frame.dynamicCall descriptor
      else Frame.member op name descriptor)) do
    let (arguments, result) ← Descriptor.methodSlots descriptor
    let receiver := if op = Opcode.invokestatic ∨ op = Opcode.invokedynamic then 1 else 0
    modify (grow (.ofInt ((result : Int) - arguments + receiver)))

/-- Starts a new block behind a conditional jump. -/
def fallThrough (stop : Nat) (isTarget : Bool) (g : BlockGraph) : BlockGraph :=
  let (next, g) := g.newBlock
  let g := if isTarget then g.onBlock next fun b => { b with isTarget := true } else g
  g.startBlock next stop

/-- A jump that ends at an offset.  If it has been written as a jump around another one, what
follows is a target as well. -/
def jump (op : Opcode) (goal : Label) (stop : Nat) (around : Bool) : GraphM Unit := whenReached do
  let unconditional := op == Opcode.goto || op == Opcode.gotoW
  byMode
    (do
      onFrame (Frame.plain op)
      let i ← modifyGet (target goal)
      modify (addEdge .normal i)
      unless unconditional do modify (fallThrough stop around))
    (do
      growBy shift op stop
      let i ← modifyGet (blockOf goal)
      modify fun g =>
        let height := g.height
        g.addEdge (.atHeight height) i)
  if unconditional then modify (endBlock stop)

/-- Puts a constant on the stack. -/
def constant (value : Loadable) : GraphM Unit := whenReached do
  byMode (onFrame (Frame.constant value)) (modify (grow (if value.isWide then 2 else 1)))

/-- Adds to a local. -/
def increment (index : UInt16) : GraphM Unit := onFrame (Frame.increment index)

/-- A switch that ends at an offset. -/
def switch (op : Opcode) (targets : List Label) (stop : Nat) : GraphM Unit := whenReached do
  byMode
    (do
      onFrame (Frame.plain op)
      modify fun g => targets.foldl (fun g goal =>
        let (i, g) := g.target goal
        g.addEdge .normal i) g)
    (modify fun g => targets.foldl (fun g goal =>
      let (i, g) := g.blockOf goal
      let height := g.height
      g.addEdge (.atHeight height) i) (g.shift (-1)))
  modify (endBlock stop)

/-- Makes an array of arrays, of which so many dimensions are given. -/
def multiArray (descriptor : String) (dimensions : UInt8) : GraphM Unit := whenReached do
  byMode (onFrame (Frame.multiArray descriptor dimensions))
    (modify (grow (.ofInt (1 - (dimensions.toNat : Int)))))

/-! ## 3. All instructions -/

/-- The instruction between two offsets. -/
def step (start stop : Nat) (around : Bool) : Instruction Label → GraphM Unit
  | .simple op => plain op stop
  | .int op operand => number op operand
  | .var op index => localOperand op index stop
  | .type op name => typeOperand op start name
  | .field op _ name descriptor => field op name descriptor
  | .method op _ name descriptor _ => call op name descriptor
  | .invokeDynamic name descriptor _ _ => call Opcode.invokedynamic name descriptor
  | .jump op goal => jump op goal stop around
  | .constant value => constant value
  | .increment index _ => increment index
  | .tableSwitch _ _ default targets => switch Opcode.tableswitch (default :: targets) stop
  | .lookupSwitch default _ targets => switch Opcode.lookupswitch (default :: targets) stop
  | .multiArray descriptor dimensions => multiArray descriptor dimensions

end BlockGraph

end ClassFile
