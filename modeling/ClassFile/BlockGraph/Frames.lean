/-
# Frames of all blocks

The entries of the blocks are the least ones that no edge changes any more.  Starting from the
entry of the method, a block is followed along its edges each time that its own entry has
changed.  An entry can change only so often, because merging goes up; `changeLimit` bounds how
often.

The stack map then has a frame for each block that has been reached and that something leads to,
written relative to the one before it.
-/
import ClassFile.BlockGraph.MaxStack
import ClassFile.Frame.Merge

namespace ClassFile

/-! ## 1. Inference -/

/-- What types are inferred for. -/
structure MethodContext where
  hierarchy : Hierarchy
  className : String
  access : UInt16
  name : String
  descriptor : String
  maxLocals : UInt16

namespace BlockGraph

/-- Blocks whose entries have changed and that are still to be followed, and the greatest height
of the stack so far. -/
structure Inference where
  blocks : Array Block
  /-- The last one comes first. -/
  pending : List BlockId
  greatest : Nat

namespace Inference

/-- Marks a block as waiting. -/
def enqueue (i : BlockId) : Inference → Inference
  | ⟨blocks, pending, greatest⟩ =>
    ⟨blocks.modify i fun b => { b with isPending := true }, i :: pending, greatest⟩

/-- What has been thrown and caught along an edge, if it leads to a handler. -/
def caught (e : Edge) : Option SlotType :=
  match e.kind with
  | .caught t => some t
  | _ => none

/-- Follows an edge from a block with this frame. -/
def follow (context : MethodContext) (f : Frame) (e : Edge) : Inference → TypeM Inference
  | ⟨blocks, pending, greatest⟩ => do
    let i := BlockGraph.follow blocks (blocks.size + 1) e.successor
    match blocks[i]? with
    | some ⟨_, _, _, _, isPending, _, some successor, _, _, _, _, _⟩ =>
      let (changed, merged) ←
        f.mergeInto context.hierarchy context.className (caught e) successor
      let blocks := blocks.modify i fun b => { b with frame := some merged }
      if changed && !isPending then return enqueue i ⟨blocks, pending, greatest⟩
      else return ⟨blocks, pending, greatest⟩
    | _ => return ⟨blocks, pending, greatest⟩

/-- Follows all edges of a block. -/
def visit (context : MethodContext) (i : BlockId) : Inference → TypeM Inference
  | ⟨blocks, pending, greatest⟩ => do
    let blocks := blocks.modify i fun b =>
      { b with isPending := false, isReachable := true, isWritten := b.isWritten || b.isTarget }
    match blocks[i]? with
    | some ⟨_, _, _, _, _, _, some f, _, edges, _, _, _⟩ =>
      let height := Int32.ofNat (f.entrySlots.stack.size + f.peak)
      edges.toList.foldlM (fun s e => follow context f e s)
        ⟨blocks, pending, max greatest height.toNatClampNeg⟩
    | _ => return ⟨blocks, pending, greatest⟩

/-- Follows what is pending, at most so many blocks. -/
def run (context : MethodContext) : Nat → Inference → TypeM Inference
  | 0, s => return s
  | limit + 1, s => do
    match s with
    | ⟨_, [], _⟩ => return s
    | ⟨blocks, i :: pending, greatest⟩ =>
      let s ← visit context i ⟨blocks, pending, greatest⟩
      run context limit s

end Inference

/-- How often a slot can change: from nothing known over `null` to a reference, down through its
dimensions and up through the classes in each of them, and to `top`. -/
def slotChangeLimit (hierarchy : Hierarchy) : Nat := 128 * (hierarchy.depth + 4) + 4

/-- How often all entries can change, when a method has so many locals. -/
def changeLimit (g : BlockGraph) (hierarchy : Hierarchy) (locals : Nat) : Nat :=
  let pushed := g.blocks.foldl (fun n b => n + (b.frame.map fun f => f.stack.size).getD 0) 0
  g.blocks.size * ((locals + pushed + 1) * slotChangeLimit hierarchy + 1)

/-- Runs an operation on the table of types. -/
def onTypes {α : Type} (f : TypeM α) : GraphM α := fun g types =>
  let (answer, types) := f types
  ((answer, g), types)

/-- Gives the first block the entry of the method. -/
def enterMethod (context : MethodContext) : GraphM Frame := do
  let f ← modifyGet fun g =>
    ((g.blocks[0]?.bind Block.frame).getD .empty, g.onBlock 0 fun b => { b with frame := none })
  let locals ← onTypes (Frame.methodLocals context.className context.access context.name
    context.descriptor context.maxLocals)
  let f := f.enteredWith ⟨locals, #[]⟩
  modify (onBlock 0 fun b => { b with frame := some f })
  return f

/-- Follows all edges until no entry changes any more; gives the greatest height of the stack. -/
def settle (context : MethodContext) (locals : Nat) : GraphM Nat := do
  modify (onBlock 0 fun b => { b with isPending := true })
  let g ← get
  let limit := g.changeLimit context.hierarchy locals + 1
  let s ← onTypes (Inference.run context limit ⟨g.blocks, [0], 0⟩)
  set { g with blocks := s.blocks }
  return s.greatest

/-- Infers the entries of all blocks; gives the greatest height of the stack and the locals on
entry of the method as they are written. -/
def infer (context : MethodContext) : GraphM (UInt16 × List SlotType) := do
  addAllHandlerEdges
  let f ← enterMethod context
  let greatest ← settle context f.entrySlots.locals.size
  return (writtenHeight greatest, f.writtenLocals)

/-! ## 2. The stack map -/

/-- The positions and frames of the blocks that have an entry in the stack map, in order. -/
def writtenFrames (g : BlockGraph) : List (Nat × Frame) :=
  (g.chain 0).filterMap fun i => do
    let b ← g.blocks[i]?
    let f ← b.frame
    if b.isWritten then some (b.position, f) else none

end BlockGraph

namespace MapFrame

/-- The shortest frame that gives these locals and this stack, behind one with these locals. -/
def between (previous locals stack : List VerificationType) (offsetDelta : UInt16) : MapFrame :=
  let full := MapFrame.full offsetDelta locals stack
  match stack with
  | [] =>
    if locals = previous then .same offsetDelta
    else if locals.length < previous.length ∧ previous.length - locals.length ≤ 3 ∧
        locals.isPrefixOf previous then
      .chop offsetDelta (UInt8.ofNat (previous.length - locals.length))
    else if previous.length < locals.length ∧ locals.length - previous.length ≤ 3 ∧
        previous.isPrefixOf locals then
      .append offsetDelta (locals.drop previous.length)
    else full
  | [t] => if locals = previous then .sameOneStack offsetDelta t else full
  | _ => full

end MapFrame

namespace BlockGraph

/-- The distance from the previous frame, which is one less than that of their positions; the first
one has its position. -/
def offsetDelta (previous : Option Nat) (position : Nat) : UInt16 :=
  match previous with
  | none => UInt16.ofNat position
  | some p => UInt16.ofNat position - UInt16.ofNat p - 1

/-- Writes frames, behind one with these locals at that position.  `done` holds those already
written, the last one first. -/
def writeFrames (previous : List VerificationType) (position : Option Nat) (done : List MapFrame) :
    List (Nat × Frame) → PoolM (List MapFrame)
  | [] => return done.reverse
  | (place, f) :: rest => do
    let locals ← f.writtenLocals.mapM SlotType.verificationType
    let stack ← f.writtenStack.mapM SlotType.verificationType
    let frame := MapFrame.between previous locals stack (offsetDelta position place)
    writeFrames locals (some place) (frame :: done) rest

/-- The frames of the stack map, for a method that is entered with these locals. -/
def stackMap (g : BlockGraph) (entry : List SlotType) : PoolM (List MapFrame) := do
  writeFrames (← entry.mapM SlotType.verificationType) none [] g.writtenFrames

end BlockGraph

end ClassFile
