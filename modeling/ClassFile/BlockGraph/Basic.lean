/-
# Blocks and edges

The code of a method falls into blocks: runs of instructions that are entered at the first one
only.  A `BlockGraph` holds the blocks and the edges between them.  It grows while the
instructions come in, so jumps can mention labels whose place is not known yet; each label has a
block of its own from its first mention on.

* The blocks that have been placed form a chain in the order of their positions: `next` leads
  from the entry, block 0, to `last`.
* Two labels at one place share one block.  The other one is only an alias of it, and has no
  place in the chain; `BlockGraph.first` goes from a block to the one that stands for it.
* What follows an unconditional jump is unreachable until the next label, and there is no
  `current` block.

There are two kinds of graphs.  One records the heights of the operand stack only; the other one
has a frame for each block.
-/
import ClassFile.Frame.Step

namespace ClassFile

/-! ## 1. Blocks -/

/-- What is computed about the code of a method. -/
inductive ComputeMode where
  /-- The greatest height of the stack. -/
  | maxStack
  /-- The types on entry of each block, and the greatest height of the stack. -/
  | frames
  deriving DecidableEq, Repr

/-- The number of a block. -/
abbrev BlockId := Nat

/-- How control gets from a block to another one.  Heights are counted in 32 bits, and go round. -/
inductive EdgeKind where
  /-- By a jump or falling through, with the height of the stack relative to that on entry. -/
  | atHeight (height : Int32)
  /-- By something that is thrown. -/
  | thrown
  /-- By a jump or falling through, with the slots on exit. -/
  | normal
  /-- By something thrown that has this type. -/
  | caught (type : SlotType)
  deriving DecidableEq, Repr

/-- An edge to a block. -/
structure Edge where
  kind : EdgeKind
  successor : BlockId
  deriving DecidableEq, Repr

/-- A run of instructions. -/
structure Block where
  position : Nat
  /-- Do jumps, switches or handlers lead here? -/
  isTarget : Bool
  /-- Does the block have an entry in the stack map? -/
  isWritten : Bool
  /-- Has a path from the entry been followed to the end of the block? -/
  isReachable : Bool
  /-- Is the block waiting to be followed? -/
  isPending : Bool
  /-- Is the position known? -/
  isPlaced : Bool
  /-- Absent where only heights are recorded. -/
  frame : Option Frame
  next : Option BlockId
  edges : Array Edge
  /-- The height of the stack on entry, where only heights are recorded. -/
  entryHeight : Int32
  /-- The greatest height of the stack above that on entry, where only heights are recorded. -/
  peak : Int32
  /-- The block that this one is another name for. -/
  sameAs : Option BlockId

namespace Block

/-- A block of which nothing is known. -/
def empty (frame : Option Frame) : Block :=
  { position := 0, isTarget := false, isWritten := false, isReachable := false,
    isPending := false, isPlaced := false, frame, next := none, edges := #[], entryHeight := 0,
    peak := 0, sameAs := none }

/-- Adds an edge. -/
def addEdge (e : Edge) : Block → Block
  | ⟨position, isTarget, isWritten, isReachable, isPending, isPlaced, frame, next, edges,
      entryHeight, peak, sameAs⟩ =>
    ⟨position, isTarget, isWritten, isReachable, isPending, isPlaced, frame, next, edges.push e,
      entryHeight, peak, sameAs⟩

/-- Runs an operation on the frame, if the block has one. -/
def onFrame (act : FrameM Unit) (types : TypeTable) :
    Block → (Except Error Unit × TypeTable) × Block
  | ⟨position, isTarget, isWritten, isReachable, isPending, isPlaced, frame, next, edges,
      entryHeight, peak, sameAs⟩ =>
    let (answer, types, frame) : Except Error Unit × TypeTable × Option Frame :=
      match frame with
      | none => (.ok (), types, none)
      | some f =>
        let ((answer, f), types) := act f types
        (answer, types, some f)
    ((answer, types), ⟨position, isTarget, isWritten, isReachable, isPending, isPlaced, frame,
      next, edges, entryHeight, peak, sameAs⟩)

end Block

/-! ## 2. Graphs -/

/-- A handler: what is thrown between two labels goes to a third one, if its type is the caught
one. -/
structure HandlerRange where
  start : Label
  stop : Label
  handler : Label
  caught : Option String
  deriving DecidableEq, Repr

/-- The blocks of a method, and where the last instruction has left off. -/
structure BlockGraph where
  mode : ComputeMode
  blocks : Array Block
  labels : InternTable Label BlockId
  /-- Absent behind an unconditional jump. -/
  current : Option BlockId
  /-- The last block of the chain. -/
  last : BlockId
  /-- The height of the stack above that on entry of the current block, where only heights are
  recorded. -/
  height : Int32
  /-- The greatest such height in the current block. -/
  peak : Int32
  handlers : Array HandlerRange

namespace BlockGraph

/-- Does anything handle what is thrown? -/
def hasHandlers (g : BlockGraph) : Bool := !g.handlers.isEmpty

/-- Changes all blocks. -/
def onBlocks (f : Array Block → Array Block) : BlockGraph → BlockGraph
  | ⟨mode, blocks, labels, current, last, height, peak, handlers⟩ =>
    ⟨mode, f blocks, labels, current, last, height, peak, handlers⟩

/-- Changes a block. -/
def onBlock (i : BlockId) (f : Block → Block) : BlockGraph → BlockGraph :=
  onBlocks fun blocks => blocks.modify i f

/-- The position of a block. -/
def positionOf (g : BlockGraph) (i : BlockId) : Nat := (g.blocks[i]?.map Block.position).getD 0

/-- A new block of which nothing is known. -/
def newBlock : BlockGraph → BlockId × BlockGraph
  | ⟨mode, blocks, labels, current, last, height, peak, handlers⟩ =>
    let frame := if mode = .frames then some Frame.empty else none
    let i := blocks.size
    (i, ⟨mode, blocks.push (.empty frame), labels, current, last, height, peak, handlers⟩)

/-- The graph of a method without instructions. -/
def start (mode : ComputeMode) : BlockGraph :=
  let frame := if mode = .frames then some Frame.empty else none
  { mode, blocks := #[{ Block.empty frame with isPlaced := true }], labels := .empty,
    current := some 0, last := 0, height := 0, peak := 0, handlers := #[] }

/-- Gives a label a number. -/
def bind (l : Label) (i : BlockId) : BlockGraph → BlockGraph
  | ⟨mode, blocks, labels, current, last, height, peak, handlers⟩ =>
    ⟨mode, blocks, (labels.insert l i).2, current, last, height, peak, handlers⟩

/-- The block of a label, which is new on the first mention. -/
def blockOf (l : Label) (g : BlockGraph) : BlockId × BlockGraph :=
  match g.labels.get? l with
  | some i => (i, g)
  | none =>
    let (i, g) := g.newBlock
    (i, g.bind l i)

/-- Follows aliases, at most so many. -/
def follow (blocks : Array Block) : Nat → BlockId → BlockId
  | 0, i => i
  | limit + 1, i =>
    match blocks[i]?.bind Block.sameAs with
    | some j => follow blocks limit j
    | none => i

/-- The block that stands for a block. -/
def first (g : BlockGraph) (i : BlockId) : BlockId := follow g.blocks (g.blocks.size + 1) i

/-! ## 3. Placing blocks -/

/-- Adds an edge from the current block. -/
def addEdge (kind : EdgeKind) (successor : BlockId) (g : BlockGraph) : BlockGraph :=
  match g.current with
  | some i => g.onBlock i (Block.addEdge ⟨kind, successor⟩)
  | none => g

/-- Gives a block its position. -/
def place (i : BlockId) (position : Nat) : BlockGraph → BlockGraph :=
  onBlock i fun b => { b with position, isPlaced := true }

/-- Makes a block another name for the one that was at its place first. -/
def makeAlias (i kept : BlockId) (g : BlockGraph) : BlockGraph :=
  if i = kept then g
  else
    let isTarget := (g.blocks[i]?.map Block.isTarget).getD false
    (g.onBlock kept fun b => { b with isTarget := b.isTarget || isTarget }).onBlock i
      fun b => { b with sameAs := some kept }

/-- Puts a block at the end of the chain. -/
def append (i : BlockId) (g : BlockGraph) : BlockGraph :=
  let last := g.last
  { g.onBlock last fun b => { b with next := some i } with last := i }

/-- Remembers the greatest height of the stack in the current block. -/
def closeHeights (g : BlockGraph) : BlockGraph :=
  match g.current with
  | some i =>
    let peak := g.peak
    g.onBlock i fun b => { b with peak }
  | none => g

/-- Goes on in a block that starts at a position, unless the last block of the chain is there
already. -/
def enter (i : BlockId) (position : Nat) (g : BlockGraph) : BlockGraph :=
  let last := g.last
  if last ≠ i ∧ g.positionOf last = position then
    { g.makeAlias i last with current := some last }
  else { g with current := some i }.append i

/-- Starts a block at a position.  If the current block starts there too, the new one is another
name for it. -/
def startBlock (i : BlockId) (position : Nat) (g : BlockGraph) : BlockGraph :=
  let g := g.place i position
  match g.mode with
  | .frames =>
    match g.current with
    | some current =>
      if g.positionOf current = position then g.makeAlias i current
      else (g.addEdge .normal i).enter i position
    | none => g.enter i position
  | .maxStack =>
    let height := g.height
    let g := g.closeHeights.addEdge (.atHeight height) i
    { g with current := some i, height := 0, peak := 0 }.append i

/-- Ends the current block at a position, without falling through to what follows. -/
def endBlock (stop : Nat) (g : BlockGraph) : BlockGraph :=
  let g := match g.mode with
    | .frames =>
      let (i, g) := g.newBlock
      (g.place i stop).append i
    | .maxStack => g.closeHeights
  { g with current := none }

/-- Places a label. -/
def label (l : Label) (position : Nat) (g : BlockGraph) : BlockGraph :=
  let (i, g) := g.blockOf l
  g.startBlock i position

/-- The block of a label to which something leads. -/
def target (l : Label) (g : BlockGraph) : BlockId × BlockGraph :=
  let (i, g) := g.blockOf l
  let kept := g.first i
  (i, g.onBlock kept fun b => { b with isTarget := true })

theorem toInt_max (a b : Int32) : (max a b).toInt = max a.toInt b.toInt := by
  show (if a ≤ b then b else a).toInt = _
  split
  · rename_i hle
    exact (Int.max_eq_right (Int32.le_iff_toInt_le.1 hle)).symm
  · rename_i hlt
    exact (Int.max_eq_left (Int.le_of_lt (Int.not_le.1 (mt Int32.le_iff_toInt_le.2 hlt)))).symm

/-- Changes the height of the stack. -/
def grow (slots : Int32) (g : BlockGraph) : BlockGraph :=
  let height := g.height + slots
  { g with height, peak := max g.peak height }

/-- Changes the height of the stack at the end of a block. -/
def shift (slots : Int32) (g : BlockGraph) : BlockGraph := { g with height := g.height + slots }

/-- Registers a handler.  Its edges are added when all blocks are known. -/
def addHandler (h : HandlerRange) (g : BlockGraph) : BlockGraph :=
  let (_, g) := g.blockOf h.start
  let (_, g) := g.blockOf h.stop
  let (_, g) := g.blockOf h.handler
  match g with
  | ⟨mode, blocks, labels, current, last, height, peak, handlers⟩ =>
    ⟨mode, blocks, labels, current, last, height, peak, handlers.push h⟩

end BlockGraph

end ClassFile
