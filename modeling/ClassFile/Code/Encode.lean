/-
# Encoding the code of a method

A `CodeWriter` takes the events of a piece of code: each instruction is assembled and reported to
the block graph.  At the end, `CodeWriter.finish` makes the attribute of the code: the code itself,
the table of handlers, and the tables of lines, of local variables and of the stack map, of those
that have any entries.

In a graph with frames, a store of a local ends its block if there are handlers, because it changes
what handlers can see.
-/
import ClassFile.BlockGraph.Frames
import ClassFile.ClassEvent
import ClassFile.Code.Assembler

namespace ClassFile

/-- A handler with the class record of what is caught, if it does not catch everything. -/
structure HandlerLabels where
  start : Label
  stop : Label
  handler : Label
  caught : Option ConstantIndex

/-- A local variable with the records of its name and its descriptor. -/
structure LocalLabels where
  start : Label
  stop : Label
  name : ConstantIndex
  descriptor : ConstantIndex
  index : UInt16

/-- What is known about code that is being written. -/
structure CodeWriter where
  assembler : Assembler
  graph : BlockGraph
  handlers : Array HandlerLabels
  lines : Array (Label × UInt16)
  locals : Array LocalLabels
  /-- The number of locals that have been used so far. -/
  usedLocals : UInt16
  /-- The greatest height of the stack, as the events say. -/
  givenStack : UInt16
  /-- The number of locals, as the events say. -/
  givenLocals : UInt16

/-- What an event does to code: it may fail, and may add constants to the pool. -/
abbrev CodeM := StateT CodeWriter PoolM

namespace CodeWriter

/-! ## 1. Parts -/

/-- No code, in a method whose arguments take so many slots. -/
def start (mode : ComputeMode) (argumentSlots : UInt16) : CodeWriter :=
  { assembler := .empty, graph := .start mode, handlers := #[], lines := #[], locals := #[],
    usedLocals := argumentSlots, givenStack := 0, givenLocals := 0 }

/-- Runs an operation on the assembler. -/
def onAssembler {α : Type} (f : AssembleM α) : CodeM α
  | ⟨assembler, graph, handlers, lines, locals, usedLocals, givenStack, givenLocals⟩ => do
    let (a, assembler) ← f assembler
    return (a, ⟨assembler, graph, handlers, lines, locals, usedLocals, givenStack, givenLocals⟩)

/-- Runs an operation on the graph. -/
def onGraph {α : Type} (f : GraphM α) : CodeM α
  | ⟨assembler, graph, handlers, lines, locals, usedLocals, givenStack, givenLocals⟩ => do
    let run : TypeM (α × BlockGraph) := fun types =>
      let ((answer, graph), types) := f graph types
      (answer.map fun a => (a, graph), types)
    let (a, graph) ← ConstantPool.onTypes run
    return (a, ⟨assembler, graph, handlers, lines, locals, usedLocals, givenStack, givenLocals⟩)

/-- Notes that a local is used. -/
def useLocal (index slots : UInt16) (w : CodeWriter) : CodeWriter :=
  let behind := UInt16.ofNat (min (index.toNat + slots.toNat) 65535)
  { w with usedLocals := max w.usedLocals behind }

/-- The number of bytes so far. -/
def size (w : CodeWriter) : Nat := w.assembler.code.size

/-! ## 2. Events -/

/-- The opcodes that store a local. -/
def isStore (op : Opcode) : Bool := Opcode.istore ≤ op && op ≤ Opcode.astore

/-- The number of slots of the local that an opcode loads or stores. -/
def localSlots (op : Opcode) : UInt16 :=
  if op = Opcode.lload ∨ op = Opcode.dload ∨ op = Opcode.lstore ∨ op = Opcode.dstore then 2 else 1

/-- Notes the locals that an instruction uses. -/
def noteLocals : Instruction Label → CodeWriter → CodeWriter
  | .var op index => useLocal index (localSlots op)
  | .increment index _ => useLocal index 1
  | _ => id

/-- What is reported to the graph: a jump that asks for its long form is the same as a short one. -/
def reported : Instruction Label → Instruction Label
  | .jump op goal => .jump (Assembler.shortForm op).1 goal
  | i => i

/-- Does a new block start behind an instruction, because handlers see what it changes? -/
def endsProtected (i : Instruction Label) (w : CodeWriter) : Bool :=
  match i with
  | .var op _ => w.graph.mode == .frames && isStore op && w.graph.hasHandlers
  | _ => false

/-- Starts a block at a position without a label. -/
def splitAt (position : Nat) (g : BlockGraph) : BlockGraph :=
  let (i, g) := g.newBlock
  g.startBlock i position

/-- An instruction. -/
def instruction (i : Instruction Label) : CodeM Unit := do
  let start := (← get).size
  let around ← onAssembler (Assembler.encode i)
  modify (noteLocals i)
  let stop := (← get).size
  onGraph (BlockGraph.step start stop around (reported i))
  if endsProtected i (← get) then onGraph (modify (splitAt stop))

/-- A label.  Debug labels do not start blocks. -/
def label (l : Label) : CodeM Unit := do
  let position := (← get).size
  onAssembler fun a => do return ((), ← a.placeLabel l)
  unless l.debug do onGraph (modify (BlockGraph.label l position))

/-- A handler. -/
def handler (start stop target : Label) (caught : Option String) : CodeM Unit := do
  let index ← caught.mapM fun name => (ConstantPool.classRef name : PoolM ConstantIndex)
  modify fun w => { w with handlers := w.handlers.push ⟨start, stop, target, index⟩ }
  onGraph (modify (BlockGraph.addHandler ⟨start, stop, target, caught⟩))

/-- A local variable. -/
def localVariable (name descriptor : String) (start stop : Label) (index : UInt16) :
    CodeM Unit := do
  modify (useLocal index (if descriptor = "J" ∨ descriptor = "D" then 2 else 1))
  let name ← ConstantPool.utf8 name
  let descriptor ← ConstantPool.utf8 descriptor
  modify fun w => { w with locals := w.locals.push ⟨start, stop, name, descriptor, index⟩ }

/-- A line. -/
def line (number : UInt16) (start : Label) (w : CodeWriter) : CodeWriter :=
  { w with lines := w.lines.push (start, number) }

/-! ## 3. The attribute -/

/-- The position of a label that has to have been placed. -/
def resolved (w : CodeWriter) (l : Label) : Except Error Nat :=
  match w.assembler.place? l with
  | some place => .ok place
  | none => .error (.unresolvedLabel l)

/-- Refuses code in which something waits for a label, or which is too long. -/
def check (w : CodeWriter) : Except Error Unit := do
  if let some l := w.assembler.firstWaiting? then throw (.unresolvedLabel l)
  if 65535 < w.size then throw (.methodCodeOverflow w.size)

/-- A row of the table of handlers; ranges that cover no code have none. -/
def putHandler (w : CodeWriter) (table : UInt16 × Bytes) (h : HandlerLabels) :
    Except Error (UInt16 × Bytes) := do
  let (count, b) := table
  let start ← w.resolved h.start
  let stop ← w.resolved h.stop
  let handler ← w.resolved h.handler
  if start < stop then
    let b := ((b.putU16 (UInt16.ofNat start)).putU16 (UInt16.ofNat stop)).putU16
      (UInt16.ofNat handler)
    return (count + 1, b.putU16 (h.caught.getD 0))
  else return (count, b)

/-- The number of rows of the table of handlers, and the rows. -/
def handlerTable (w : CodeWriter) : Except Error (UInt16 × Bytes) :=
  w.handlers.foldlM (putHandler w) (0, .empty)

/-- A row of the table of lines. -/
def lineEntry (w : CodeWriter) (entry : Label × UInt16) : Except Error LineEntry := do
  return ⟨UInt16.ofNat (← w.resolved entry.1), entry.2⟩

/-- A row of the table of local variables. -/
def localEntry (w : CodeWriter) (l : LocalLabels) : Except Error LocalEntry := do
  let start ← w.resolved l.start
  let stop ← w.resolved l.stop
  return ⟨UInt16.ofNat start, UInt16.ofNat (stop - start), l.name, l.descriptor, l.index⟩

/-- The table of lines. -/
def lineEntries (w : CodeWriter) : Except Error (List LineEntry) := w.lines.toList.mapM w.lineEntry

/-- The table of local variables. -/
def localEntries (w : CodeWriter) : Except Error (List LocalEntry) :=
  w.locals.toList.mapM w.localEntry

/-- The table with these entries, if there are any. -/
def table {α : Type} (content : List α → Attribute) (entries : List α) :
    PoolM (List RawAttribute) :=
  if entries.isEmpty then return [] else do return [← ConstantPool.named (content entries)]

/-- The greatest height of the stack, and the stack map, of a method with so many locals. -/
def analyse (context : MethodContext) : CodeM (UInt16 × List MapFrame) := do
  match (← get).graph.mode with
  | .frames =>
    let (maxStack, entry) ← onGraph (BlockGraph.infer context)
    let graph := (← get).graph
    return (maxStack, ← graph.stackMap entry)
  | .maxStack =>
    let computed ← onGraph BlockGraph.computeMaxStack
    return (max computed (← get).givenStack, [])

/-- The attribute of the code; `context` says how many locals there are. -/
def finish (context : UInt16 → MethodContext) : CodeM RawAttribute := do
  (← get).check
  let context := context (max (← get).usedLocals (← get).givenLocals)
  let (maxStack, frames) ← analyse context
  let w ← get
  let (handlerCount, handlers) ← w.handlerTable
  let lines ← table .lineNumberTable (← w.lineEntries)
  let locals ← table .localVariableTable (← w.localEntries)
  let map ← table .stackMapTable frames
  let sizes := (Bytes.empty.putU16 maxStack).putU16 context.maxLocals
  let code := (sizes.putU32 (UInt32.ofNat w.size)).putBytes w.assembler.code
  let body := (code.putU16 handlerCount).putBytes handlers
  return ⟨← ConstantPool.utf8 "Code", RawAttribute.putAll body (lines ++ locals ++ map)⟩

end CodeWriter

end ClassFile
