/-
# Decoding the code of a method

The code of a method is gone through twice.  The first pass only gives labels to the offsets that jumps
and switches mention (`scan`).  Then the tables behind the code are read: handlers, lines and local
variables mention offsets, too.  An offset gets its label when it is first mentioned, so the label is a
debug label if only lines and local variables mention the offset.  The second pass emits the events
(`deliver`), with the label and the lines of an offset in front of the instruction there.

All that can be wrong with the code is found by then, but for the names of local variables, which are
looked up at the end.
-/
import ClassFile.ClassBytes.Records
import ClassFile.ClassEvent
import ClassFile.Replay

namespace ClassFile

/-- Where the code of a method is: the offset of its first byte, and its length. -/
structure CodeSpan where
  start : Nat
  length : Nat

namespace ClassBytes

/-! ## 1. Instructions -/

/-- The code offset that lies `distance` bytes from `pc`.  It has to be in the code or at its
end. -/
def target (span : CodeSpan) (pc : Nat) (distance : Int) : Except Error Nat :=
  let place := (pc : Int) + distance
  if 0 ≤ place ∧ place ≤ span.length then .ok place.toNat
  else .error (.invalidCodeOffset pc place)

/-- The target whose distance from `pc` is the four byte word at an offset. -/
def targetAt (c : ClassBytes) (span : CodeSpan) (pc offset : Nat) : Except Error Nat := do
  target span pc (← c.bytes.i32At offset).toInt

/-- The bytes between the opcode of a switch and its operands, which are aligned. -/
def switchPadding (pc : Nat) : Nat := (4 - (pc + 1) % 4) % 4

/-- The operands of a `tableswitch` and their number of bytes. -/
def decodeTableSwitch (c : ClassBytes) (span : CodeSpan) (pc : Nat) :
    Except Error (Instruction Nat × Nat) := do
  let padding := switchPadding pc
  let operands := span.start + pc + 1 + padding
  let default ← c.targetAt span pc operands
  let low ← c.bytes.i32At (operands + 4)
  let high ← c.bytes.i32At (operands + 8)
  if high < low then throw (.invalidOpcode Opcode.tableswitch pc)
  let count := (high.toInt - low.toInt + 1).toNat
  let _ ← c.bytes.bytesAt (operands + 12) (4 * count)
  let targets ← (List.range count).mapM fun i => c.targetAt span pc (operands + 12 + 4 * i)
  return (.tableSwitch low high default targets, padding + 12 + 4 * count)

/-- The operands of a `lookupswitch` and their number of bytes. -/
def decodeLookupSwitch (c : ClassBytes) (span : CodeSpan) (pc : Nat) :
    Except Error (Instruction Nat × Nat) := do
  let padding := switchPadding pc
  let operands := span.start + pc + 1 + padding
  let default ← c.targetAt span pc operands
  let count ← c.bytes.i32At (operands + 4)
  if count < 0 then throw (.invalidOpcode Opcode.lookupswitch pc)
  let count := count.toInt.toNat
  let _ ← c.bytes.bytesAt (operands + 8) (8 * count)
  let pairs ← (List.range count).mapM fun i => do
    let key ← c.bytes.i32At (operands + 8 + 8 * i)
    let place ← c.targetAt span pc (operands + 12 + 8 * i)
    return (key, place)
  return (.lookupSwitch default (pairs.map (·.1)) (pairs.map (·.2)), padding + 8 + 8 * count)

/-- The instruction with a local variable that an opcode stands for when the variable is a part
of it. -/
def unpackVar (op : Opcode) : Instruction Nat :=
  let (first, general) :=
    if op ≤ Opcode.aload3 then (Opcode.iload0, Opcode.iload)
    else (Opcode.istore0, Opcode.istore)
  let packed := op - first
  .var (general + packed / 4) (packed % 4).toUInt16

/-- The instruction behind `wide` and its number of bytes, its own opcode included. -/
def decodeWide (c : ClassBytes) (span : CodeSpan) (pc : Nat) :
    Except Error (Instruction Nat × Nat) := do
  let operands := span.start + pc + 1
  let op ← c.bytes.u8At operands
  match Opcode.shape op with
  | .increment =>
    let index ← c.bytes.u16At (operands + 1)
    let amount ← c.bytes.i16At (operands + 3)
    return (.increment index amount, 5)
  | .var => return (.var op (← c.bytes.u16At (operands + 1)), 3)
  | _ => throw (.invalidOpcode op (pc + 1))

/-- The instruction whose opcode stands at `pc`, and the number of bytes of its operands. -/
def decodeOperands (c : ClassBytes) (span : CodeSpan) (pc : Nat) (op : Opcode) :
    Except Error (Instruction Nat × Nat) := do
  let b := c.bytes
  let operands := span.start + pc + 1
  match op.shape with
  | .simple => return (.simple op, 0)
  | .byte => return (.int op (← b.i8At operands).toInt32, 1)
  | .short => return (.int op (← b.i16At operands).toInt32, 2)
  | .arrayType => return (.int op (← b.u8At operands).toUInt32.toInt32, 1)
  | .constant => return (.constant (← c.readLoadable (← b.u8At operands).toUInt16), 1)
  | .wideConstant => return (.constant (← c.readLoadable (← b.u16At operands)), 2)
  | .var => return (.var op (← b.u8At operands).toUInt16, 1)
  | .packedVar => return (unpackVar op, 0)
  | .increment =>
    let index ← b.u8At operands
    let amount ← b.i8At (operands + 1)
    return (.increment index.toUInt16 amount.toInt16, 2)
  | .jump => return (.jump op (← target span pc (← b.i16At operands).toInt), 2)
  | .wideJump =>
    let place ← c.targetAt span pc operands
    return (.jump (if op = Opcode.gotoW then Opcode.goto else Opcode.jsr) place, 4)
  | .tableSwitch => c.decodeTableSwitch span pc
  | .lookupSwitch => c.decodeLookupSwitch span pc
  | .field =>
    let member ← c.readMember (← b.u16At operands)
    return (.field op member.owner member.name member.descriptor, 2)
  | .method =>
    let member ← c.readMember (← b.u16At operands)
    return (.method op member.owner member.name member.descriptor member.interface,
      if op = Opcode.invokeinterface then 4 else 2)
  | .invokeDynamic =>
    let (name, descriptor, entry) ← c.readInvokeDynamic (← b.u16At operands)
    let (bootstrap, arguments) ← c.readBootstrap entry
    return (.invokeDynamic name descriptor bootstrap arguments, 4)
  | .type => return (.type op (← c.readClass (← b.u16At operands)), 2)
  | .wide => c.decodeWide span pc
  | .multiArray =>
    let descriptor ← c.readClass (← b.u16At operands)
    return (.multiArray descriptor (← b.u8At (operands + 2)), 3)
  | .invalid => throw (.invalidOpcode op pc)

/-! ## 2. Handlers and debug tables -/

/-- A row of the table of handlers, whose places are of a type `τ`. -/
structure HandlerRow (τ : Type) where
  start : τ
  stop : τ
  handler : τ
  caught : Option String

/-- A row of a table of local variables; its name and its descriptor are still to be looked
up. -/
structure LocalRow (τ : Type) where
  start : τ
  stop : τ
  /-- The offset of the indices of the name and the descriptor. -/
  names : Nat
  index : UInt16

/-- What an attribute of code holds; others than tables of lines and of local variables are passed
over. -/
inductive CodeAttribute where
  /-- Offsets and the lines that start there. -/
  | lines (rows : List (Nat × UInt16))
  | locals (rows : List (LocalRow Nat))
  | other

/-- Reads a row of the table of handlers. -/
def decodeHandler (c : ClassBytes) (span : CodeSpan) (row : Nat) :
    Except Error (HandlerRow Nat) := do
  let place (offset : Nat) : Except Error Nat := do
    let value ← c.bytes.u16At offset
    if value.toNat ≤ span.length then return value.toNat
    else throw (.invalidCodeOffset row value.toNat)
  let start ← place row
  let stop ← place (row + 2)
  let handler ← place (row + 4)
  return ⟨start, stop, handler, ← c.classAt (row + 6)⟩

/-- Reads a row of a table of lines: an offset and the line that starts there. -/
def decodeLine (c : ClassBytes) (span : CodeSpan) (row : Nat) : Except Error (Nat × UInt16) := do
  let start ← c.bytes.u16At row
  if span.length < start.toNat then throw (.invalidCodeOffset row start.toNat)
  return (start.toNat, ← c.bytes.u16At (row + 2))

/-- Reads a row of a table of local variables. -/
def decodeLocal (c : ClassBytes) (span : CodeSpan) (row : Nat) : Except Error (LocalRow Nat) := do
  let start := (← c.bytes.u16At row).toNat
  let stop := start + (← c.bytes.u16At (row + 2)).toNat
  if span.length < start then throw (.invalidCodeOffset row start)
  if span.length < stop then throw (.invalidCodeOffset row stop)
  return ⟨start, stop, row + 4, ← c.bytes.u16At (row + 8)⟩

/-- Reads the rows of a table, which are counted and of one size. -/
def decodeTable {α : Type} (c : ClassBytes) (size : Nat) (row : Nat → Except Error α)
    (offset : Nat) : Except Error (List α) := do
  let count ← c.bytes.u16At offset
  (List.range count.toNat).mapM fun i => row (offset + 2 + size * i)

/-- Reads an attribute of code; gives the offset behind it. -/
def decodeCodeAttribute (c : ClassBytes) (span : CodeSpan) (offset : Nat) :
    Except Error (CodeAttribute × Nat) := do
  let name ← c.utf8At offset
  let payload := offset + 6
  let a ←
    if name = "LineNumberTable" then
      .lines <$> c.decodeTable 4 (c.decodeLine span) payload
    else if name = "LocalVariableTable" then
      .locals <$> c.decodeTable 10 (c.decodeLocal span) payload
    else pure .other
  return (a, payload + (← c.bytes.u32At (offset + 2)).toNat)

end ClassBytes

/-! ## 3. Labels -/

/-- Labels by code offset, and the number of labels that have been made. -/
structure LabelTable where
  labels : Array (Option Label)
  made : Nat

/-- No labels yet, for code of this length.  Its end is an offset, too. -/
def LabelTable.ofLength (length : Nat) : LabelTable := ⟨Array.replicate (length + 1) none, 0⟩

/-- Reading code, which may fail, emits events, and makes labels. -/
abbrev CodeReader := StateT LabelTable (Replay MethodEvent)

/-- The label of an offset, which is made when the offset is first mentioned. -/
def labelFor (debug : Bool) (place : Nat) : CodeReader Label := fun ⟨labels, made⟩ =>
  match labels[place]? with
  | some (some l) => return (l, ⟨labels, made⟩)
  | some none =>
    let l : Label := ⟨made, debug⟩
    return (l, ⟨labels.setIfInBounds place (some l), made + 1⟩)
  | none => throw (.labelOutOfRange place)

namespace ClassBytes

/-- The same row with other places. -/
def HandlerRow.mapM {σ τ : Type} {m : Type → Type} [Monad m] (f : σ → m τ) (r : HandlerRow σ) :
    m (HandlerRow τ) := do
  return ⟨← f r.start, ← f r.stop, ← f r.handler, r.caught⟩

/-- The same row with other places. -/
def LocalRow.mapM {σ τ : Type} {m : Type → Type} [Monad m] (f : σ → m τ) (r : LocalRow σ) :
    m (LocalRow τ) := do
  return ⟨← f r.start, ← f r.stop, r.names, r.index⟩

/-- What the tables of lines and of local variables hold, all taken together. -/
structure DebugTables where
  lines : List (Nat × UInt16)
  locals : List (LocalRow Label)

/-- Adds what an attribute holds. -/
def DebugTables.add (tables : DebugTables) : CodeAttribute → CodeReader DebugTables
  | .lines rows => do
    let _ ← rows.mapM fun row => labelFor true row.1
    return { tables with lines := tables.lines ++ rows }
  | .locals rows => do
    let rows ← rows.mapM (LocalRow.mapM (labelFor true))
    return { tables with locals := tables.locals ++ rows }
  | .other => return tables

/-! ## 4. Passes -/

/-- Decodes the instruction at `pc`, which `visit` sees with labels; gives the number of bytes of its
operands.  The instruction has to end in the code or with it. -/
def step (c : ClassBytes) (span : CodeSpan) (visit : Instruction Label → Replay MethodEvent Unit)
    (pc : Nat) : CodeReader Nat := do
  let op ← c.bytes.u8At (span.start + pc)
  let (i, operands) ← c.decodeOperands span pc op
  visit (← i.mapM (labelFor false))
  if span.length < pc + 1 + operands then
    throw (.invalidCodeOffset pc ((pc + 1 + operands : Nat) : Int))
  return operands

/-- The first pass from `pc` on, which makes labels and emits nothing. -/
def scan (c : ClassBytes) (span : CodeSpan) (pc : Nat) : CodeReader Unit :=
  if pc < span.length then do
    let operands ← c.step span (fun _ => return) pc
    scan c span (pc + 1 + operands)
  else return
termination_by span.length - pc

/-- Reads attributes of code one after the other, behind what `tables` hold. -/
def readDebugTables (c : ClassBytes) (span : CodeSpan) :
    Nat → DebugTables → Nat → CodeReader DebugTables
  | 0, tables, _ => return tables
  | count + 1, tables, offset => do
    let (a, next) ← c.decodeCodeAttribute span offset
    readDebugTables c span count (← tables.add a) next

/-- Gives labels to all offsets that are mentioned, with the first pass and the tables behind the
code.  The handlers are in the order of their table, the lines in the order of their offsets. -/
def prepare (c : ClassBytes) (span : CodeSpan) :
    CodeReader (List (HandlerRow Label) × DebugTables) := do
  c.scan span 0
  let table := span.start + span.length
  let rows ← c.decodeTable 8 (c.decodeHandler span) table
  let handlers ← rows.mapM (HandlerRow.mapM (labelFor false))
  let attributes := table + 2 + 8 * rows.length
  let count ← c.bytes.u16At attributes
  let tables ← c.readDebugTables span count.toNat ⟨[], []⟩ (attributes + 2)
  let lines := tables.lines.mergeSort fun a b => a.1 ≤ b.1
  return (handlers, { tables with lines })

/-- Emits the label at `pc`, if there is one, and the lines that start there; gives the lines that
start behind it. -/
def placeLabel (lines : List (Nat × UInt16)) (pc : Nat) : CodeReader (List (Nat × UInt16)) := do
  match (← get).labels[pc]? with
  | some none => return lines
  | some (some l) =>
    Replay.emit (MethodEvent.label l)
    let lines := lines.dropWhile fun line => line.1 < pc
    let here := lines.takeWhile fun line => line.1 = pc
    Replay.emitAll (here.map fun line => MethodEvent.line line.2 l)
    return lines.dropWhile fun line => line.1 = pc
  | none => throw (.labelOutOfRange pc)

/-- The second pass from `pc` on, which emits labels, lines and instructions. -/
def deliver (c : ClassBytes) (span : CodeSpan) (lines : List (Nat × UInt16)) (pc : Nat) :
    CodeReader Unit := do
  let lines ← placeLabel lines pc
  if pc < span.length then
    let operands ← c.step span (fun i => Replay.emit (.instruction i)) pc
    deliver c span lines (pc + 1 + operands)
termination_by span.length - pc

/-- Looks up the name and the descriptor of a local variable, and emits it. -/
def nameLocal (c : ClassBytes) (l : LocalRow Label) : Replay MethodEvent Unit := do
  let name ← c.utf8At l.names
  let descriptor ← c.utf8At (l.names + 2)
  Replay.emit (.localVariable name descriptor l.start l.stop l.index)

/-- Reads the code whose attribute has its payload at an offset. -/
def readCode (c : ClassBytes) (offset : Nat) : Replay MethodEvent Unit := do
  let maxStack ← c.bytes.u16At offset
  let maxLocals ← c.bytes.u16At (offset + 2)
  let length := (← c.bytes.u32At (offset + 4)).toNat
  let span : CodeSpan := ⟨offset + 8, length⟩
  let _ ← c.bytes.bytesAt span.start length
  let ((handlers, tables), labels) ← (c.prepare span).run (.ofLength length)
  Replay.emitAll (handlers.map fun h => .handler h.start h.stop h.handler h.caught)
  let _ ← (c.deliver span tables.lines 0).run labels
  tables.locals.forM c.nameLocal
  Replay.emit (.sizes maxStack maxLocals)

end ClassBytes

end ClassFile
