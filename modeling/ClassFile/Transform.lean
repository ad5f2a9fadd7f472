/-
# Transforming classes

A transform reads a class and writes it again, with changes to its events on the way.  Written
without changes, a class keeps its events; what depends on the code, such as the height of the
stack, is computed anew.

A transformed class can keep the constant pool of the class that was read.  Then every constant
keeps its index, used or not, and only new ones are added.
-/
import ClassFile.ClassBytes.Events
import ClassFile.ClassWriter
import ClassFile.ConstantPool.Copy

namespace ClassFile

/-! ## 1. Changes -/

namespace Instruction

/-- Puts one instruction without operands in the place of another one. -/
def replace (old new : Opcode) : Instruction Label → Instruction Label
  | .simple op => .simple (if op = old then new else op)
  | i => i

/-- Renames the class that an instruction names as its operand, or as the owner of a method. -/
def renameClass (rename : String → String) : Instruction Label → Instruction Label
  | .type op name => .type op (rename name)
  | .method op owner name descriptor interface =>
    .method op (rename owner) name descriptor interface
  | i => i

end Instruction

namespace MethodEvent

/-- Changes the instruction, if it is one. -/
def onInstruction (f : Instruction Label → Instruction Label) : MethodEvent → MethodEvent
  | .instruction i => .instruction (f i)
  | e => e

/-- Is this the line of some code? -/
def isLine : MethodEvent → Bool
  | .line .. => true
  | _ => false

end MethodEvent

namespace ClassEvent

/-- Changes the events of the method, if it is one. -/
def onMethod (f : List MethodEvent → List MethodEvent) : ClassEvent → ClassEvent
  | .method info events => .method info (f events)
  | e => e

/-- Changes every instruction. -/
def onInstructions (f : Instruction Label → Instruction Label) : ClassEvent → ClassEvent :=
  onMethod (List.map (MethodEvent.onInstruction f))

/-- Leaves the lines of code out. -/
def withoutLines : ClassEvent → ClassEvent := onMethod (List.filter fun e => !e.isLine)

/-- Is this an annotation of the class itself? -/
def isAnnotation : ClassEvent → Bool
  | .annotated _ => true
  | _ => false

end ClassEvent

/-- What to read of a class, and what to make of its events. -/
structure Transform where
  selection : Selection
  /-- Leaves an event out if there is none in its place. -/
  change : ClassEvent → Option ClassEvent

namespace Transform

/-- Leaves everything as it is. -/
def id : Transform := ⟨.all, some⟩

/-- Makes a further change to what is left. -/
def andThen (t : Transform) (f : ClassEvent → ClassEvent) : Transform :=
  { t with change := fun e => (t.change e).map f }

/-- Leaves out what is one of these events. -/
def without (t : Transform) (drop : ClassEvent → Bool) : Transform :=
  { t with change := fun e => (t.change e).filter fun e => !drop e }

/-- Leaves the fields and methods of some names out, without going into them. -/
def withoutMembers (t : Transform) (fields methods : List String) : Transform :=
  let selection : Selection :=
    { field := fun info => !fields.contains info.name && t.selection.field info
      method := fun info => !methods.contains info.name && t.selection.method info }
  { t with selection }.without fun
    | .field info _ => fields.contains info.name
    | .method info _ => methods.contains info.name
    | _ => false

end Transform

/-! ## 2. Reading and writing -/

namespace ClassWriter

/-- Takes the events of a class.  If reading it fails, what was read is taken first, so that an
error on writing that comes before it is the one that counts. -/
def takeClass (w : ClassWriter) (source : ClassBytes) (t : Transform) : PoolM ClassWriter := do
  let (answer, events) := (source.events t.selection).all
  let w ← w.events (events.filterMap t.change)
  answer
  return w

end ClassWriter

/-- The transformed class, and its pool, which starts as a copy if the pool is kept. -/
def ClassBytes.transformed (source : ClassBytes) (options : WriterOptions) (keepPool : Bool)
    (t : Transform) : Except Error (Bytes × ConstantPool) := do
  let pool ←
    if keepPool then ConstantPool.copyOf source source.bootstrapTable else pure .empty
  let writing : PoolM Bytes := do
    (← (ClassWriter.start options).takeClass source t).bytes
  let (answer, pool) := writing.run pool
  return (← answer, pool)

end ClassFile
