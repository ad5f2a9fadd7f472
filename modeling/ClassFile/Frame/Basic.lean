/-
# Frames of blocks

A `Frame` is what is known about one block of code.  Its entry holds the absolute types of locals
and stack when the block is entered; it is known once a path to the block has been followed.  Its
effect is what the instructions of the block do, relative to the entry: which locals have been
set, how many entry slots have been taken from the stack, and what stands on the stack in their
place.  The effect is known before any entry is.

`Frame.exitLocals` and `Frame.exitStack` bring the two together: the absolute types at the end of
the block.
-/
import ClassFile.AccessFlags
import ClassFile.Frame.SlotType

namespace ClassFile

/-- The types on entering a block, and what the instructions of the block do to them. -/
structure Frame where
  /-- Absent as long as no path to the block has been followed. -/
  entry : Option Slots
  /-- The locals that have been set. -/
  locals : Array (Option SlotType)
  /-- What has been put on the stack, in place of what was `taken`. -/
  stack : Array SlotType
  /-- The number of slots that have been taken of those on entry.  What is read of it are heights,
  which have 32 bits (`heightAbove`). -/
  taken : Nat
  /-- The greatest height that the stack has had, above its height on entry. -/
  peak : Nat
  /-- What constructors have been run on. -/
  constructed : Array SlotType

namespace Frame

/-! ## 1. The effect -/

/-- Nothing is known, and nothing has been done. -/
def empty : Frame := ⟨none, #[], #[], 0, 0, #[]⟩

/-- Has a path to the block been followed? -/
def isReached (f : Frame) : Bool := f.entry.isSome

/-- The slots on entry, of which there are none before a path has been followed. -/
def entrySlots (f : Frame) : Slots := f.entry.getD .empty

/-- The type of a local. -/
def localAt (f : Frame) (index : UInt16) : SlotType :=
  f.locals[index.toNat]?.join.getD (.scalar (.onEntryLocal index false))

/-- Sets an entry of a table that grows as needed. -/
def setAt (table : Array (Option SlotType)) (index : Nat) (t : SlotType) :
    Array (Option SlotType) :=
  let missing := index + 1 - table.size
  (if missing = 0 then table else table ++ Array.replicate missing none).setIfInBounds index
    (some t)

/-- Sets a local. -/
def setLocal (index : UInt16) (t : SlotType) : Frame → Frame
  | ⟨entry, locals, stack, taken, peak, constructed⟩ =>
    ⟨entry, setAt locals index.toNat t, stack, taken, peak, constructed⟩

/-- What is left of so many slots when some have been taken.  Heights are counted in 32 bits, and go
round. -/
def heightAbove (slots taken : Nat) : Int32 := .ofInt (slots - taken)

/-- A height that 32 bits hold. -/
theorem toInt_heightAbove {slots taken : Nat} (hlow : -2147483648 ≤ (slots : Int) - taken)
    (hhigh : (slots : Int) - taken < 2147483648) :
    (heightAbove slots taken).toInt = (slots : Int) - taken := Int32.toInt_ofInt_of_le hlow hhigh

theorem toNat_heightAbove {slots taken : Nat} (hlow : -2147483648 ≤ (slots : Int) - taken)
    (hhigh : (slots : Int) - taken < 2147483648) :
    (heightAbove slots taken).toNatClampNeg = slots - taken := by
  rw [Int32.toNatClampNeg, toInt_heightAbove hlow hhigh]
  omega

/-- Puts a slot on the stack. -/
def push (t : SlotType) : Frame → Frame
  | ⟨entry, locals, stack, taken, peak, constructed⟩ =>
    let stack := stack.push t
    let height := heightAbove stack.size taken
    ⟨entry, locals, stack, taken, max peak height.toNatClampNeg, constructed⟩

/-- Puts slots on the stack, one after the other. -/
def pushAll (ts : List SlotType) (f : Frame) : Frame := ts.foldl (fun f t => f.push t) f

/-- Puts a value on the stack, which takes two slots if it is wide. -/
def pushValue (t : SlotType) (f : Frame) : Frame :=
  if t.isWide then (f.push t).push .top else f.push t

/-- Takes a slot from the stack. -/
def pop : Frame → SlotType × Frame
  | ⟨entry, locals, stack, taken, peak, constructed⟩ =>
    match stack.back? with
    | some t => (t, ⟨entry, locals, stack.pop, taken, peak, constructed⟩)
    | none =>
      let taken := taken + 1
      (.scalar (.onEntryStack (UInt16.ofNat taken) false),
        ⟨entry, locals, stack, taken, peak, constructed⟩)

/-- Takes slots from the stack, and gives those that were taken, the last one on the stack
first. -/
def popAll : Nat → Frame → List SlotType × Frame
  | 0, f => ([], f)
  | count + 1, f =>
    let (t, f) := f.pop
    let (ts, f) := popAll count f
    (t :: ts, f)

/-- Takes slots from the stack that are not looked at. -/
def drop (count : Nat) : Frame → Frame
  | ⟨entry, locals, stack, taken, peak, constructed⟩ =>
    let size := stack.size
    ⟨entry, locals, stack.shrink (size - count), taken + (count - size), peak, constructed⟩

/-- Remembers that a constructor has run on something. -/
def construct (t : SlotType) : Frame → Frame
  | ⟨entry, locals, stack, taken, peak, constructed⟩ =>
    ⟨entry, locals, stack, taken, peak, constructed.push t⟩

/-- Halves the local before one that has been overwritten. -/
def halveBefore (index : UInt16) (f : Frame) : Frame :=
  if index = 0 then f
  else
    let before := index - 1
    let t := f.localAt before
    f.setLocal before t.halve

/-! ## 2. The entry -/

/-- The types of values, with `top` for each second slot. -/
def spread (ts : List SlotType) : List SlotType :=
  ts.flatMap fun t => if t.isWide then [t, .top] else [t]

/-- The locals on entering a method: the receiver, the arguments, and `top` for what is left. -/
def methodLocals (className : String) (access : UInt16) (name descriptor : String)
    (maxLocals : UInt16) : TypeM (Array SlotType) := do
  let receiver ←
    if AccessFlags.isStatic access then pure []
    else if name = "<init>" then pure [SlotType.uninitializedThis]
    else do pure [← SlotType.object className]
  let arguments ← (← Descriptor.methodType descriptor).parameters.mapM SlotType.ofFieldType
  let locals := receiver ++ spread arguments
  return (locals ++ List.replicate (maxLocals.toNat - locals.length) SlotType.top).toArray

/-- The frame of a block that is entered with these slots. -/
def enteredWith (entry : Slots) : Frame → Frame
  | ⟨_, locals, stack, taken, peak, constructed⟩ =>
    ⟨some entry, locals, stack, taken, peak, constructed⟩

/-- Goes to the next slot: the second slot of a value is passed over.  `done` holds the types of
values so far, the last one first. -/
def gatherStep : Bool × List SlotType → SlotType → Bool × List SlotType
  | (true, done), _ => (false, done)
  | (false, done), t => (t.isWide, t :: done)

/-- The types of the values in slots, the last one first. -/
def gatherReversed (slots : Array SlotType) : List SlotType :=
  (slots.foldl gatherStep (false, [])).2

/-- The entry locals as they are written: a value has one type, and what is unused at the end is
left out. -/
def writtenLocals (f : Frame) : List SlotType :=
  ((gatherReversed f.entrySlots.locals).dropWhile SlotType.isTop).reverse

/-- The entry stack as it is written: a value has one type. -/
def writtenStack (f : Frame) : List SlotType := (gatherReversed f.entrySlots.stack).reverse

/-! ## 3. The exit -/

/-- The type of something at the end of the block: it is initialized if a constructor has run on
it in the block. -/
def afterConstruction (className : String) (constructed : List SlotType) (t : SlotType) :
    TypeM SlotType := do
  if t.dimensions = 0 && constructed.contains t then
    match t.kind with
    | .uninitializedThis => SlotType.object className
    | .uninitialized index => SlotType.object (← TypeTable.entry index).name
    | _ => return t
  else return t

/-- The absolute types of what constructors have been run on. -/
def constructedTypes (f : Frame) : List SlotType :=
  f.constructed.toList.map (SlotType.resolve f.entrySlots)

/-- The absolute types of slots at the end of the block. -/
def atExit (className : String) (f : Frame) (ts : List SlotType) : TypeM (List SlotType) :=
  let entry := f.entrySlots
  let constructed := f.constructedTypes
  ts.mapM fun t => afterConstruction className constructed (t.resolve entry)

/-- The absolute types of the locals at the end of the block. -/
def exitLocals (className : String) (f : Frame) : TypeM (List SlotType) :=
  f.atExit className (f.entrySlots.locals.toList.mapIdx fun i t => f.locals[i]?.join.getD t)

/-- The number of slots on entry that are still there at the end of the block. -/
def kept (f : Frame) : Nat := (heightAbove f.entrySlots.stack.size f.taken).toNatClampNeg

/-- The absolute types of the stack at the end of the block.  When so much has been taken that the
number of slots that are left has gone round, there are not so many. -/
def exitStack (className : String) (f : Frame) : TypeM (List SlotType) :=
  let entry := f.entrySlots.stack
  if entry.size < f.kept then do
    let _ ← f.atExit className entry.toList
    throw (.slotOutOfRange entry.size)
  else f.atExit className (entry.toList.take f.kept ++ f.stack.toList)

end Frame

end ClassFile
