/-
# What code does to the height of the stack

A `Routine` is what the events of a method say about its code, apart from how it is encoded: the
instructions in order, the labels, each with the number of instructions in front of it, and the
handlers.

`Routine.Reaches` is the machine that runs it, as far as the height of the operand stack is concerned.
Each instruction takes slots and leaves slots (`Instruction.stackUse?`); control then falls through or
goes to one of the targets.  From each instruction that a handler covers, control can get to the
handler, with one slot on the stack.
-/
import ClassFile.BlockGraph.Basic
import ClassFile.ClassEvent
import ClassFile.Descriptor.WellFormed
import Mathlib.Algebra.Order.Ring.Int

namespace ClassFile

/-! ## 1. Instructions -/

/-- The number of slots that an instruction takes from the stack, and of those that it leaves. -/
structure StackUse where
  taken : Nat
  left : Nat
  deriving DecidableEq, Repr

/-- The change of the height. -/
def StackUse.net (u : StackUse) : Int := (u.left : Int) - u.taken

/-- Slots are taken from a stack of this height and others are left, and 32 bits hold all heights in
between. -/
structure StackUse.Within (u : StackUse) (height : Int) : Prop where
  before : height < 2 ^ 31
  between : -2 ^ 31 ≤ height - u.taken
  behind : height + u.net < 2 ^ 31

/-- So 32 bits hold the height in front. -/
theorem StackUse.Within.toInt_ofInt {u : StackUse} {height : Int} (hu : u.Within height) :
    (Int32.ofInt height).toInt = height :=
  Int32.toInt_ofInt_of_le (by have := hu.between; omega) hu.before

/-- The slots of an instruction whose opcode decides them. -/
def Opcode.stackUse? (op : Opcode) : Option StackUse :=
  match op.stackEffect?, op.shuffle? with
  | some e, _ => some ⟨e.taken, (e.left.map fun t => if t.isWide then 2 else 1).getD 0⟩
  | none, some (count, order) => some ⟨count, order.length⟩
  | none, none => if op = Opcode.aaload then some ⟨2, 1⟩ else none

namespace Instruction

variable {τ : Type}

/-- The slots of an instruction that loads or stores a local. -/
def localUse? (op : Opcode) : Option StackUse :=
  if op = Opcode.iload ∨ op = Opcode.fload ∨ op = Opcode.aload then some ⟨0, 1⟩
  else if op = Opcode.lload ∨ op = Opcode.dload then some ⟨0, 2⟩
  else if op = Opcode.istore ∨ op = Opcode.fstore ∨ op = Opcode.astore then some ⟨1, 0⟩
  else if op = Opcode.lstore ∨ op = Opcode.dstore then some ⟨2, 0⟩
  else none

/-- The slots of an instruction that accesses a field of so many slots. -/
def fieldUse? (op : Opcode) (slots : Nat) : Option StackUse :=
  if op = Opcode.getstatic then some ⟨0, slots⟩
  else if op = Opcode.putstatic then some ⟨slots, 0⟩
  else if op = Opcode.getfield then some ⟨1, slots⟩
  else if op = Opcode.putfield then some ⟨slots + 1, 0⟩
  else none

/-- The slots of an instruction that calls a method, of which the arguments with a receiver, and the
result, have so many. -/
def callUse? (op : Opcode) (arguments result : Nat) : Option StackUse :=
  if op = Opcode.invokestatic ∨ op = Opcode.invokedynamic then some ⟨arguments - 1, result⟩
  else if op = Opcode.invokevirtual ∨ op = Opcode.invokespecial ∨ op = Opcode.invokeinterface then
    some ⟨arguments, result⟩
  else none

/-- The slots of an instruction.  There are none for an opcode that does not go with the operands, for
descriptors that are not well formed, and for subroutines. -/
def stackUse? : Instruction τ → Option StackUse
  | .simple op => if op.shape = .simple then op.stackUse? else none
  | .int op _ =>
    if op = Opcode.bipush ∨ op = Opcode.sipush then some ⟨0, 1⟩
    else if op = Opcode.newarray then some ⟨1, 1⟩
    else none
  | .var op _ => localUse? op
  | .type op _ =>
    if op = Opcode.new then some ⟨0, 1⟩
    else if op = Opcode.anewarray ∨ op = Opcode.checkcast ∨ op = Opcode.instanceof then some ⟨1, 1⟩
    else none
  | .field op _ _ descriptor => do fieldUse? op (← (Descriptor.fieldType descriptor).toOption).slots
  | .method op _ _ descriptor _ =>
    if op = Opcode.invokedynamic then none
    else do
      let (arguments, result) ← (Descriptor.methodSlots descriptor).toOption
      callUse? op arguments result
  | .invokeDynamic _ descriptor _ _ => do
    let (arguments, result) ← (Descriptor.methodSlots descriptor).toOption
    callUse? Opcode.invokedynamic arguments result
  | .jump op _ => if op.isJump then op.stackUse? else none
  | .constant (.dynamic _ descriptor _ _) => do
    return ⟨0, (← (Descriptor.fieldType descriptor).toOption).slots⟩
  | .constant value => some ⟨0, if value.isWide then 2 else 1⟩
  | .increment _ _ => some ⟨0, 0⟩
  | .tableSwitch .. | .lookupSwitch .. => some ⟨1, 0⟩
  | .multiArray descriptor dimensions => do
    let type ← (Descriptor.fieldType descriptor).toOption
    if type.dimensions = 0 then none else some ⟨dimensions.toNat, 1⟩

/-- Can control get from an instruction to the one behind it? -/
def fallsThrough : Instruction τ → Bool
  | .simple op | .jump op _ => !op.isTerminal
  | .tableSwitch .. | .lookupSwitch .. => false
  | _ => true

end Instruction

/-! ## 2. Routines -/

/-- Code as its events describe it. -/
structure Routine where
  code : List (Instruction Label)
  /-- The labels that start blocks, in the order in which they are placed, each with the number of
  instructions in front of it. -/
  places : List (Label × Nat)
  handlers : List HandlerRange

namespace Routine

/-- No code. -/
def empty : Routine := ⟨[], [], []⟩

/-- What an event adds. -/
def event (r : Routine) : MethodEvent → Routine
  | .instruction i => { r with code := r.code ++ [i] }
  | .label l => if l.debug then r else { r with places := r.places ++ [(l, r.code.length)] }
  | .handler start stop handler caught =>
    { r with handlers := r.handlers ++ [⟨start, stop, handler, caught⟩] }
  | _ => r

/-- The code that events describe. -/
def of (es : List MethodEvent) : Routine := es.foldl event empty

/-- **The instructions that control gets to**, and the heights of the stack in front of them. -/
inductive Reaches (r : Routine) : Nat → Int → Prop
  | entry : Reaches r 0 0
  | next {k : Nat} {h : Int} {i : Instruction Label} {u : StackUse} (hk : Reaches r k h)
      (hi : r.code[k]? = some i) (hu : i.stackUse? = some u) (hfalls : i.fallsThrough = true) :
      Reaches r (k + 1) (h + u.net)
  | jump {k t : Nat} {h : Int} {i : Instruction Label} {u : StackUse} {l : Label}
      (hk : Reaches r k h) (hi : r.code[k]? = some i) (hu : i.stackUse? = some u)
      (hl : l ∈ i.targets) (ht : (l, t) ∈ r.places) : Reaches r t (h + u.net)
  | throw {k a b t : Nat} {h : Int} {s : HandlerRange} (hk : Reaches r k h) (hs : s ∈ r.handlers)
      (ha : (s.start, a) ∈ r.places) (hb : (s.stop, b) ∈ r.places) (hstart : a ≤ k) (hstop : k < b)
      (ht : (s.handler, t) ∈ r.places) : Reaches r t 1

/-- Every instruction that control gets to is entered with one height only. -/
def Steady (r : Routine) : Prop :=
  ∀ k h h', k < r.code.length → r.Reaches k h → r.Reaches k h' → h = h'

/-- The stack is never higher than so many slots, in front of an instruction or behind one. -/
def Below (r : Routine) (n : Int) : Prop :=
  ∀ k h i u, r.Reaches k h → r.code[k]? = some i → i.stackUse? = some u → h ≤ n ∧ h + u.net ≤ n

/-- No instruction that control gets to takes more slots than there are. -/
def Covered (r : Routine) : Prop :=
  ∀ k h i u, r.Reaches k h → r.code[k]? = some i → i.stackUse? = some u → (u.taken : Int) ≤ h

/-- So many slots are enough for the stack, as far as two bytes can tell. -/
def FitsIn (r : Routine) (n : UInt16) : Prop :=
  ∀ k h i u, r.Reaches k h → r.code[k]? = some i → i.stackUse? = some u →
    (h ≤ 65535 → h ≤ n.toNat) ∧ (h + u.net ≤ 65535 → h + u.net ≤ n.toNat)

/-- No other label stands at the end of what a handler covers and in front of the label that ends it. -/
def EndsFirst (r : Routine) : Prop :=
  ∀ s ∈ r.handlers, ∀ front behind b, r.places = front ++ (s.stop, b) :: behind →
    ∀ p ∈ front, p.2 ≠ b

variable {r : Routine} {k : Nat} {h : Int}

theorem Covered.nonneg (hr : r.Covered) (hk : r.Reaches k h) : 0 ≤ h := by
  cases hk with
  | entry => exact le_rfl
  | throw => exact Int.one_nonneg
  | next hk hi hu =>
    have := hr _ _ _ _ hk hi hu
    unfold StackUse.net
    omega
  | jump hk hi hu =>
    have := hr _ _ _ _ hk hi hu
    unfold StackUse.net
    omega

/-- A bound of the heights in front of instructions and behind them is one where there are no more
instructions as well. -/
theorem Below.reaches {n : Int} (hr : r.Below n) (hn : 1 ≤ n) (hk : r.Reaches k h) : h ≤ n := by
  cases hk with
  | entry => omega
  | throw => exact hn
  | next hk hi hu => exact (hr _ _ _ _ hk hi hu).2
  | jump hk hi hu => exact (hr _ _ _ _ hk hi hu).2

end Routine

end ClassFile
