/-
# Instructions

An instruction has an opcode and operands of one of thirteen shapes.  It comes in its general
form: the local variable of a load is always an operand, a constant is a value rather than an
index, and there are no wide forms; how short an instruction can be is a matter of writing it.

The places that a jump or a switch can go to are of any type `τ`: labels where code is built,
offsets where it is decoded.  `Instruction.map` goes from one to the other.
-/
import ClassFile.Label
import ClassFile.Loadable
import ClassFile.Opcode

namespace ClassFile

/-- An instruction whose targets are of a type `τ`. -/
inductive Instruction (τ : Type) where
  /-- No operands. -/
  | simple (op : Opcode)
  /-- A number: what is pushed, or the code of the type of a new array. -/
  | int (op : Opcode) (operand : Int32)
  /-- A local variable that is loaded, stored or returned to. -/
  | var (op : Opcode) (index : UInt16)
  /-- A class that is instantiated, checked, or the type of the entries of a new array. -/
  | type (op : Opcode) (name : String)
  | field (op : Opcode) (owner name descriptor : String)
  | method (op : Opcode) (owner name descriptor : String) (interface : Bool)
  | invokeDynamic (name descriptor : String) (bootstrap : MethodHandle)
    (arguments : List Loadable)
  | jump (op : Opcode) (target : τ)
  | constant (value : Loadable)
  | increment (index : UInt16) (amount : Int16)
  | tableSwitch (low high : Int32) (default : τ) (targets : List τ)
  | lookupSwitch (default : τ) (keys : List Int32) (targets : List τ)
  | multiArray (descriptor : String) (dimensions : UInt8)
  deriving BEq, Repr

namespace Instruction

variable {σ τ : Type}

/-- The same instruction with other targets. -/
def map (f : σ → τ) : Instruction σ → Instruction τ
  | simple op => simple op
  | int op operand => int op operand
  | var op index => var op index
  | type op name => type op name
  | field op owner name descriptor => field op owner name descriptor
  | method op owner name descriptor interface => method op owner name descriptor interface
  | invokeDynamic name descriptor bootstrap arguments =>
    invokeDynamic name descriptor bootstrap arguments
  | jump op target => jump op (f target)
  | constant value => constant value
  | increment index amount => increment index amount
  | tableSwitch low high default targets => tableSwitch low high (f default) (targets.map f)
  | lookupSwitch default keys targets => lookupSwitch (f default) keys (targets.map f)
  | multiArray descriptor dimensions => multiArray descriptor dimensions

/-- The same instruction with other targets, which are found one after the other. -/
def mapM {m : Type → Type} [Monad m] (f : σ → m τ) : Instruction σ → m (Instruction τ)
  | simple op => return simple op
  | int op operand => return int op operand
  | var op index => return var op index
  | type op name => return type op name
  | field op owner name descriptor => return field op owner name descriptor
  | method op owner name descriptor interface => return method op owner name descriptor interface
  | invokeDynamic name descriptor bootstrap arguments =>
    return invokeDynamic name descriptor bootstrap arguments
  | jump op target => return jump op (← f target)
  | constant value => return constant value
  | increment index amount => return increment index amount
  | tableSwitch low high default targets => do
    let default ← f default
    return tableSwitch low high default (← targets.mapM f)
  | lookupSwitch default keys targets => do
    let default ← f default
    return lookupSwitch default keys (← targets.mapM f)
  | multiArray descriptor dimensions => return multiArray descriptor dimensions

/-- The places that an instruction can go to. -/
def targets : Instruction τ → List τ
  | jump _ target => [target]
  | tableSwitch _ _ default targets => default :: targets
  | lookupSwitch default _ targets => default :: targets
  | _ => []

theorem targets_map (f : σ → τ) (i : Instruction σ) : (i.map f).targets = i.targets.map f := by
  cases i <;> simp [map, targets]

end Instruction

/-! ## Shapes -/

/-- How the operands of an opcode are laid out in code. -/
inductive Shape where
  | simple
  | byte
  | short
  | arrayType
  | constant
  | wideConstant
  | var
  /-- The local variable is a part of the opcode. -/
  | packedVar
  | increment
  | jump
  | wideJump
  | tableSwitch
  | lookupSwitch
  | field
  | method
  | invokeDynamic
  | type
  /-- An opcode with operands of twice the size follows. -/
  | wide
  | multiArray
  | invalid
  deriving DecidableEq, Repr

/-- The shape of an opcode. -/
def Opcode.shape (op : Opcode) : Shape :=
  if op ≤ dconst1 then .simple
  else if op = bipush then .byte
  else if op = sipush then .short
  else if op = ldc then .constant
  else if op ≤ ldc2W then .wideConstant
  else if op ≤ aload then .var
  else if op ≤ aload3 then .packedVar
  else if op ≤ saload then .simple
  else if op ≤ astore then .var
  else if op ≤ astore3 then .packedVar
  else if op ≤ lxor then .simple
  else if op = iinc then .increment
  else if op ≤ dcmpg then .simple
  else if op ≤ jsr then .jump
  else if op = ret then .var
  else if op = tableswitch then .tableSwitch
  else if op = lookupswitch then .lookupSwitch
  else if op ≤ return_ then .simple
  else if op ≤ putfield then .field
  else if op ≤ invokeinterface then .method
  else if op = invokedynamic then .invokeDynamic
  else if op = new then .type
  else if op = newarray then .arrayType
  else if op = anewarray then .type
  else if op ≤ athrow then .simple
  else if op ≤ instanceof then .type
  else if op ≤ monitorexit then .simple
  else if op = wide then .wide
  else if op = multianewarray then .multiArray
  else if op ≤ ifnonnull then .jump
  else if op ≤ jsrW then .wideJump
  else .invalid

end ClassFile
