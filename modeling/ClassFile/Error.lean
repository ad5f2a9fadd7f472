/-
# Errors

Everything that can go wrong while reading, analysing or writing a class, by its cause.  Each
error has a name, a `message` for readers, and a `text` that lists its parts.
-/
import ClassFile.Constant
import ClassFile.Label

namespace ClassFile

/-- What a constant index was expected to refer to. -/
inductive Expected where
  | utf8
  | classRef
  | nameAndType
  | member
  | methodHandle
  | invokeDynamic
  | loadable
  | integer
  | long
  | float
  | double
  deriving DecidableEq, Repr

/-- An expectation in words. -/
def Expected.text : Expected → String
  | utf8 => "utf8"
  | classRef => "class"
  | nameAndType => "name and type"
  | member => "member reference"
  | methodHandle => "method handle"
  | invokeDynamic => "invokedynamic"
  | loadable => "loadable"
  | integer => "integer"
  | long => "long"
  | float => "float"
  | double => "double"

/-- What can go wrong. -/
inductive Error where
  /-- The input ends before `needed` bytes at `offset`. -/
  | unexpectedEof (offset needed : Nat)
  /-- The first four bytes are not those of a class file. -/
  | badMagic (magic : Nat)
  /-- A constant index is zero, past the end, or the unusable half of a wide record. -/
  | invalidConstantIndex (index : ConstantIndex)
  /-- A record has an unknown tag. -/
  | invalidConstantTag (tag : UInt8) (offset : Nat)
  /-- A constant index refers to a record of another kind than expected. -/
  | unexpectedConstant (index : ConstantIndex) (expected : Expected)
  /-- A byte where an instruction should start is no opcode, or one with impossible operands. -/
  | invalidOpcode (opcode : UInt8) (offset : Nat)
  /-- A jump, a handler or a debug entry points outside of the code. -/
  | invalidCodeOffset (source : Nat) (target : Int)
  /-- An element value has an unknown tag. -/
  | invalidAnnotationTag (tag : UInt8) (offset : Nat)
  | malformedDescriptor (descriptor : String)
  | malformedUtf8 (offset : Nat)
  /-- No index is left for a record. -/
  | constantPoolOverflow (constant : Constant) (offset : Nat)
  /-- A record refers to an entry that is not in the bootstrap table. -/
  | missingBootstrapMethod (index : UInt16)
  /-- A type index was never handed out. -/
  | invalidTypeIndex (index : Nat)
  /-- A label was mentioned but never placed. -/
  | unresolvedLabel (label : Label)
  /-- A forward jump does not fit into a signed two byte offset. -/
  | jumpOffsetOverflow (source target : Nat)
  /-- The code of a method is longer than 65535 bytes. -/
  | methodCodeOverflow (length : Nat)
  /-- Frames cannot be computed for an instruction. -/
  | unsupportedInstruction (opcode : UInt8)
  /-- A `lookupswitch` has another number of keys than of targets. -/
  | switchArity (keys targets : Nat)
  /-- A dynamic constant needs itself to be made: reading it has no end, and this stands for it. -/
  | cyclicConstant (index : ConstantIndex)
  /-- A label was looked up at an offset that no label can have: the reading ends abruptly, and this
  stands for it. -/
  | labelOutOfRange (offset : Nat)
  /-- A slot was looked up that a stack does not have: inferring types ends abruptly, and this stands for
  it. -/
  | slotOutOfRange (slot : Nat)
  deriving DecidableEq, Repr

namespace Error

/-- The name of a cause. -/
def name : Error → String
  | unexpectedEof .. => "UnexpectedEof"
  | badMagic .. => "BadMagic"
  | invalidConstantIndex .. => "InvalidConstantIndex"
  | invalidConstantTag .. => "InvalidConstantTag"
  | unexpectedConstant .. => "UnexpectedConstant"
  | invalidOpcode .. => "InvalidOpcode"
  | invalidCodeOffset .. => "InvalidCodeOffset"
  | invalidAnnotationTag .. => "InvalidAnnotationTag"
  | malformedDescriptor .. => "MalformedDescriptor"
  | malformedUtf8 .. => "MalformedUtf8"
  | constantPoolOverflow .. => "ConstantPoolOverflow"
  | missingBootstrapMethod .. => "MissingBootstrapMethod"
  | invalidTypeIndex .. => "InvalidTypeIndex"
  | unresolvedLabel .. => "UnresolvedLabel"
  | jumpOffsetOverflow .. => "JumpOffsetOverflow"
  | methodCodeOverflow .. => "MethodCodeOverflow"
  | unsupportedInstruction .. => "UnsupportedInstruction"
  | switchArity .. => "SwitchArity"
  | cyclicConstant .. => "CyclicConstant"
  | labelOutOfRange .. => "LabelOutOfRange"
  | slotOutOfRange .. => "SlotOutOfRange"

/-- The eight digits of a word in base sixteen, upper case. -/
def upperHex (n : Nat) : String :=
  let digits := (Nat.toDigits 16 n).map Char.toUpper
  String.ofList (List.replicate (8 - digits.length) '0' ++ digits)

/-- The error in words. -/
def message : Error → String
  | unexpectedEof offset needed =>
    "truncated class file: needed " ++ toString needed ++ " byte(s) at offset " ++ toString offset
  | badMagic magic => "bad magic number 0x" ++ upperHex magic
  | invalidConstantIndex index => "invalid constant pool index #" ++ toString index.toNat
  | invalidConstantTag tag offset =>
    "unknown constant pool tag " ++ toString tag.toNat ++ " at offset " ++ toString offset
  | unexpectedConstant index expected =>
    "constant #" ++ toString index.toNat ++ " is not a " ++ expected.text ++ " constant"
  | invalidOpcode opcode offset =>
    "invalid opcode " ++ toString opcode.toNat ++ " at code offset " ++ toString offset
  | invalidCodeOffset source target =>
    "code offset " ++ toString target ++ " referenced at " ++ toString source ++
      " is outside of the method body"
  | invalidAnnotationTag tag offset =>
    "unknown annotation element tag '" ++ (Char.ofNat tag.toNat).toString ++ "' at offset " ++
      toString offset
  | malformedDescriptor descriptor => "malformed descriptor '" ++ descriptor ++ "'"
  | malformedUtf8 offset => "malformed modified UTF-8 at offset " ++ toString offset
  | constantPoolOverflow constant offset =>
    "constant pool overflow at #" ++ toString offset ++ " while adding " ++ constant.text
  | missingBootstrapMethod index =>
    "bootstrap method " ++ toString index.toNat ++ " is not in the table"
  | invalidTypeIndex index => "invalid type table index " ++ toString index
  | unresolvedLabel label => "label " ++ label.text ++ " was never placed"
  | jumpOffsetOverflow source target =>
    "jump from " ++ toString source ++ " to " ++ toString target ++
      " does not fit in a 16-bit offset"
  | methodCodeOverflow length => "method code is " ++ toString length ++ " bytes long (max 65535)"
  | unsupportedInstruction opcode =>
    "opcode " ++ toString opcode.toNat ++ " is not supported when computing frames"
  | switchArity keys targets =>
    "lookupswitch has " ++ toString keys ++ " key(s) but " ++ toString targets ++ " target(s)"
  | cyclicConstant index => "dynamic constant #" ++ toString index.toNat ++ " refers to itself"
  | labelOutOfRange offset => "no label at code offset " ++ toString offset
  | slotOutOfRange slot => "no slot " ++ toString slot ++ " on the stack"

open Text in
/-- The error with its parts. -/
def text (e : Error) : String :=
  match e with
  | unexpectedEof offset needed =>
    braced e.name [("offset", toString offset), ("needed", toString needed)]
  | badMagic magic => call e.name [toString magic]
  | invalidConstantIndex index => call e.name [toString index.toNat]
  | invalidConstantTag tag offset | invalidAnnotationTag tag offset =>
    braced e.name [("tag", toString tag.toNat), ("offset", toString offset)]
  | unexpectedConstant index expected =>
    braced e.name [("index", toString index.toNat), ("expected", quote expected.text)]
  | invalidOpcode opcode offset =>
    braced e.name [("opcode", toString opcode.toNat), ("offset", toString offset)]
  | invalidCodeOffset source target =>
    braced e.name [("source", toString source), ("target", toString target)]
  | malformedDescriptor descriptor => call e.name [quote descriptor]
  | malformedUtf8 offset => braced e.name [("offset", toString offset)]
  | constantPoolOverflow constant offset =>
    braced e.name [("constant", constant.text), ("offset", toString offset)]
  | missingBootstrapMethod index => call e.name [toString index.toNat]
  | invalidTypeIndex index => call e.name [toString index]
  | unresolvedLabel label => call e.name [label.text]
  | jumpOffsetOverflow source target =>
    braced e.name [("source", toString source), ("target", toString target)]
  | methodCodeOverflow length => call e.name [toString length]
  | unsupportedInstruction opcode => braced e.name [("opcode", toString opcode.toNat)]
  | switchArity keys targets =>
    braced e.name [("keys", toString keys), ("targets", toString targets)]
  | cyclicConstant index => call e.name [toString index.toNat]
  | labelOutOfRange offset => braced e.name [("offset", toString offset)]
  | slotOutOfRange slot => braced e.name [("slot", toString slot)]

end Error

end ClassFile
