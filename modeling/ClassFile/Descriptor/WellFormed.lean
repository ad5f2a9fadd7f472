/-
# Descriptors that have to be well formed

Where code is built or analysed, a descriptor that cannot be parsed is an error of its own, which
names the descriptor and not what is wrong with it.
-/
import ClassFile.Descriptor.Sizes
import ClassFile.Error

namespace ClassFile.Descriptor

/-- A parser's answer for a descriptor, where every refusal is the same error. -/
def orMalformed {α : Type} (descriptor : String) (parsed : Except DescriptorError α) :
    Except Error α :=
  match parsed with
  | .ok answer => .ok answer
  | .error _ => .error (.malformedDescriptor descriptor)

/-- The type of a field. -/
def fieldType (descriptor : String) : Except Error FieldType :=
  orMalformed descriptor (FieldType.parse descriptor)

/-- The type of a method. -/
def methodType (descriptor : String) : Except Error MethodType :=
  orMalformed descriptor (MethodType.parse descriptor)

/-- The slots of the arguments of a method, with one for a receiver, and of its result. -/
def methodSlots (descriptor : String) : Except Error (Nat × Nat) :=
  orMalformed descriptor (argumentAndResultSlots descriptor)

/-- The type of the result of a method.  Its arguments are passed over; no types are built for them. -/
def methodResult (descriptor : String) : Except Error (Option FieldType) :=
  let bytes := descriptor.toUTF8
  match (resultStart? bytes.data).bind fun start => String.fromUTF8? (bytes.extract start bytes.size) with
  | some result => orMalformed descriptor (whole (readResult result.toList))
  | none => .error (.malformedDescriptor descriptor)

/-- Is this the name of an array rather than of a class? -/
def isArrayName (name : String) : Bool := name.front? == some '['

/-- Is this the descriptor of a method rather than of a field? -/
def isMethod (descriptor : String) : Bool := descriptor.front? == some '('

end ClassFile.Descriptor
