/-
# Loadable constants

The values that an instruction can push, a bootstrap method can take as an argument, and a field
can have as its constant value, spelled out: classes, names and descriptors are strings here, and
indices only in the records of a constant pool.

Literals in floating point are equal when their bits are.
-/
import ClassFile.Number.Shortest
import ClassFile.Text.Quoted

namespace ClassFile

/-! ## 1. Method handles -/

/-- What a method handle does with its member. -/
inductive HandleKind where
  | getField
  | getStatic
  | putField
  | putStatic
  | invokeVirtual
  | invokeStatic
  | invokeSpecial
  | newInvokeSpecial
  | invokeInterface
  deriving DecidableEq, Hashable, Repr

namespace HandleKind

/-- All kinds, in the order of their tags. -/
def all : List HandleKind :=
  [getField, getStatic, putField, putStatic, invokeVirtual, invokeStatic, invokeSpecial,
    newInvokeSpecial, invokeInterface]

/-- The byte that stands for a kind. -/
def tag : HandleKind → UInt8
  | getField => 1
  | getStatic => 2
  | putField => 3
  | putStatic => 4
  | invokeVirtual => 5
  | invokeStatic => 6
  | invokeSpecial => 7
  | newInvokeSpecial => 8
  | invokeInterface => 9

/-- The kind that a byte stands for. -/
def ofTag? (tag : UInt8) : Option HandleKind := all.find? fun k => k.tag == tag

@[simp] theorem ofTag?_tag (k : HandleKind) : ofTag? k.tag = some k := by
  cases k <;> rfl

/-- Does the handle refer to a field, rather than to a method? -/
def isField : HandleKind → Bool
  | getField | getStatic | putField | putStatic => true
  | _ => false

/-- The name of a kind. -/
def text : HandleKind → String
  | getField => "GetField"
  | getStatic => "GetStatic"
  | putField => "PutField"
  | putStatic => "PutStatic"
  | invokeVirtual => "InvokeVirtual"
  | invokeStatic => "InvokeStatic"
  | invokeSpecial => "InvokeSpecial"
  | newInvokeSpecial => "NewInvokeSpecial"
  | invokeInterface => "InvokeInterface"

end HandleKind

/-- A reference to a field or a method together with what to do with it. -/
structure MethodHandle where
  kind : HandleKind
  owner : String
  name : String
  descriptor : String
  interface : Bool
  deriving DecidableEq, Hashable, Repr

open Text in
/-- A method handle as it stands in the text of a value. -/
def MethodHandle.text (h : MethodHandle) : String :=
  braced "MethodHandle"
    [("kind", h.kind.text), ("owner", quote h.owner), ("name", quote h.name),
      ("descriptor", quote h.descriptor), ("interface", truth h.interface)]

/-- A reference to a field or a method, spelled out. -/
structure MemberRef where
  owner : String
  name : String
  descriptor : String
  interface : Bool
  deriving DecidableEq, Repr

/-! ## 2. Values -/

/-- A constant that can be loaded.  A class is given by its internal name or, for arrays, by a
descriptor; a dynamic constant is what a bootstrap method makes of its arguments. -/
inductive Loadable where
  | integer (value : Int32)
  | float (value : Single)
  | long (value : Int64)
  | double (value : Double)
  | string (value : String)
  | type (name : String)
  | methodType (descriptor : String)
  | handle (value : MethodHandle)
  | dynamic (name descriptor : String) (bootstrap : MethodHandle) (arguments : List Loadable)
  deriving BEq, Repr, Inhabited

namespace Loadable

/-- Does the value take two slots? -/
def isWide : Loadable → Bool
  | long _ | double _ => true
  | dynamic _ descriptor _ _ => descriptor == "J" || descriptor == "D"
  | _ => false

/- The text of a value and the texts of the arguments below it. -/
open Text in
mutual

/-- The text of a value. -/
def text : Loadable → String
  | integer value => call "Integer" [toString value.toInt]
  | float value => call "Float" [value.text]
  | long value => call "Long" [toString value.toInt]
  | double value => call "Double" [value.text]
  | string value => call "String" [quote value]
  | type name => call "Type" [quote name]
  | methodType descriptor => call "MethodType" [quote descriptor]
  | handle value => call "MethodHandle" [value.text]
  | dynamic name descriptor bootstrap arguments =>
    call "Dynamic" [braced "ConstantDynamic"
      [("name", quote name), ("descriptor", quote descriptor),
        ("bootstrap_method", bootstrap.text),
        ("bootstrap_arguments", bracketed (texts arguments))]]

/-- The texts of a list of values. -/
def texts : List Loadable → List String
  | [] => []
  | value :: values => text value :: texts values

end

end Loadable

end ClassFile
