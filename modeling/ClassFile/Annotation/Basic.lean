/-
# Annotations

An annotation has a type, given by its descriptor, and values under names.  A value is a literal,
a class, a constant of an enumeration, an annotation again, or an array of values.
-/
import ClassFile.Number.Shortest
import ClassFile.Text.Quoted

namespace ClassFile

/-- The value of an element of an annotation. -/
inductive ElementValue where
  | boolean (value : Bool)
  | byte (value : Int8)
  | char (value : UInt16)
  | short (value : Int16)
  | int (value : Int32)
  | long (value : Int64)
  | float (value : Single)
  | double (value : Double)
  | string (value : String)
  /-- A class, given by the descriptor of a result of that type. -/
  | classLiteral (descriptor : String)
  | enumConstant (descriptor value : String)
  | nested (descriptor : String) (values : List (String × ElementValue))
  | array (values : List ElementValue)
  deriving BEq, Repr, Inhabited

/-- A type with values under names, in the order in which they are written. -/
structure Annotation where
  descriptor : String
  values : List (String × ElementValue)
  deriving BEq, Repr, Inhabited

namespace ElementValue

/- The text of a value and of the values below it. -/
open Text in
mutual

/-- The text of a value. -/
def text : ElementValue → String
  | boolean value => call "Boolean" [truth value]
  | byte value => call "Byte" [toString value.toInt]
  | char value => call "Char" [toString value.toNat]
  | short value => call "Short" [toString value.toInt]
  | int value => call "Int" [toString value.toInt]
  | long value => call "Long" [toString value.toInt]
  | float value => call "Float" [value.text]
  | double value => call "Double" [value.text]
  | string value => call "String" [quote value]
  | classLiteral descriptor => call "Class" [quote descriptor]
  | enumConstant descriptor value =>
    braced "Enum" [("descriptor", quote descriptor), ("value", quote value)]
  | nested descriptor values =>
    call "Annotation" [braced "Annotation"
      [("descriptor", quote descriptor), ("values", bracketed (pairTexts values))]]
  | array values => call "Array" [bracketed (texts values)]

/-- The texts of the values of an annotation, with their names. -/
def pairTexts : List (String × ElementValue) → List String
  | [] => []
  | (name, value) :: values => call "" [quote name, text value] :: pairTexts values

/-- The texts of the values of an array. -/
def texts : List ElementValue → List String
  | [] => []
  | value :: values => text value :: texts values

end

end ElementValue

open Text in
/-- The text of an annotation. -/
def Annotation.text (a : Annotation) : String :=
  braced "Annotation"
    [("descriptor", quote a.descriptor), ("values", bracketed (ElementValue.pairTexts a.values))]

end ClassFile
