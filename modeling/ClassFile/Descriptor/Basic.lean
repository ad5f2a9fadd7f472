/-
# Types of fields and methods

A descriptor is the written form of the type of a field or a method.  A field type is an element
type, base or class, under a number of array dimensions; a reference type is one that is not a
bare base type.  A method type has parameters and, unless it is `void`, a result.

`render` writes the descriptor; `Descriptor.Parser` reads it.
-/
import ClassFile.Opcode

namespace ClassFile

/-! ## 1. Element types -/

/-- The types of primitive values. -/
inductive BaseType where
  | byte
  | char
  | double
  | float
  | int
  | long
  | short
  | boolean
  deriving DecidableEq, Repr

namespace BaseType

/-- The letter that stands for a base type. -/
def letter : BaseType → Char
  | byte => 'B'
  | char => 'C'
  | double => 'D'
  | float => 'F'
  | int => 'I'
  | long => 'J'
  | short => 'S'
  | boolean => 'Z'

/-- The base type of a letter. -/
def ofLetter? : Char → Option BaseType
  | 'B' => some byte
  | 'C' => some char
  | 'D' => some double
  | 'F' => some float
  | 'I' => some int
  | 'J' => some long
  | 'S' => some short
  | 'Z' => some boolean
  | _ => none

@[simp] theorem ofLetter?_letter (t : BaseType) : ofLetter? t.letter = some t := by
  cases t <;> rfl

/-- A letter stands for at most one base type, and that type has no other letter. -/
theorem ofLetter?_eq_some_iff {c : Char} {t : BaseType} : ofLetter? c = some t ↔ c = t.letter := by
  constructor
  · intro h
    unfold ofLetter? at h
    split at h <;> first | (cases h; rfl) | cases h
  · rintro rfl
    exact ofLetter?_letter t

/-- The operand of `newarray` for arrays of a base type. -/
def arrayCode : BaseType → UInt8
  | boolean => 4
  | char => 5
  | float => 6
  | double => 7
  | byte => 8
  | short => 9
  | int => 10
  | long => 11

/-- The base type that an operand of `newarray` stands for. -/
def ofArrayCode? (code : UInt8) : Option BaseType :=
  [boolean, char, float, double, byte, short, int, long].find? fun t => t.arrayCode == code

/-- The number of slots that a value takes. -/
def slots : BaseType → Nat
  | double | long => 2
  | _ => 1

end BaseType

/-- What an array has at its bottom, and what a type without dimensions is. -/
inductive ElementType where
  | base (type : BaseType)
  | object (name : String)
  deriving DecidableEq, Repr

/-- The descriptor of an element type. -/
def ElementType.render : ElementType → List Char
  | .base t => [t.letter]
  | .object name => 'L' :: name.toList ++ [';']

/-! ## 2. Field types -/

/-- An element type under a number of array dimensions. -/
structure FieldType where
  dimensions : Nat
  element : ElementType
  deriving DecidableEq, Repr

namespace FieldType

/-- A base type by itself. -/
def base (t : BaseType) : FieldType := ⟨0, .base t⟩

/-- A class by itself. -/
def object (name : String) : FieldType := ⟨0, .object name⟩

/-- The type of arrays, `n` dimensions deep, of this type; the type itself for none.  The dimensions of
an array are kept less one, in a word of 64 bits, which goes round. -/
def withDimensions (t : FieldType) (n : Nat) : FieldType :=
  ⟨if t.dimensions = 0 then n else (t.dimensions - 1 + n) % UInt64.size + 1, t.element⟩

/-- The base type that this type is, when it has no dimensions. -/
def base? (t : FieldType) : Option BaseType :=
  match t.dimensions, t.element with
  | 0, .base b => some b
  | _, _ => none

/-- Do values of the type refer to objects or arrays? -/
def isReference (t : FieldType) : Bool := t.base?.isNone

/-- The number of slots that a value takes. -/
def slots (t : FieldType) : Nat := (t.base?.map BaseType.slots).getD 1

/-- The descriptor of a field type. -/
def render (t : FieldType) : List Char := List.replicate t.dimensions '[' ++ t.element.render

/-- The descriptor as a string. -/
def text (t : FieldType) : String := String.ofList t.render

/-- As long as the word does not go round, the dimensions are added. -/
theorem withDimensions_eq {t : FieldType} {n : Nat} (hfits : t.dimensions + n ≤ UInt64.size) :
    t.withDimensions n = ⟨t.dimensions + n, t.element⟩ := by
  unfold withDimensions
  congr 1
  split
  · omega
  · rw [Nat.mod_eq_of_lt (by omega)]
    omega

@[simp] theorem withDimensions_base (b : BaseType) (n : Nat) :
    (base b).withDimensions n = ⟨n, .base b⟩ := rfl

@[simp] theorem withDimensions_object (name : String) (n : Nat) :
    (object name).withDimensions n = ⟨n, .object name⟩ := rfl

/-- Each dimension is one bracket in front. -/
theorem render_withDimensions {t : FieldType} {n : Nat} (hfits : t.dimensions + n ≤ UInt64.size) :
    (t.withDimensions n).render = List.replicate n '[' ++ t.render := by
  rw [withDimensions_eq hfits, render, render, Nat.add_comm t.dimensions,
    ← List.replicate_append_replicate, List.append_assoc]

/-- The opcode that does for this type what `op`, which loads, stores, returns or computes with
an `int`, or accesses an array of them, does for `int`. -/
def opcode (t : FieldType) (op : Opcode) : Opcode :=
  let arrayAccess := op == Opcode.iaload || op == Opcode.iastore
  op + match t.base? with
    | none => 4
    | some .double => 3
    | some .float => 2
    | some .long => 1
    | some .int => 0
    | some .boolean | some .byte => if arrayAccess then 5 else 0
    | some .char => if arrayAccess then 6 else 0
    | some .short => if arrayAccess then 7 else 0

end FieldType

/-! ## 3. Method types -/

/-- Parameter types and result type; `void` has no result. -/
structure MethodType where
  parameters : List FieldType
  result : Option FieldType
  deriving DecidableEq, Repr

namespace MethodType

/-- The slots of the parameters, with one more for the receiver of an instance method. -/
def parameterSlots (t : MethodType) (hasReceiver : Bool) : Nat :=
  t.parameters.foldl (fun n p => n + p.slots) (if hasReceiver then 1 else 0)

/-- The slots of the result. -/
def resultSlots (t : MethodType) : Nat := (t.result.map FieldType.slots).getD 0

/-- The descriptor of a method type. -/
def render (t : MethodType) : List Char :=
  '(' :: t.parameters.flatMap FieldType.render ++ ')' :: (t.result.map FieldType.render).getD ['V']

/-- The descriptor as a string. -/
def text (t : MethodType) : String := String.ofList t.render

end MethodType

end ClassFile
