/-
# Types of slots

While code is analysed, every local variable and every entry of the operand stack has a type: a
kind under a number of array dimensions.  Most kinds are absolute.  Two are relative: they stand
for whatever was in a local or in a stack slot when the block was entered, and are resolved once
that is known.

A value of two slots has its type in the first one and `top` in the second one.  The types
`boolean`, `byte`, `char` and `short` occur only as entries of arrays.

* `SlotType.ofFieldType` gives the type of a value.
* `SlotType.resolve` makes a relative type absolute.
* `SlotType.merge` joins what comes from two paths, and goes up whenever it changes something:
  from `unset` over `null`, classes and arrays to `top`.
* `SlotType.verificationType` is how a type is written.
-/
import ClassFile.ConstantPool.Basic
import ClassFile.Descriptor.WellFormed

namespace ClassFile

/-- What a type has at its bottom. -/
inductive SlotKind where
  /-- Nothing is known yet, because no path has been followed to this place. -/
  | unset
  /-- Nothing that can be used. -/
  | top
  | base (type : BaseType)
  | null
  /-- The receiver of a constructor, before it has called another constructor. -/
  | uninitializedThis
  /-- A class, or an array that is given by its name. -/
  | object (type : TypeIndex)
  /-- What a `new` instruction has made, before its constructor has run. -/
  | uninitialized (type : TypeIndex)
  /-- What was in a local on entry.  If it is `halved`, a neighbour was overwritten since then, and
  a value of two slots is lost. -/
  | onEntryLocal (index : UInt16) (halved : Bool)
  /-- What was so far from the end of the stack on entry. -/
  | onEntryStack (index : UInt16) (halved : Bool)
  deriving DecidableEq, Repr

namespace SlotKind

/-- Does the kind stand for what was there on entry? -/
def isRelative : SlotKind → Bool
  | onEntryLocal .. | onEntryStack .. => true
  | _ => false

/-- Are two kinds of absolute types of one sort?  The sorts are objects, uninitialized objects
and all the rest. -/
def alike : SlotKind → SlotKind → Bool
  | object _, object _ | uninitialized _, uninitialized _ => true
  | object _, _ | uninitialized _, _ | onEntryLocal .., _ | onEntryStack .., _ => false
  | _, object _ | _, uninitialized _ | _, onEntryLocal .. | _, onEntryStack .. => false
  | _, _ => true

end SlotKind

/-- The type of a slot: a kind under a number of dimensions.  Only relative types can have less
than none, for the entries of an array that was there on entry. -/
structure SlotType where
  dimensions : Int
  kind : SlotKind
  deriving DecidableEq, Repr

namespace SlotType

/-! ## 1. Forms of types -/

/-- A kind without dimensions. -/
def scalar (kind : SlotKind) : SlotType := ⟨0, kind⟩

/-- Nothing is known yet. -/
def unset : SlotType := scalar .unset

/-- Nothing that can be used. -/
def top : SlotType := scalar .top

/-- An `int`, and on the stack also what is smaller than one. -/
def int : SlotType := scalar (.base .int)

/-- A `float`. -/
def float : SlotType := scalar (.base .float)

/-- The first slot of a `long`. -/
def long : SlotType := scalar (.base .long)

/-- The first slot of a `double`. -/
def double : SlotType := scalar (.base .double)

/-- The reference to nothing. -/
def null : SlotType := scalar .null

/-- The receiver of a constructor. -/
def uninitializedThis : SlotType := scalar .uninitializedThis

/-- Is it the first slot of a value of two slots? -/
def isWide (t : SlotType) : Bool :=
  t.dimensions == 0 && (t.kind == .base .long || t.kind == .base .double)

/-- Is it an object or an array?  What is uninitialized does not count. -/
def isReference (t : SlotType) : Bool :=
  decide (0 < t.dimensions) || match t.kind with
    | .object _ => true
    | _ => false

/-- Is there nothing to be used? -/
def isTop (t : SlotType) : Bool := t.kind == .top || t.kind == .unset

/-- The type with more dimensions, or with fewer.  A type cannot have more than 127, and only a
relative one fewer than none. -/
def extend (t : SlotType) (extra : Int) : SlotType :=
  if extra = 0 ∨ t.kind = .null then t
  else
    let dimensions := t.dimensions + extra
    let least := if t.kind.isRelative then -128 else 0
    if least ≤ dimensions ∧ dimensions ≤ 127 then ⟨dimensions, t.kind⟩ else top

/-- The type of the entries of an array. -/
def entry (t : SlotType) : SlotType := t.extend (-1)

/-- The type of an array of such entries. -/
def arrayOf (t : SlotType) : SlotType := t.extend 1

/-- The same type after a neighbour of its slot has been overwritten. -/
def halve (t : SlotType) : SlotType :=
  if t.isWide then top
  else
    match t.kind with
    | .onEntryLocal index _ => ⟨t.dimensions, .onEntryLocal index true⟩
    | .onEntryStack index _ => ⟨t.dimensions, .onEntryStack index true⟩
    | _ => t

/-! ## 2. Types of values -/

/-- An object of a class. -/
def object (name : String) : TypeM SlotType :=
  return scalar (.object (← TypeTable.initialized name))

/-- What a local or a stack entry holds for a base type: what is smaller than an `int` has become
one. -/
def ofBase : BaseType → SlotType
  | .float => float
  | .long => long
  | .double => double
  | _ => int

/-- The type of a value. -/
def ofFieldType (t : FieldType) : TypeM SlotType := do
  match t.base? with
  | some base => return ofBase base
  | none =>
    let kind ← match t.element with
      | .base base => pure (SlotKind.base base)
      | .object name => do pure (.object (← TypeTable.initialized name))
    if 127 < t.dimensions then throw (.malformedDescriptor t.text)
    return ⟨t.dimensions, kind⟩

/-- The type of a value of a field, or of the result of a method; `void` has none. -/
def ofDescriptor (descriptor : String) : TypeM (Option SlotType) := do
  if Descriptor.isMethod descriptor then
    match ← Descriptor.methodResult descriptor with
    | some result => return some (← ofFieldType result)
    | none => return none
  else if descriptor = "V" then return none
  else return some (← ofFieldType (← Descriptor.fieldType descriptor))

/-! ## 3. Relative types -/

end SlotType

/-- The types of all locals and of the stack, the deepest entry first. -/
structure Slots where
  locals : Array SlotType
  stack : Array SlotType
  deriving DecidableEq, Repr

namespace Slots

/-- No locals and no stack. -/
def empty : Slots := ⟨#[], #[]⟩

/-- So many locals and stack entries of which nothing is known yet. -/
def unset (locals stack : Nat) : Slots :=
  ⟨Array.replicate locals .unset, Array.replicate stack .unset⟩

/-- The type of a local; there is nothing outside of them. -/
def localAt (s : Slots) (index : UInt16) : SlotType := s.locals[index.toNat]?.getD .top

/-- The type of the stack entry at a distance from the end, where the last one has distance 1. -/
def stackAt (s : Slots) (index : UInt16) : SlotType :=
  if index.toNat ≤ s.stack.size then s.stack[s.stack.size - index.toNat]?.getD .top else .top

end Slots

namespace SlotType

/-- The absolute type that a type stands for in a block which is entered with these slots. -/
def resolve (entry : Slots) (t : SlotType) : SlotType :=
  let absolute (found : SlotType) (halved : Bool) : SlotType :=
    let found := found.extend t.dimensions
    if halved && found.isWide then top else found
  match t.kind with
  | .onEntryLocal index halved => absolute (entry.localAt index) halved
  | .onEntryStack index halved => absolute (entry.stackAt index) halved
  | _ => t

/-! ## 4. Merging -/

/-- The dimensions that a reference has when its entries are taken for objects: the entries of the
innermost array of primitive values are none. -/
def objectDimensions (t : SlotType) : Int :=
  match t.kind with
  | .object _ => t.dimensions
  | _ => if t.dimensions = 0 then 0 else t.dimensions - 1

/-- An array of objects of any class, or an object of any class. -/
def anyObject (dimensions : Int) : TypeM SlotType :=
  return ⟨dimensions, .object (← TypeTable.initialized rootClass)⟩

/-- The type of a slot that has had the type `current` when something of the type `incoming` can be
there as well. -/
def merge (hierarchy : Hierarchy) (current incoming : SlotType) : TypeM SlotType := do
  if incoming = current then return current
  else if current.kind = .unset then return incoming
  else if current.isReference then
    if incoming = null then return current
    else if incoming.dimensions = current.dimensions && incoming.kind.alike current.kind then
      match incoming.kind, current.kind with
      | .object a, .object b =>
        return ⟨incoming.dimensions, .object (← TypeTable.merged hierarchy a b)⟩
      | _, _ => anyObject (incoming.dimensions - 1)
    else if incoming.isReference then
      anyObject (min incoming.objectDimensions current.objectDimensions)
    else return top
  else if current = null && incoming.isReference then return incoming
  else return top

/-! ## 5. Written types -/

/-- How the type of a base value is written. -/
def ofBaseWritten : BaseType → VerificationType
  | .float => .float
  | .long => .long
  | .double => .double
  | _ => .integer

/-- How a type without dimensions is written. -/
def scalarWritten : SlotKind → PoolM VerificationType
  | .base type => return ofBaseWritten type
  | .null => return .null
  | .uninitializedThis => return .uninitializedThis
  | .object index => do
    let type ← ConstantPool.onTypes (TypeTable.entry index)
    return .object (← ConstantPool.classRef type.name)
  | .uninitialized index => do
    match ← ConstantPool.onTypes (TypeTable.entry index) with
    | .uninitialized _ offset => return .uninitialized (UInt16.ofNat offset)
    | .initialized _ => throw (.invalidTypeIndex index)
  | .unset | .top | .onEntryLocal .. | .onEntryStack .. => return .top

/-- How an array is written: by a class record that holds its descriptor. -/
def arrayWritten (dimensions : Nat) (element : FieldType) : PoolM VerificationType := do
  return .object (← ConstantPool.classRef (element.withDimensions dimensions).text)

/-- How a type is written into a stack map table. -/
def verificationType (t : SlotType) : PoolM VerificationType := do
  if 0 < t.dimensions then
    let dimensions := t.dimensions.toNat
    match t.kind with
    | .object index =>
      let name := (← ConstantPool.onTypes (TypeTable.entry index)).name
      if Descriptor.isArrayName name then arrayWritten dimensions (← Descriptor.fieldType name)
      else arrayWritten dimensions (.object name)
    | .base type => arrayWritten dimensions (.base type)
    | _ => return .top
  else scalarWritten t.kind

end SlotType

end ClassFile
