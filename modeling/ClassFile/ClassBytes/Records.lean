/-
# Records of a class file, spelled out

A record refers to other records by index; reading one follows the indices and gives strings.
An index that is out of range, or refers to a record of another kind, is an error.

A dynamic constant refers to an entry of the bootstrap table, whose arguments may be dynamic
constants again.  The arguments are followed wherever they lead.  Where that goes deeper than there
are records, some constant is nested in itself, and reading it would go on forever:
`Error.cyclicConstant` stands for a reading that has no end, and is no answer of it.
-/
import ClassFile.ClassBytes.Basic

namespace ClassFile.ClassBytes

/-! ## 1. Names and members -/

/-- The internal name or array descriptor of a class record. -/
def readClass (c : ClassBytes) (index : ConstantIndex) : Except Error String := do
  let offset ← c.itemWithTag index .classRef .classRef
  c.utf8At (offset + 1)

/-- The class whose index stands at an offset, where the index 0 means none. -/
def classAt (c : ClassBytes) (offset : Nat) : Except Error (Option String) := do
  let index ← c.bytes.u16At offset
  if index = 0 then return none else return some (← c.readClass index)

/-- The name and the descriptor of a record of both. -/
def readNameAndType (c : ClassBytes) (index : ConstantIndex) : Except Error (String × String) := do
  let offset ← c.itemWithTag index .nameAndType .nameAndType
  let name ← c.utf8At (offset + 1)
  let descriptor ← c.utf8At (offset + 3)
  return (name, descriptor)

/-- A field, a method, or a method of an interface. -/
def readMember (c : ClassBytes) (index : ConstantIndex) : Except Error MemberRef := do
  let offset ← c.itemOffset index
  let interface ← match Constant.Tag.ofByte? (← c.bytes.u8At offset) with
    | some .fieldRef | some .methodRef => pure false
    | some .interfaceMethodRef => pure true
    | _ => throw (.unexpectedConstant index .member)
  let owner ← c.readClass (← c.bytes.u16At (offset + 1))
  let (name, descriptor) ← c.readNameAndType (← c.bytes.u16At (offset + 3))
  return { owner, name, descriptor, interface }

/-- A method handle. -/
def readMethodHandle (c : ClassBytes) (index : ConstantIndex) : Except Error MethodHandle := do
  let offset ← c.itemWithTag index .methodHandle .methodHandle
  match HandleKind.ofTag? (← c.bytes.u8At (offset + 1)) with
  | none => throw (.unexpectedConstant index .methodHandle)
  | some kind =>
    let member ← c.readMember (← c.bytes.u16At (offset + 2))
    return ⟨kind, member.owner, member.name, member.descriptor, member.interface⟩

/-- The name, the descriptor and the bootstrap entry of a dynamic call site. -/
def readInvokeDynamic (c : ClassBytes) (index : ConstantIndex) :
    Except Error (String × String × UInt16) := do
  let offset ← c.itemWithTag index .invokeDynamic .invokeDynamic
  let bootstrap ← c.bytes.u16At (offset + 1)
  let (name, descriptor) ← c.readNameAndType (← c.bytes.u16At (offset + 3))
  return (name, descriptor, bootstrap)

/-! ## 2. Loadable constants -/

/-- The method and the arguments of an entry of the bootstrap table, where `read` gives the
value of an argument. -/
def readBootstrapWith (c : ClassBytes) (read : ConstantIndex → Except Error Loadable)
    (index : UInt16) : Except Error (MethodHandle × List Loadable) :=
  match c.bootstrapOffsets[index.toNat]? with
  | none => .error (.missingBootstrapMethod index)
  | some offset => do
    let handle ← c.readMethodHandle (← c.bytes.u16At offset)
    let count ← c.bytes.u16At (offset + 2)
    let arguments ← (List.range count.toNat).mapM fun i => do
      read (← c.bytes.u16At (offset + 4 + 2 * i))
    return (handle, arguments)

/-- The loadable constant at an index, nested less than `depth` deep. -/
def readLoadableWithin (c : ClassBytes) : Nat → ConstantIndex → Except Error Loadable
  | 0, index => .error (.cyclicConstant index)
  | depth + 1, index => do
    let offset ← c.itemOffset index
    match Constant.Tag.ofByte? (← c.bytes.u8At offset) with
    | some .integer => return .integer (← c.bytes.i32At (offset + 1))
    | some .float => return .float (← c.bytes.singleAt (offset + 1))
    | some .long => return .long (← c.bytes.i64At (offset + 1))
    | some .double => return .double (← c.bytes.doubleAt (offset + 1))
    | some .string => return .string (← c.utf8At (offset + 1))
    | some .classRef => return .type (← c.utf8At (offset + 1))
    | some .methodType => return .methodType (← c.utf8At (offset + 1))
    | some .methodHandle => return .handle (← c.readMethodHandle index)
    | some .dynamic =>
      let (name, descriptor) ← c.readNameAndType (← c.bytes.u16At (offset + 3))
      let (bootstrap, arguments) ←
        c.readBootstrapWith (c.readLoadableWithin depth) (← c.bytes.u16At (offset + 1))
      return .dynamic name descriptor bootstrap arguments
    | _ => throw (.unexpectedConstant index .loadable)

/-- No constant is nested deeper than this without being nested in itself. -/
def nestingBound (c : ClassBytes) : Nat := c.itemOffsets.size + 1

/-- The loadable constant at an index. -/
def readLoadable (c : ClassBytes) (index : ConstantIndex) : Except Error Loadable :=
  c.readLoadableWithin c.nestingBound index

/-- The method and the arguments of an entry of the bootstrap table. -/
def readBootstrap (c : ClassBytes) (index : UInt16) : Except Error (MethodHandle × List Loadable) :=
  c.readBootstrapWith c.readLoadable index

end ClassFile.ClassBytes
