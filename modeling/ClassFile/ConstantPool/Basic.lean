/-
# Constant pools

A constant pool numbers records.  It only grows: an index, once given, keeps its record, and
asking for an equal record again gives the same index.  Beside its records a pool carries the
table of bootstrap methods, which records refer to, and the table of types that the inference of
frames uses and that is never written.

Operations on a pool are actions of `PoolM`: they may fail, and what was added before the failure
stays.
-/
import ClassFile.Attribute
import ClassFile.TypeTable

namespace ClassFile

/-- Bootstrap methods by number. -/
structure BootstrapTable where
  entries : Array BootstrapEntry
  lookup : InternTable BootstrapEntry UInt16

namespace BootstrapTable

/-- The table without entries. -/
def empty : BootstrapTable := ⟨#[], .empty⟩

/-- The number of an entry, which is new when the entry is.  Numbers have sixteen bits. -/
def intern (t : BootstrapTable) (e : BootstrapEntry) : UInt16 × BootstrapTable :=
  let ⟨entries, lookup⟩ := t
  let next := UInt16.ofNat entries.size
  let (index, lookup) := lookup.insert e next
  if index = next then (index, ⟨entries.push e, lookup⟩) else (index, ⟨entries, lookup⟩)

end BootstrapTable

/-- Records by index, with the bootstrap methods and the types that go with them. -/
structure ConstantPool where
  records : OffsetTable Constant
  lookup : InternTable Constant ConstantIndex
  bootstrap : BootstrapTable
  types : TypeTable

/-- What an operation on a pool does: it gives an answer or an error, and the pool afterwards. -/
abbrev PoolM := ExceptT Error (StateM ConstantPool)

namespace ConstantPool

/-- The pool without records.  Indices start at 1. -/
def empty : ConstantPool := ⟨.startingAt 1, .empty, .empty, .empty⟩

/-- One more than the largest index, as it is written in front of the records. -/
def count (pool : ConstantPool) : UInt16 := UInt16.ofNat pool.records.nextOffset

/-- The record at an index. -/
def get? (pool : ConstantPool) (index : ConstantIndex) : Option Constant :=
  pool.records.get? index.toNat

/-- Appends the count and every record. -/
def put (b : Bytes) (pool : ConstantPool) : Bytes :=
  pool.records.entries.foldl (fun b (_, c) => c.put b) (b.putU16 pool.count)

/-- Places a record at the end, if an index is left for it.  The largest index is 65535. -/
def push (c : Constant) : PoolM ConstantIndex := fun ⟨records, lookup, bootstrap, types⟩ =>
  if 65535 < records.nextOffset + width c then
    (.error (.constantPoolOverflow c records.nextOffset), ⟨records, lookup, bootstrap, types⟩)
  else
    let (offset, records) := records.push c
    (.ok (UInt16.ofNat offset), ⟨records, lookup, bootstrap, types⟩)

/-- Remembers where a record was placed, unless an equal one is remembered already. -/
def remember (c : Constant) (index : ConstantIndex) : PoolM Unit :=
  modify fun ⟨records, lookup, bootstrap, types⟩ =>
    ⟨records, (lookup.insert c index).2, bootstrap, types⟩

/-- The index of a record, which is new when the record is. -/
def intern (c : Constant) : PoolM ConstantIndex := do
  match (← get).lookup.get? c with
  | some index => return index
  | none =>
    let index ← push c
    remember c index
    return index

/-- Runs an operation on the table of types. -/
def onTypes {α : Type} (f : TypeM α) : PoolM α := fun ⟨records, lookup, bootstrap, types⟩ =>
  let (answer, types) := f types
  (answer, ⟨records, lookup, bootstrap, types⟩)

/-! ## Records by their parts

Each operation gives the index of a record, after giving indices to the records that it refers
to, in the order in which they stand in it. -/

/-- A string record. -/
def utf8 (text : String) : PoolM ConstantIndex := intern (.utf8 text)

/-- A class or an array, from its internal name or its descriptor. -/
def classRef (name : String) : PoolM ConstantIndex := do intern (.classRef (← utf8 name))

/-- A string constant. -/
def string (text : String) : PoolM ConstantIndex := do intern (.string (← utf8 text))

/-- A name and a descriptor. -/
def nameAndType (name descriptor : String) : PoolM ConstantIndex := do
  let name ← utf8 name
  let descriptor ← utf8 descriptor
  intern (.nameAndType name descriptor)

/-- A field of a class. -/
def fieldRef (owner name descriptor : String) : PoolM ConstantIndex := do
  let owner ← classRef owner
  let member ← nameAndType name descriptor
  intern (.fieldRef owner member)

/-- A method of a class or of an interface. -/
def methodRef (owner name descriptor : String) (interface : Bool) : PoolM ConstantIndex := do
  let owner ← classRef owner
  let member ← nameAndType name descriptor
  intern (.methodRef owner member interface)

/-- A method handle. -/
def methodHandle (h : MethodHandle) : PoolM ConstantIndex := do
  let member ←
    if h.kind.isField then fieldRef h.owner h.name h.descriptor
    else methodRef h.owner h.name h.descriptor h.interface
  intern (.methodHandle h.kind member)

/-- A method type. -/
def methodType (descriptor : String) : PoolM ConstantIndex := do
  intern (.methodType (← utf8 descriptor))

/-- A module. -/
def module (name : String) : PoolM ConstantIndex := do intern (.module (← utf8 name))

/-- A package. -/
def package (name : String) : PoolM ConstantIndex := do intern (.package (← utf8 name))

/-- Refuses the number of an entry that is not in the bootstrap table. -/
def checkBootstrap (index : UInt16) : PoolM Unit := do
  unless index.toNat < (← get).bootstrap.entries.size do
    throw (.missingBootstrapMethod index)

/-- The number of an entry of the bootstrap table. -/
def internBootstrap (e : BootstrapEntry) : PoolM UInt16 :=
  modifyGet fun ⟨records, lookup, bootstrap, types⟩ =>
    let (index, bootstrap) := bootstrap.intern e
    (index, ⟨records, lookup, bootstrap, types⟩)

/-- A dynamic constant, made by an entry of the bootstrap table. -/
def dynamic (name descriptor : String) (bootstrap : UInt16) : PoolM ConstantIndex := do
  checkBootstrap bootstrap
  let member ← nameAndType name descriptor
  intern (.dynamic bootstrap member)

/-- A dynamic call site, made by an entry of the bootstrap table. -/
def invokeDynamic (name descriptor : String) (bootstrap : UInt16) : PoolM ConstantIndex := do
  checkBootstrap bootstrap
  let member ← nameAndType name descriptor
  intern (.invokeDynamic bootstrap member)

/- A loadable constant, and the arguments of a bootstrap method, of which `done` holds the
indices already given, the last one first. -/
mutual

/-- A loadable constant. -/
def loadable : Loadable → PoolM ConstantIndex
  | .integer value => intern (.integer value)
  | .float value => intern (.float value)
  | .long value => intern (.long value)
  | .double value => intern (.double value)
  | .string text => string text
  | .type name => classRef name
  | .methodType descriptor => methodType descriptor
  | .handle h => methodHandle h
  | .dynamic name descriptor bootstrap arguments => do
    let handle ← methodHandle bootstrap
    let arguments ← loadables [] arguments
    dynamic name descriptor (← internBootstrap ⟨handle, arguments⟩)

/-- The indices of loadable constants, behind those already `done`, the last one first. -/
def loadables (done : List ConstantIndex) : List Loadable → PoolM (List ConstantIndex)
  | [] => return done.reverse
  | value :: values => do loadables ((← loadable value) :: done) values

end

/-- The number of a bootstrap method with its arguments. -/
def bootstrapMethod (handle : MethodHandle) (arguments : List Loadable) : PoolM UInt16 := do
  let handle ← methodHandle handle
  let arguments ← loadables [] arguments
  internBootstrap ⟨handle, arguments⟩

/-- An attribute under the index of its name. -/
def named (a : Attribute) : PoolM RawAttribute := do
  return ⟨← utf8 a.name, a.payload⟩

/-- The attribute of bootstrap methods, if there are any. -/
def bootstrapAttribute? : PoolM (Option RawAttribute) := do
  let entries := (← get).bootstrap.entries
  if entries.isEmpty then return none
  return some (← named (.bootstrapMethods entries.toList))

end ConstantPool

end ClassFile
