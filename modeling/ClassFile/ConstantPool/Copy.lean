/-
# Copying the pool of a class file

A copied pool has every record of the class file at the index that it has there, so that indices
into the file stay valid, and every entry of its bootstrap table.  Constants that are asked for
afterwards reuse the copied records; of equal records, the first one counts.
-/
import ClassFile.ClassBytes.Records
import ClassFile.ConstantPool.Basic

namespace ClassFile.ConstantPool

/-- So many words from an offset on, and the offset behind them. -/
def wordsAt (b : Bytes) (count offset : Nat) : Except Error (List UInt16) :=
  (List.range count).mapM fun i => b.u16At (offset + 2 * i)

/-- Copies so many entries of a bootstrap table from an offset on. -/
def copyBootstrap (b : Bytes) : Nat → Nat → PoolM Unit
  | 0, _ => return
  | count + 1, offset => do
    let handle ← b.u16At offset
    let length := (← b.u16At (offset + 2)).toNat
    let arguments ← wordsAt b length (offset + 4)
    let _ ← internBootstrap ⟨handle, arguments⟩
    copyBootstrap b count (offset + 4 + 2 * length)

/-- The record of a class file at an index, for a pool whose bootstrap table has so many
entries. -/
def recordAt (source : ClassBytes) (bootstraps : Nat) (index : ConstantIndex) :
    Except Error Constant := do
  let offset ← source.itemOffset index
  let b := source.bytes
  let byte ← b.u8At offset
  let entry (bootstrap : UInt16) : Except Error Unit :=
    if bootstrap.toNat < bootstraps then .ok () else .error (.missingBootstrapMethod bootstrap)
  match Constant.Tag.ofByte? byte with
  | none => throw (.invalidConstantTag byte offset)
  | some .utf8 => return .utf8 (← source.readUtf8 index)
  | some .integer => return .integer (← b.i32At (offset + 1))
  | some .float => return .float (← b.singleAt (offset + 1))
  | some .long => return .long (← b.i64At (offset + 1))
  | some .double => return .double (← b.doubleAt (offset + 1))
  | some .classRef => return .classRef (← b.u16At (offset + 1))
  | some .string => return .string (← b.u16At (offset + 1))
  | some .module => return .module (← b.u16At (offset + 1))
  | some .package => return .package (← b.u16At (offset + 1))
  | some .methodType => return .methodType (← b.u16At (offset + 1))
  | some .fieldRef => return .fieldRef (← b.u16At (offset + 1)) (← b.u16At (offset + 3))
  | some .methodRef => return .methodRef (← b.u16At (offset + 1)) (← b.u16At (offset + 3)) false
  | some .interfaceMethodRef =>
    return .methodRef (← b.u16At (offset + 1)) (← b.u16At (offset + 3)) true
  | some .nameAndType => return .nameAndType (← b.u16At (offset + 1)) (← b.u16At (offset + 3))
  | some .methodHandle =>
    match HandleKind.ofTag? (← b.u8At (offset + 1)) with
    | some kind => return .methodHandle kind (← b.u16At (offset + 2))
    | none => throw (.unexpectedConstant index .methodHandle)
  | some .dynamic =>
    let bootstrap ← b.u16At (offset + 1)
    entry bootstrap
    return .dynamic bootstrap (← b.u16At (offset + 3))
  | some .invokeDynamic =>
    let bootstrap ← b.u16At (offset + 1)
    entry bootstrap
    return .invokeDynamic bootstrap (← b.u16At (offset + 3))

/-- Copies the records of a class file from `index` on. -/
def copyRecords (source : ClassBytes) (index : Nat) : PoolM Unit := do
  if index < source.itemCount.toNat then
    let bootstraps := (← get).bootstrap.entries.size
    let c ← recordAt source bootstraps (UInt16.ofNat index)
    remember c (← push c)
    copyRecords source (index + width c)
termination_by source.itemCount.toNat - index
decreasing_by have := Constant.width_pos c; omega

/-- The pool of a class file, with the bootstrap table whose payload is at an offset. -/
def copyOf (source : ClassBytes) (bootstrapTable : Option Nat) : Except Error ConstantPool :=
  let copy : PoolM Unit := do
    match bootstrapTable with
    | some offset =>
      let count ← source.bytes.u16At offset
      copyBootstrap source.bytes count.toNat (offset + 2)
    | none => pure ()
    copyRecords source 1
  match copy.run ConstantPool.empty with
  | (.ok (), pool) => .ok pool
  | (.error e, _) => .error e

end ClassFile.ConstantPool
