/-
# Reference types by number

While the types of locals and stack entries are inferred, a reference type is a number: an entry
of a `TypeTable`.  An entry is either a class or array with its name, or what the `new`
instruction at some offset has made and no constructor has run on yet.  Equal entries have one
number, and a number once given keeps its entry.

Merging two types asks a `Hierarchy` for the nearest common super class and falls back on
`java/lang/Object`.  The answer is kept for each unordered pair.
-/
import ClassFile.Error
import ClassFile.Hierarchy
import ClassFile.InternTable

namespace ClassFile

/-- The number of an entry of a type table. -/
abbrev TypeIndex := Nat

/-- A reference type. -/
inductive TypeEntry where
  /-- A class, given by its internal name, or an array, given by its descriptor. -/
  | initialized (name : String)
  /-- What the `new` instruction at `offset` has made, before its constructor has run. -/
  | uninitialized (name : String) (offset : Nat)
  deriving DecidableEq, Hashable, Repr

/-- The class of a reference type, once its constructor has run. -/
def TypeEntry.name : TypeEntry → String
  | initialized name | uninitialized name _ => name

/-- The root of all classes, which is what merging two types gives when nothing is known. -/
def rootClass : String := "java/lang/Object"

/-- Reference types by number, and what merging them has given so far. -/
structure TypeTable where
  entries : Array TypeEntry
  lookup : InternTable TypeEntry TypeIndex
  merges : InternTable (TypeIndex × TypeIndex) TypeIndex

/-- What an operation on a table of types does: it gives an answer or an error, and the table
afterwards. -/
abbrev TypeM := ExceptT Error (StateM TypeTable)

namespace TypeTable

/-- The table without types. -/
def empty : TypeTable := ⟨#[], .empty, .empty⟩

/-- The entry of a number. -/
def entry (index : TypeIndex) : TypeM TypeEntry := do
  match (← get).entries[index]? with
  | some e => return e
  | none => throw (.invalidTypeIndex index)

/-- The number of an entry, which is new when the entry is. -/
def intern (e : TypeEntry) : TypeM TypeIndex := modifyGet fun ⟨entries, lookup, merges⟩ =>
  let next := entries.size
  let (index, lookup) := lookup.insert e next
  if index = next then (index, ⟨entries.push e, lookup, merges⟩)
  else (index, ⟨entries, lookup, merges⟩)

/-- The number of a class or an array. -/
def initialized (name : String) : TypeM TypeIndex := intern (.initialized name)

/-- The number of what the `new` instruction at an offset makes. -/
def uninitialized (name : String) (offset : Nat) : TypeM TypeIndex :=
  intern (.uninitialized name offset)

/-- The number of the nearest common super class of two types. -/
def merged (hierarchy : Hierarchy) (a b : TypeIndex) : TypeM TypeIndex := do
  let pair := (min a b, max a b)
  match (← get).merges.get? pair with
  | some index => return index
  | none =>
    let nameA := (← entry a).name
    let nameB := (← entry b).name
    let index ← initialized ((hierarchy.commonSuperclass nameA nameB).getD rootClass)
    modify fun ⟨entries, lookup, merges⟩ => ⟨entries, lookup, (merges.insert pair index).2⟩
    return index

end TypeTable

end ClassFile
