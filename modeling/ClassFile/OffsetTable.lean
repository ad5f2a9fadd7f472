/-
# Tables indexed by the sum of widths

The records of a constant pool are numbered by slots, and some records take two: the index of a
record is the sum of the widths of the records before it, plus the index of the first.  An
`OffsetTable` keeps elements with their offsets.

* `push` places an element at `nextOffset` and returns that offset; offsets are words of 64 bits, so
  the next offset goes round where there is no larger one;
* `get?` finds the element placed at an offset, and nothing for an offset inside a wide element,
  before the first one or past the last one;
* `toList` is the view: the elements with their offsets, in the order of pushing.
-/
namespace ClassFile

/-- Elements that take up a number of slots. -/
class HasWidth (α : Type) where
  width : α → Nat

export HasWidth (width)

/-- Elements with the offsets at which they were placed, and the offset of the next one. -/
structure OffsetTable (α : Type) where
  entries : Array (Nat × α)
  nextOffset : Nat

namespace OffsetTable

variable {α : Type}

/-- The empty table whose first element will be placed at `start`. -/
def startingAt (start : Nat) : OffsetTable α := ⟨#[], start⟩

/-- The elements with their offsets, in the order of pushing. -/
def toList (t : OffsetTable α) : List (Nat × α) := t.entries.toList

/-- The elements with their offsets and their positions, in the order of pushing. -/
def enumerate (t : OffsetTable α) : List (Nat × Nat × α) :=
  t.toList.mapIdx fun i (offset, x) => (offset, i, x)

/-- The number of elements, which is not the number of slots. -/
def size (t : OffsetTable α) : Nat := t.entries.size

/-- Is the table without elements? -/
def isEmpty (t : OffsetTable α) : Bool := t.entries.isEmpty

/-- Places an element at the end; also its offset.  The next offset is a word of 64 bits. -/
def push [HasWidth α] (t : OffsetTable α) (x : α) : Nat × OffsetTable α :=
  let ⟨entries, offset⟩ := t
  (offset, ⟨entries.push (offset, x), (offset + width x) % UInt64.size⟩)

/-- Halves the range of the `size` entries from `base` on, keeping the half that holds the last
entry placed at or before `offset`, until one entry is left. -/
def search (entries : Array (Nat × α)) (offset base size : Nat) : Nat :=
  if size ≤ 1 then base
  else
    let middle := base + size / 2
    match entries[middle]? with
    | some (placed, _) =>
      search entries offset (if offset < placed then base else middle) (size - size / 2)
    | none => base
termination_by size

/-- The element placed at an offset. -/
def get? (t : OffsetTable α) (offset : Nat) : Option α :=
  match t.entries[search t.entries offset 0 t.entries.size]? with
  | some (placed, x) => if placed = offset then some x else none
  | none => none

@[simp] theorem toList_startingAt (start : Nat) :
    (startingAt start : OffsetTable α).toList = [] := rfl

@[simp] theorem toList_push [HasWidth α] (t : OffsetTable α) (x : α) :
    (t.push x).2.toList = t.toList ++ [(t.nextOffset, x)] := by simp [push, toList]

theorem nextOffset_push [HasWidth α] {t : OffsetTable α} {x : α}
    (hfits : t.nextOffset + width x < UInt64.size) :
    (t.push x).2.nextOffset = t.nextOffset + width x := Nat.mod_eq_of_lt hfits

@[simp] theorem fst_push [HasWidth α] (t : OffsetTable α) (x : α) :
    (t.push x).1 = t.nextOffset := rfl

end OffsetTable

end ClassFile
