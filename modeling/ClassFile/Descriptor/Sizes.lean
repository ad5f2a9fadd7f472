/-
# Slot counts without types

How many slots the arguments and the result of a method take can be counted while walking over
the bytes of its descriptor, without building any types.  The walk shares no code with the
parser: it moves a position over the UTF-8 bytes of the text, where the parser takes characters
from its front.

A field type takes at least one byte (`lt_of_fieldTypeEnd?`), which is why the walk over the
arguments ends.
-/
import ClassFile.Bytes
import ClassFile.Descriptor.Parser

namespace ClassFile.Descriptor

/-! ## 1. Field types -/

theorem lt_size_of_getElem? {bytes : Bytes} {position : Nat} {b : UInt8}
    (h : bytes[position]? = some b) : position < bytes.size :=
  (Array.getElem?_eq_some_iff.1 h).1

/-- Where the brackets at a position end. -/
def bracketsEnd (bytes : Bytes) (position : Nat) : Nat :=
  if _h : bytes[position]? = some '['.toUInt8 then bracketsEnd bytes (position + 1) else position
termination_by bytes.size - position
decreasing_by
  have := lt_size_of_getElem? _h
  omega

/-- The letters of base types. -/
def baseLetters : List UInt8 :=
  ['Z', 'B', 'C', 'S', 'I', 'F', 'J', 'D'].map Char.toUInt8

/-- The end of the class or base type that starts at a position.  A class name ends at the first
semicolon, and one that is empty has no end. -/
def elementEnd? (bytes : Bytes) (position : Nat) : Option Nat := do
  let first ← bytes[position]?
  if first = 'L'.toUInt8 then
    match ← (bytes.extract position bytes.size).findIdx? (· == ';'.toUInt8) with
    | 1 => none
    | semicolon => return position + semicolon + 1
  else if first ∈ baseLetters then return position + 1
  else none

/-- The end of the field type that starts at a position, if there is a well-formed one. -/
def fieldTypeEnd? (bytes : Bytes) (position : Nat) : Option Nat :=
  elementEnd? bytes (bracketsEnd bytes position)

theorem le_bracketsEnd (bytes : Bytes) (position : Nat) : position ≤ bracketsEnd bytes position := by
  fun_induction bracketsEnd bytes position with
  | case1 position h ih => omega
  | case2 position h => exact Nat.le_refl _

theorem lt_of_elementEnd? {bytes : Bytes} {position stop : Nat}
    (h : elementEnd? bytes position = some stop) : position < stop ∧ stop ≤ bytes.size := by
  unfold elementEnd? at h
  obtain ⟨first, hfirst, h⟩ := Option.bind_eq_some_iff.1 h
  have hlt := lt_size_of_getElem? hfirst
  split at h
  · obtain ⟨semicolon, hsemicolon, h⟩ := Option.bind_eq_some_iff.1 h
    split at h
    · exact nomatch h
    · obtain ⟨hlen, -⟩ := Array.findIdx?_eq_some_iff_getElem.1 hsemicolon
      rw [Array.size_extract] at hlen
      cases h
      omega
  · split at h
    · cases h
      omega
    · exact nomatch h

/-- A field type takes at least one byte. -/
theorem lt_of_fieldTypeEnd? {bytes : Bytes} {position stop : Nat}
    (h : fieldTypeEnd? bytes position = some stop) : position < stop ∧ stop ≤ bytes.size := by
  have hle := le_bracketsEnd bytes position
  have hlt := lt_of_elementEnd? h
  omega

/-- The slots of a value whose type stands between two positions. -/
def slotsBetween (bytes : Bytes) (start stop : Nat) : Nat :=
  if bytes.extract start stop = #['J'.toUInt8] ∨ bytes.extract start stop = #['D'.toUInt8] then 2
  else 1

/-! ## 2. Methods -/

/-- Counts the slots of arguments up to the closing parenthesis; also where that stands.  What is wide
has one letter, and is not measured. -/
def countArguments (bytes : Bytes) (slots position : Nat) : Option (Nat × Nat) :=
  match _hfirst : bytes[position]? with
  | none => none
  | some first =>
    if first = ')'.toUInt8 then some (slots, position)
    else if first = 'J'.toUInt8 ∨ first = 'D'.toUInt8 then
      countArguments bytes (slots + 2) (position + 1)
    else
      match _hend : fieldTypeEnd? bytes position with
      | none => none
      | some stop => countArguments bytes (slots + 1) stop
termination_by bytes.size - position
decreasing_by
  · have := lt_size_of_getElem? _hfirst
    omega
  · have := lt_of_fieldTypeEnd? _hend
    omega

/-- The slots of a result type that starts at a position and uses up the bytes. -/
def resultSlots? (bytes : Bytes) (start : Nat) : Option Nat :=
  if bytes.extract start bytes.size = #['V'.toUInt8] then some 0
  else
    match fieldTypeEnd? bytes start with
    | some stop => if stop = bytes.size then some (slotsBetween bytes start stop) else none
    | none => none

/-- Where the result type starts. -/
def resultStart? (bytes : Bytes) : Option Nat :=
  if bytes[0]? = some '('.toUInt8 then (countArguments bytes 1 1).map fun (_, closing) => closing + 1
  else none

/-- The slots of the arguments, with one for a receiver, and of the result. -/
def sizes? (bytes : Bytes) : Option (Nat × Nat) :=
  if bytes[0]? = some '('.toUInt8 then do
    let (arguments, closing) ← countArguments bytes 1 1
    let result ← resultSlots? bytes (closing + 1)
    return (arguments, result)
  else none

/-- The slots of the arguments and of the result of a method.  The arguments include a receiver,
which callers of static methods subtract. -/
def argumentAndResultSlots (descriptor : String) : Except DescriptorError (Nat × Nat) :=
  match sizes? descriptor.toUTF8.data with
  | some sizes => .ok sizes
  | none => .error (.malformedMethod descriptor)

example : argumentAndResultSlots "()J" = .ok (1, 2) := by cbv

end ClassFile.Descriptor
