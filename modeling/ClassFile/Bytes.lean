/-
# Byte strings and big-endian words

A class file is a string of bytes in which every number is a big-endian word: `w` bytes that
write a number in base 256, most significant byte first.  This module owns the two directions
of that rule and the operations of a growing output buffer.

* `wordBytes w n` writes the last `w` digits of `n`; `wordValue` reads digits back.
* `wordValue_wordBytes`: reading what was written gives `n` modulo `256 ^ w`, so nothing is
  lost when `n` fits.
* `Bytes.put…` appends, `Bytes.set…` overwrites bytes that are already there.  Each `put` has
  one equation on `toList`.
-/
namespace ClassFile

/-- A string of bytes. -/
abbrev Bytes := Array UInt8

/-! ## 1. Numbers as digits in base 256 -/

/-- The last `w` digits of `n` in base 256, most significant first. -/
def wordBytes : Nat → Nat → List UInt8
  | 0, _ => []
  | w + 1, n => wordBytes w (n / 256) ++ [UInt8.ofNat n]

/-- The number that a list of digits in base 256 writes. -/
def wordValue (digits : List UInt8) : Nat :=
  digits.foldl (fun n d => n * 256 + d.toNat) 0

@[simp] theorem length_wordBytes (w n : Nat) : (wordBytes w n).length = w := by
  induction w generalizing n with
  | zero => rfl
  | succ w ih => simp [wordBytes, ih]

@[simp] theorem wordValue_nil : wordValue [] = 0 := rfl

theorem wordValue_append_singleton (ds : List UInt8) (d : UInt8) :
    wordValue (ds ++ [d]) = wordValue ds * 256 + d.toNat := by
  simp [wordValue]

/-- **Reading a written word gives it back**, up to the digits that did not fit. -/
theorem wordValue_wordBytes (w n : Nat) : wordValue (wordBytes w n) = n % Nat.pow 256 w := by
  induction w generalizing n with
  | zero => simp [wordBytes, Nat.mod_one]
  | succ w ih =>
    have hpow : Nat.pow 256 (w + 1) = 256 * Nat.pow 256 w := Nat.mul_comm _ _
    have hdigit : (UInt8.ofNat n).toNat = n % 256 := UInt8.toNat_ofNat'
    rw [wordBytes, wordValue_append_singleton, ih, hpow, Nat.mod_mul, hdigit]
    omega

theorem foldl_digits_lt (ds : List UInt8) (n : Nat) :
    ds.foldl (fun n d => n * 256 + d.toNat) n < (n + 1) * Nat.pow 256 ds.length := by
  induction ds generalizing n with
  | nil => exact Nat.lt_of_lt_of_eq n.lt_succ_self (Nat.mul_one _).symm
  | cons d ds ih =>
    have hd := d.toNat_lt
    have hpow : Nat.pow 256 (d :: ds).length = 256 * Nat.pow 256 ds.length := Nat.mul_comm _ _
    rw [List.foldl_cons, hpow, ← Nat.mul_assoc]
    exact Nat.lt_of_lt_of_le (ih _) (Nat.mul_le_mul_right _ (by omega))

/-- A word of `w` bytes is below `256 ^ w`. -/
theorem wordValue_lt (ds : List UInt8) : wordValue ds < Nat.pow 256 ds.length := by
  have h := foldl_digits_lt ds 0
  rwa [Nat.zero_add, Nat.one_mul] at h

/-! ## 2. Appending -/

namespace Bytes

/-- The empty buffer. -/
def empty : Bytes := #[]

/-- Appends the bytes of a list. -/
def putList (b : Bytes) (bytes : List UInt8) : Bytes := b ++ bytes

/-- Appends the `w` byte word of a number. -/
def putWord (b : Bytes) (w n : Nat) : Bytes := b ++ wordBytes w n

/-- Appends one byte. -/
def putU8 (b : Bytes) (v : UInt8) : Bytes := b.push v

/-- Appends a two byte word. -/
def putU16 (b : Bytes) (v : UInt16) : Bytes := b.putWord 2 v.toNat

/-- Appends a four byte word. -/
def putU32 (b : Bytes) (v : UInt32) : Bytes := b.putWord 4 v.toNat

/-- Appends an eight byte word. -/
def putU64 (b : Bytes) (v : UInt64) : Bytes := b.putWord 8 v.toNat

/-- Appends a signed two byte word in two's complement. -/
def putI16 (b : Bytes) (v : Int16) : Bytes := b.putU16 v.toUInt16

/-- Appends a signed four byte word in two's complement. -/
def putI32 (b : Bytes) (v : Int32) : Bytes := b.putU32 v.toUInt32

/-- Appends a signed eight byte word in two's complement. -/
def putI64 (b : Bytes) (v : Int64) : Bytes := b.putU64 v.toUInt64

/-- Appends a byte and a byte, such as an opcode and a one byte operand. -/
def put11 (b : Bytes) (first second : UInt8) : Bytes := (b.putU8 first).putU8 second

/-- Appends a byte and a two byte word, such as an opcode and a constant index. -/
def put12 (b : Bytes) (first : UInt8) (second : UInt16) : Bytes := (b.putU8 first).putU16 second

/-- Appends another string of bytes. -/
def putBytes (b other : Bytes) : Bytes := b ++ other

/-- Appends a table of two byte words, preceded by their number. -/
def putU16s (b : Bytes) (words : List UInt16) : Bytes :=
  words.foldl putU16 (b.putU16 (UInt16.ofNat words.length))

/-- Appends an attribute: the index of its name, the length of its payload in four bytes, and
the payload. -/
def putAttribute (b : Bytes) (name : UInt16) (payload : Bytes) : Bytes :=
  ((b.putU16 name).putU32 (UInt32.ofNat payload.size)).putBytes payload

/-- Pads with zero bytes until the length is a multiple of four. -/
def align4 (b : Bytes) : Bytes := b ++ List.replicate ((4 - b.size % 4) % 4) (0 : UInt8)

@[simp] theorem toList_putList (b : Bytes) (l : List UInt8) :
    (b.putList l).toList = b.toList ++ l := by simp [putList]

@[simp] theorem toList_putWord (b : Bytes) (w n : Nat) :
    (b.putWord w n).toList = b.toList ++ wordBytes w n := by simp [putWord]

@[simp] theorem toList_putU8 (b : Bytes) (v : UInt8) :
    (b.putU8 v).toList = b.toList ++ [v] := by simp [putU8]

@[simp] theorem toList_putU16 (b : Bytes) (v : UInt16) :
    (b.putU16 v).toList = b.toList ++ wordBytes 2 v.toNat := by simp [putU16]

@[simp] theorem toList_putU32 (b : Bytes) (v : UInt32) :
    (b.putU32 v).toList = b.toList ++ wordBytes 4 v.toNat := by simp [putU32]

@[simp] theorem toList_putU64 (b : Bytes) (v : UInt64) :
    (b.putU64 v).toList = b.toList ++ wordBytes 8 v.toNat := by simp [putU64]

@[simp] theorem toList_putBytes (b other : Bytes) :
    (b.putBytes other).toList = b.toList ++ other.toList := by simp [putBytes]

@[simp] theorem toList_putAttribute (b : Bytes) (name : UInt16) (payload : Bytes) :
    (b.putAttribute name payload).toList =
      b.toList ++ wordBytes 2 name.toNat ++ wordBytes 4 (UInt32.ofNat payload.size).toNat ++
        payload.toList := by
  simp [putAttribute]

/-! ## 3. Overwriting -/

/-- Overwrites the bytes from `position` on; what would fall past the end is dropped. -/
def setList (b : Bytes) (position : Nat) : List UInt8 → Bytes
  | [] => b
  | d :: ds => setList (b.setIfInBounds position d) (position + 1) ds

/-- Overwrites a two byte word. -/
def setU16 (b : Bytes) (position : Nat) (v : UInt16) : Bytes :=
  b.setList position (wordBytes 2 v.toNat)

/-- Overwrites a signed two byte word. -/
def setI16 (b : Bytes) (position : Nat) (v : Int16) : Bytes := b.setU16 position v.toUInt16

/-- Overwrites a signed four byte word. -/
def setI32 (b : Bytes) (position : Nat) (v : Int32) : Bytes :=
  b.setList position (wordBytes 4 v.toUInt32.toNat)

@[simp] theorem size_setList (b : Bytes) (position : Nat) (ds : List UInt8) :
    (b.setList position ds).size = b.size := by
  induction ds generalizing b position with
  | nil => rfl
  | cons d ds ih => simp [setList, ih]

/-- Room for a two byte word that is filled in later, given by its position. -/
structure Placeholder where
  position : Nat
  deriving DecidableEq, Repr

/-- Reserves room for a two byte word, which is zero until it is filled in. -/
def reserveU16 (b : Bytes) : Placeholder × Bytes := (⟨b.size⟩, b.putU16 0)

/-- Fills in a reserved word. -/
def patchU16 (b : Bytes) (placeholder : Placeholder) (v : UInt16) : Bytes :=
  b.setU16 placeholder.position v

/-! ## 4. Reading -/

/-- The bytes from `offset` up to `offset + length`, if all of them are there. -/
def slice? (b : Bytes) (offset length : Nat) : Option Bytes :=
  if offset + length ≤ b.size then some (b.extract offset (offset + length)) else none

/-- The `w` byte word at `offset`, if all of it is there. -/
def word? (b : Bytes) (w offset : Nat) : Option Nat :=
  (b.slice? offset w).map fun s => wordValue s.toList

theorem slice?_eq_none_iff {b : Bytes} {offset length : Nat} :
    b.slice? offset length = none ↔ b.size < offset + length := by
  unfold slice?
  split <;> simp <;> omega

theorem word?_eq_none_iff {b : Bytes} {w offset : Nat} :
    b.word? w offset = none ↔ b.size < offset + w := by
  simp [word?, slice?_eq_none_iff]

end Bytes

end ClassFile
