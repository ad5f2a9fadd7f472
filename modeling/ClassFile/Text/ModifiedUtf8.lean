/-
# Modified UTF-8

The encoding of strings in class files.  It differs from UTF-8 in two ways: U+0000 takes two
bytes, so that no encoded string holds a zero byte, and a character above U+FFFF is written as
the two three-byte forms of its surrogate pair, so that no encoded string holds a byte of
`0xF0` or more.

* `encodeChar` writes one character; `encode` writes a string character by character.
* `decodeUnits` reads groups of one, two or three bytes as UTF-16 code units, and on a byte that
  fits no group gives its position.
* `ofUnits` joins surrogate pairs; a surrogate that stands alone becomes U+FFFD.
-/
import ClassFile.Bytes

namespace ClassFile.ModifiedUtf8

/-! ## 1. Encoding -/

/-- The bytes of one character. -/
def encodeChar (c : Char) : List UInt8 :=
  let code := c.val
  match if c = '\x00' then 2 else c.utf8Size with
  | 1 => [code.toUInt8]
  | 2 => [(code >>> 6 &&& 0x1F).toUInt8 ||| 0xC0, (code &&& 0x3F).toUInt8 ||| 0x80]
  | 3 => [(code >>> 12 &&& 0x0F).toUInt8 ||| 0xE0, (code >>> 6 &&& 0x3F).toUInt8 ||| 0x80,
      (code &&& 0x3F).toUInt8 ||| 0x80]
  | _ => [0xED, ((code >>> 16 &&& 0x0F).toUInt8 - 1) &&& 0x0F ||| 0xA0,
      (code >>> 10 &&& 0x3F).toUInt8 ||| 0x80,
      0xED, (code >>> 6 &&& 0x1F).toUInt8 ||| 0xB0, (code &&& 0x3F).toUInt8 ||| 0x80]

/-- The bytes of a text. -/
def encodeChars (s : List Char) : List UInt8 := s.flatMap encodeChar

/-- The bytes of a string. -/
def encode (s : String) : Bytes := (encodeChars s.toList).toArray

example : encode "a\x00" = #[0x61, 0xC0, 0x80] := by cbv

/-! ## 2. UTF-16 code units as characters -/

/-- The first unit of a surrogate pair. -/
def isHigh (u : Nat) : Bool := 0xD800 ≤ u && u < 0xDC00

/-- The second unit of a surrogate pair. -/
def isLow (u : Nat) : Bool := 0xDC00 ≤ u && u < 0xE000

/-- The character that stands for a surrogate without its partner. -/
def replacement : Char := '\uFFFD'

/-- The character that one unit writes by itself. -/
def charOfUnit (u : Nat) : Char :=
  if isHigh u || isLow u then replacement else Char.ofNat u

/-- The character that a surrogate pair writes. -/
def charOfPair (high low : Nat) : Char :=
  Char.ofNat (0x10000 + (high - 0xD800) * 0x400 + (low - 0xDC00))

/-- Joins surrogate pairs and appends the characters to `done`; a surrogate that stands alone
becomes the replacement character. -/
def joinUnits (done : Array Char) : List Nat → Array Char
  | [] => done
  | [u] => done.push (charOfUnit u)
  | u :: v :: rest =>
    if isHigh u && isLow v then joinUnits (done.push (charOfPair u v)) rest
    else joinUnits (done.push (charOfUnit u)) (v :: rest)

/-- The text that a list of units writes. -/
def ofUnits (us : List Nat) : List Char := (joinUnits #[] us).toList

/-! ## 3. Decoding -/

/-- A byte that continues a group: `10xxxxxx`. -/
def isContinuation (b : UInt8) : Bool := 0x80 ≤ b.toNat && b.toNat < 0xC0

/-- The first byte of a group of two: `110xxxxx`. -/
def leadsTwo (b : UInt8) : Bool := 0xC0 ≤ b.toNat && b.toNat < 0xE0

/-- The first byte of a group of three: `1110xxxx`. -/
def leadsThree (b : UInt8) : Bool := 0xE0 ≤ b.toNat && b.toNat < 0xF0

/-- The six bits that a continuation byte carries. -/
def low6 (b : UInt8) : Nat := b.toNat % 0x40

/-- Reads groups from a list of bytes whose first byte stands at `position`, and appends their
units to `done`.  The error is the position of the first byte that fits no group, which is the
length of the input when the last group is cut short. -/
def decodeUnits (position : Nat) (done : Array Nat) : List UInt8 → Except Nat (Array Nat)
  | [] => .ok done
  | b :: rest =>
    if b.toNat < 0x80 then decodeUnits (position + 1) (done.push b.toNat) rest
    else if leadsTwo b then
      match rest with
      | c :: rest =>
        if isContinuation c then
          decodeUnits (position + 2) (done.push (b.toNat % 0x20 * 0x40 + low6 c)) rest
        else .error (position + 1)
      | [] => .error (position + 1)
    else if leadsThree b then
      match rest with
      | c :: d :: rest =>
        if isContinuation c then
          if isContinuation d then
            decodeUnits (position + 3)
              (done.push (b.toNat % 0x10 * 0x1000 + low6 c * 0x40 + low6 d)) rest
          else .error (position + 2)
        else .error (position + 1)
      | [c] => .error (if isContinuation c then position + 2 else position + 1)
      | [] => .error (position + 1)
    else .error position

/-- Decodes the bytes of a string; the error is the position of the first byte that does not
fit. -/
def decode (bytes : Bytes) : Except Nat String :=
  (decodeUnits 0 #[] bytes.toList).map fun us => String.ofList (ofUnits us.toList)

example : decode #[0x61, 0xC0, 0x80] = .ok "a\x00" := by cbv
example : decode #[0x61, 0xE0, 0x80] = .error 3 := by cbv

end ClassFile.ModifiedUtf8
