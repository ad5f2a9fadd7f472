/-
# Quoted text

Strings inside the text of a value are quoted: a quote and a backslash are escaped by a
backslash, the common control characters by a letter, and every other character that has no
visible form of its own by its number in hexadecimal.

Here also stands the shape of compound texts: `call name fields` is `name(a, b)`, `bracketed`
is `[a, b]`, and `braced name fields` is the name followed by fields in braces.
-/
namespace ClassFile.Text

/-! ## 1. Characters without a visible form -/

/-- The code points of control and format characters, blanks other than the space, combining
marks and private use, as closed ranges. -/
def hiddenRanges : List (Nat × Nat) :=
  [(0x0000, 0x001F), (0x007F, 0x00A0), (0x00AD, 0x00AD), (0x0300, 0x036F), (0x0483, 0x0489),
   (0x0600, 0x0605), (0x061C, 0x061C), (0x06DD, 0x06DD), (0x070F, 0x070F), (0x1680, 0x1680),
   (0x180B, 0x180F), (0x1AB0, 0x1ACE), (0x1DC0, 0x1DFF), (0x2000, 0x200F), (0x2028, 0x202F),
   (0x205F, 0x206F), (0x20D0, 0x20F0), (0x3000, 0x3000), (0x302A, 0x302F), (0x3099, 0x309A),
   (0xE000, 0xF8FF), (0xFE00, 0xFE0F), (0xFE20, 0xFE2F), (0xFEFF, 0xFEFF), (0xFFF0, 0xFFFB),
   (0xFFFE, 0xFFFF), (0xE0000, 0xE0FFF), (0xF0000, 0x10FFFF)]

/-- A character that is written by its number. -/
def isHidden (c : Char) : Bool :=
  hiddenRanges.any fun (lo, hi) => lo ≤ c.toNat && c.toNat ≤ hi

/-! ## 2. Quoting -/

/-- The digits of a number in base sixteen, lower case. -/
def hexDigits (n : Nat) : List Char := Nat.toDigits 16 n

/-- A character as it stands between quotes. -/
def escape (c : Char) : List Char :=
  if c = '\x00' then ['\\', '0']
  else if c = '\t' then ['\\', 't']
  else if c = '\r' then ['\\', 'r']
  else if c = '\n' then ['\\', 'n']
  else if c = '"' then ['\\', '"']
  else if c = '\\' then ['\\', '\\']
  else if isHidden c then ['\\', 'u', '\x7b'] ++ hexDigits c.toNat ++ ['\x7d']
  else [c]

/-- A string between quotes. -/
def quote (s : String) : String :=
  "\"" ++ String.ofList (s.toList.flatMap escape) ++ "\""

/-! ## 3. Compound texts -/

/-- The texts with a comma and a space between each two. -/
def commaSeparated (items : List String) : String := ", ".intercalate items

/-- A name followed by its arguments in parentheses. -/
def call (name : String) (arguments : List String) : String :=
  name ++ "(" ++ commaSeparated arguments ++ ")"

/-- A list in brackets. -/
def bracketed (items : List String) : String := "[" ++ commaSeparated items ++ "]"

/-- A name followed by named fields in braces. -/
def braced (name : String) (fields : List (String × String)) : String :=
  name ++ " \x7b " ++ commaSeparated (fields.map fun (field, value) => field ++ ": " ++ value) ++
    " \x7d"

/-- The two truth values. -/
def truth (b : Bool) : String := if b then "true" else "false"

end ClassFile.Text
