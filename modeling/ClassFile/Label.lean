/-
# Labels

A label names a position in the code of a method before the position is known: jumps, switches,
exception handlers and debug tables mention it, and it is placed once.  A label that only debug
tables mention is a *debug* label; it never starts a block.
-/
namespace ClassFile

/-- A name for a position in the code of one method. -/
structure Label where
  id : Nat
  debug : Bool
  deriving DecidableEq, Hashable, Repr

/-- A label as it stands in text, where a hyphen marks a debug label. -/
def Label.text (l : Label) : String := (if l.debug then "L-" else "L") ++ toString l.id

end ClassFile
