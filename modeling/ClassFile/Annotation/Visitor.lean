/-
# Visitors of annotations

Whoever wants to know the values of an annotation gives the reader a visitor, which is told of each
value.  At the beginning of a nested annotation or of an array it hands out another visitor for what is
inside, or declines; then the values inside are only checked and walked over, as they are without any
visitor.  In all cases the answer is the offset behind what was read.

A visitor may do anything, so it is given by its operations (`AnnotationVisitor`): they may fail, and
they share a state.  `recorder` is the visitor that writes everything down as events.
-/
import ClassFile.Annotation.Decode

namespace ClassFile

/-- A computation of visitors with a shared state. -/
abbrev Visit (σ : Type) := ExceptT Error (StateM σ)

/-- What visitors of a type `V` do, with a shared state. -/
structure AnnotationVisitor (V σ : Type) where
  /-- A value as a whole. -/
  value : V → Option String → ElementValue → Visit σ Unit
  enumConstant : V → Option String → String → String → Visit σ Unit
  /-- A nested annotation, and the visitor for its values. -/
  beginNested : V → Option String → String → Visit σ (Option V)
  /-- An array, and the visitor for its values. -/
  beginArray : V → Option String → Visit σ (Option V)
  /-- The end of the annotation or the array that a visitor is for. -/
  finish : V → Visit σ Unit

namespace AnnotationVisitor

variable {V σ : Type}

/-- Tells the visitor, if there is one. -/
def tell (visitor : Option V) (f : V → Visit σ Unit) : Visit σ Unit :=
  match visitor with
  | some v => f v
  | none => return

/-- Asks the visitor for another one; without a visitor there is none. -/
def ask (visitor : Option V) (f : V → Visit σ (Option V)) : Visit σ (Option V) :=
  match visitor with
  | some v => f v
  | none => return none

/-- The visitor that emits all events. -/
def recorder : AnnotationVisitor Unit (Array AnnotationEvent) where
  value _ name v := Replay.emit (.value name v)
  enumConstant _ name descriptor v := Replay.emit (.enumConstant name descriptor v)
  beginNested _ name descriptor := do
    Replay.emit (.beginNested name descriptor)
    return some ()
  beginArray _ name := do
    Replay.emit (.beginArray name)
    return some ()
  finish _ := Replay.emit .finish

/-- Applies a step a number of times. -/
def times {α : Type} (step : α → Visit σ α) : Nat → α → Visit σ α
  | 0, a => return a
  | n + 1, a => do times step n (← step a)

end AnnotationVisitor

namespace ClassBytes

open AnnotationVisitor (tell ask times)

variable {V σ : Type}

/-- Reads the values of an annotation and its end, where `read` reads a value. -/
def visitAnnotationWith (c : ClassBytes) (k : AnnotationVisitor V σ)
    (read : Option V → Option String → Nat → Visit σ Nat) (visitor : Option V) (offset : Nat) :
    Visit σ Nat := do
  let count ← c.bytes.u16At offset
  let stop ← times (fun offset => do
    let name ← c.utf8At offset
    read visitor (some name) (offset + 2)) count.toNat (offset + 2)
  tell visitor k.finish
  return stop

/-- Reads a value at an offset, where `read` reads the values in it. -/
def visitValueWith (c : ClassBytes) (k : AnnotationVisitor V σ)
    (read : Option V → Option String → Nat → Visit σ Nat) (visitor : Option V)
    (name : Option String) (offset : Nat) : Visit σ Nat := do
  let byte ← c.bytes.u8At offset
  match Char.ofNat byte.toNat with
  | 'e' =>
    let descriptor ← c.utf8At (offset + 1)
    let value ← c.utf8At (offset + 3)
    tell visitor fun v => k.enumConstant v name descriptor value
    return offset + 5
  | '@' =>
    let descriptor ← c.utf8At (offset + 1)
    let inner ← ask visitor fun v => k.beginNested v name descriptor
    c.visitAnnotationWith k read inner (offset + 3)
  | '[' =>
    let count ← c.bytes.u16At (offset + 1)
    let inner ← ask visitor fun v => k.beginArray v name
    let stop ← times (read inner none) count.toNat (offset + 3)
    tell inner k.finish
    return stop
  | tag =>
    match ← c.readLiteral? tag (offset + 1) with
    | some value =>
      tell visitor fun v => k.value v name value
      return offset + 3
    | none => throw (.invalidAnnotationTag byte offset)

/-- Reads a value at an offset, when at most so many bytes are left. -/
def visitValueWithin (c : ClassBytes) (k : AnnotationVisitor V σ) :
    Nat → Option V → Option String → Nat → Visit σ Nat
  | 0, _, _, offset => throw (.unexpectedEof offset 1)
  | left + 1, visitor, name, offset =>
    c.visitValueWith k (c.visitValueWithin k left) visitor name offset

/-- Reads a value at an offset; gives the offset behind it. -/
def visitValue (c : ClassBytes) (k : AnnotationVisitor V σ) (visitor : Option V)
    (name : Option String) (offset : Nat) : Visit σ Nat :=
  c.visitValueWithin k (c.bytes.size - offset) visitor name offset

/-- Reads the values of an annotation at an offset and its end; gives the offset behind it. -/
def visitAnnotationAt (c : ClassBytes) (k : AnnotationVisitor V σ) (visitor : Option V)
    (offset : Nat) : Visit σ Nat :=
  c.visitAnnotationWith k (c.visitValueWithin k (c.bytes.size - offset)) visitor offset

end ClassBytes

end ClassFile
