/-
# Following an edge

What leaves a block along an edge is merged into the entry of the block that it leads to.  Along
most edges that is the exit of the block.  Along the edge to a handler, the locals can be those on
entry as well as those on exit, and the stack holds just what was thrown.

`Frame.mergeInto` also says whether the entry has changed; if not, following the edge again has
no effect.
-/
import ClassFile.Frame.Basic

namespace ClassFile

/-- What is merged along an edge: locals, possibly several times, and a stack. -/
structure Outflow where
  locals : List (List SlotType)
  stack : List SlotType

/-- Merges types into the slots from `index` on; types for which there is no slot are left out.
Also says whether something has changed, here or before. -/
def Slots.mergeFrom (hierarchy : Hierarchy) (slots : Array SlotType) (changed : Bool)
    (index : Nat) : List SlotType → TypeM (Bool × Array SlotType)
  | [] => return (changed, slots)
  | incoming :: rest => do
    match slots[index]? with
    | none => return (changed, slots)
    | some current =>
      let merged ← current.merge hierarchy incoming
      if merged = current then mergeFrom hierarchy slots changed (index + 1) rest
      else mergeFrom hierarchy (slots.setIfInBounds index merged) true (index + 1) rest

namespace Frame

/-- What leaves a block along an edge; `caught` is given if the edge leads to a handler. -/
def outflow (className : String) (caught : Option SlotType) (f : Frame) : TypeM Outflow := do
  let locals ← f.exitLocals className
  match caught with
  | some t => return ⟨[locals, f.entrySlots.locals.toList], [t]⟩
  | none => return ⟨[locals], ← f.exitStack className⟩

/-- Merges what leaves a block into the entry of its successor. -/
def mergeInto (hierarchy : Hierarchy) (className : String) (caught : Option SlotType)
    (f successor : Frame) : TypeM (Bool × Frame) := do
  let out ← f.outflow className caught
  let fresh := Slots.unset f.entrySlots.locals.size out.stack.length
  let entry := successor.entry.getD fresh
  let (changed, locals) ← out.locals.foldlM
    (fun (changed, locals) incoming => Slots.mergeFrom hierarchy locals changed 0 incoming)
    (!successor.isReached, entry.locals)
  let (changed, stack) ← Slots.mergeFrom hierarchy entry.stack changed 0 out.stack
  return (changed, successor.enteredWith ⟨locals, stack⟩)

end Frame

end ClassFile
