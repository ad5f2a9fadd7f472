/-
# Reading as a stream of events

Reading a class produces events and may fail on the way.  What was produced before the failure
counts: a consumer has seen it by then.  A `Replay` is a computation that emits events and ends
with an answer or an error.
-/
import ClassFile.Error

namespace ClassFile

/-- A computation that emits events and ends with an answer or an error. -/
abbrev Replay (ε : Type) := ExceptT Error (StateM (Array ε))

namespace Replay

variable {ε α : Type}

/-- Emits an event. -/
def emit (event : ε) : Replay ε Unit := modify fun events => events.push event

/-- Emits events one after the other. -/
def emitAll (events : List ε) : Replay ε Unit := events.forM emit

/-- The answer or the error, and all events. -/
def all (r : Replay ε α) : Except Error α × Array ε := r.run #[]

/-- The answer or the error. -/
def answer (r : Replay ε α) : Except Error α := r.all.1

/-- The events, up to the error if there is one. -/
def events (r : Replay ε α) : Array ε := r.all.2

/-- Emits all events of another computation as a single one, and ends as that one does. -/
def nest {δ : Type} (r : Replay δ α) (wrap : List δ → ε) : Replay ε α := do
  let (answer, events) := r.all
  emit (wrap events.toList)
  answer

end Replay

end ClassFile
