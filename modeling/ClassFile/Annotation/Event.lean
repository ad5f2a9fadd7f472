/-
# Annotations as events

The values of an annotation are also a sequence of events, in which a nested annotation or an
array is a beginning, the events of what is in it, and an end.  Readers produce events, writers
consume them.

* `ElementValue.events` replays a value; `Annotation.events` replays all values and the end.
* `AnnotationEvent.collect` builds values from events.  Events that stop early leave what was
  begun unfinished; it is collected as far as it goes.
-/
import ClassFile.Annotation.Basic

namespace ClassFile

/-- A step in going through the values of an annotation.  The values of an array have no name. -/
inductive AnnotationEvent where
  /-- A value as a whole. -/
  | value (name : Option String) (value : ElementValue)
  | enumConstant (name : Option String) (descriptor value : String)
  | beginNested (name : Option String) (descriptor : String)
  | beginArray (name : Option String)
  /-- The end of the innermost annotation or array. -/
  | finish
  deriving BEq, Repr

/-! ## 1. Values to events -/

namespace ElementValue

/- The events of a value and of the values below it. -/
mutual

/-- The events of a value: one, or several for an annotation or an array. -/
def events (name : Option String) : ElementValue → List AnnotationEvent
  | enumConstant descriptor value => [.enumConstant name descriptor value]
  | nested descriptor values => .beginNested name descriptor :: pairEvents values
  | array values => .beginArray name :: entryEvents values
  | boolean value => [.value name (boolean value)]
  | byte value => [.value name (byte value)]
  | char value => [.value name (char value)]
  | short value => [.value name (short value)]
  | int value => [.value name (int value)]
  | long value => [.value name (long value)]
  | float value => [.value name (float value)]
  | double value => [.value name (double value)]
  | string value => [.value name (string value)]
  | classLiteral descriptor => [.value name (classLiteral descriptor)]

/-- The events of the values of an annotation, and its end. -/
def pairEvents : List (String × ElementValue) → List AnnotationEvent
  | [] => [.finish]
  | (name, value) :: values => events (some name) value ++ pairEvents values

/-- The events of the values of an array, and its end. -/
def entryEvents : List ElementValue → List AnnotationEvent
  | [] => [.finish]
  | value :: values => events none value ++ entryEvents values

end

end ElementValue

/-- The events of the values of an annotation, and its end. -/
def Annotation.events (a : Annotation) : List AnnotationEvent := ElementValue.pairEvents a.values

/-! ## 2. Events to values -/

namespace AnnotationEvent

/-- An annotation or an array that has begun: its name, its descriptor if it is an annotation,
and its values so far, the last one first. -/
structure Unfinished where
  name : Option String
  descriptor : Option String
  values : List (Option String × ElementValue)

/-- The value that something unfinished has become. -/
def Unfinished.close (u : Unfinished) : ElementValue :=
  let values := u.values.reverse
  match u.descriptor with
  | some descriptor => .nested descriptor (values.map fun (name, v) => (name.getD "", v))
  | none => .array (values.map (·.2))

/-- Values at the outermost level, the last one first, and what has begun inside of them, the
innermost first. -/
structure Collected where
  outermost : List (Option String × ElementValue)
  unfinished : List Unfinished

namespace Collected

/-- Adds a value at the innermost level. -/
def add (c : Collected) (name : Option String) (value : ElementValue) : Collected :=
  match c.unfinished with
  | [] => { c with outermost := (name, value) :: c.outermost }
  | u :: rest => { c with unfinished := { u with values := (name, value) :: u.values } :: rest }

/-- Ends the innermost annotation or array; at the outermost level there is nothing to end. -/
def close (c : Collected) : Collected :=
  match c.unfinished with
  | [] => c
  | u :: rest => { c with unfinished := rest }.add u.name u.close

/-- One event. -/
def step (c : Collected) : AnnotationEvent → Collected
  | .value name v => c.add name v
  | .enumConstant name descriptor v => c.add name (.enumConstant descriptor v)
  | .beginNested name descriptor =>
    { c with unfinished := ⟨name, some descriptor, []⟩ :: c.unfinished }
  | .beginArray name => { c with unfinished := ⟨name, none, []⟩ :: c.unfinished }
  | .finish => c.close

end Collected

/-- The values that events describe, with their names; what has not ended ends here. -/
def collect (events : List AnnotationEvent) : List (Option String × ElementValue) :=
  let c := events.foldl Collected.step ⟨[], []⟩
  let closed := c.unfinished.foldl (fun c _ => c.close) c
  closed.outermost.reverse

/-- The annotation that events describe. -/
def annotationOf (descriptor : String) (events : List AnnotationEvent) : Annotation :=
  ⟨descriptor, (collect events).map fun (name, v) => (name.getD "", v)⟩

end AnnotationEvent

end ClassFile
