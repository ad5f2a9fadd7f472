/-
# Values that are written as a whole

A value is given to the writer as a whole, or replayed as events.  Enumerations, annotations and arrays
have two encoders then: one goes down the tree, the other one keeps the levels that have begun.
`event_value_eq` says that both do the same: they end with the same error, or they leave the same bytes, the
same constants and the same number of values.

The default of an element is prepared in a buffer of its own.  This makes no difference, because a value
is written behind any bytes as it is written alone: `Appending` says so of a computation, and holds of all
values (`appending_putValue`).  A number that is filled in is no exception, since its place is given by
what is in the buffer when its room is reserved.
-/
import ClassFile.Proofs.Annotation.Encoded

namespace ClassFile

/-! ## 1. Writing behind other bytes -/

namespace ElementValue

variable {α β : Type}

/-- What is written, the answer and the constants do not depend on the bytes before. -/
def Appending (m : PutM α) : Prop :=
  ∀ b, m.run b = (fun r : α × Bytes => (r.1, b ++ r.2)) <$> m.run .empty

theorem appending_pure (a : α) : Appending (pure a) := by
  intro b
  rw [StateT.run_pure, StateT.run_pure, map_pure, Bytes.empty, Array.append_empty]

/-- Constants leave the buffer alone. -/
theorem run_lift (m : PoolM α) (b : Bytes) :
    (liftM m : PutM α).run b = m >>= fun a => pure (a, b) := rfl

theorem appending_lift (m : PoolM α) : Appending (liftM m) := by
  intro b
  simp only [run_lift, map_bind, map_pure, Bytes.empty, Array.append_empty]

theorem appending_append {f : Bytes → Bytes} (hf : ∀ b, f b = b ++ f .empty) :
    Appending (append f) := by
  intro b
  simp only [append, StateT.run_modify, map_pure]
  rw [hf b]

theorem Appending.bind {m : PutM α} {f : α → PutM β} (hm : Appending m)
    (hf : ∀ a, Appending (f a)) : Appending (m >>= f) := by
  intro b
  rw [StateT.run_bind, StateT.run_bind, hm b, bind_map_left, map_bind]
  refine bind_congr fun r => ?_
  rw [hf r.1 (b ++ r.2), hf r.1 r.2, Functor.map_map]
  simp only [Array.append_assoc]

/-- Filling in a number behind other bytes. -/
theorem patchU16_behind (b l : Bytes) (v : UInt16) :
    (b.putU16 0 ++ l).patchU16 ⟨b.size⟩ v =
      b ++ (Bytes.empty.putU16 0 ++ l).patchU16 ⟨Bytes.empty.size⟩ v := by
  refine Array.ext' ?_
  rw [Bytes.toList_patchU16 (Array.toList_append ..), Array.toList_append,
    Bytes.toList_patchU16 (Array.toList_append ..)]
  rfl

/-- **A number that is filled in** stands where its room was reserved, whatever is before. -/
theorem Appending.counted {m : PutM UInt16} (hm : Appending m) :
    Appending (do patch (← reserve) (← m)) := by
  intro b
  have hrun : ∀ b, (do patch (← reserve) (← m) : PutM Unit).run b =
      m.run (b.putU16 0) >>= fun r => pure ((), r.2.patchU16 ⟨b.size⟩ r.1) := fun _ => rfl
  rw [hrun, hrun, hm (b.putU16 0), hm (Bytes.empty.putU16 0), bind_map_left, bind_map_left, map_bind]
  refine bind_congr fun r => ?_
  rw [map_pure, patchU16_behind]

theorem appending_putTagged (tag : Char) (index : ConstantIndex) : Appending (putTagged tag index) :=
  appending_append fun b => Array.ext' (by simp [Bytes.put12, Bytes.empty])

theorem appending_putLiteral (tag : Char) (constant : PoolM ConstantIndex) :
    Appending (putLiteral tag constant) :=
  (appending_lift constant).bind fun i => appending_putTagged tag i

theorem appending_putEnum (descriptor value : String) : Appending (putEnum descriptor value) :=
  (appending_lift _).bind fun _ => (appending_lift _).bind fun _ => appending_append fun b =>
    Array.ext' (by simp [Bytes.put12, Bytes.empty])

mutual

/-- A value is written behind any bytes as it is written alone. -/
theorem appending_putValue : ∀ v : ElementValue, Appending (putValue v)
  | .boolean _ | .byte _ | .char _ | .short _ | .int _ | .long _ | .float _ | .double _
  | .string _ | .classLiteral _ => appending_putLiteral _ _
  | .enumConstant descriptor value => appending_putEnum descriptor value
  | .nested _ values => (appending_lift _).bind fun i =>
      (appending_putTagged '@' i).bind fun _ => (appending_putPairs 0 values).counted
  | .array values => (appending_append fun b => Array.ext' (by simp [Bytes.empty])).bind fun _ =>
      (appending_putEntries 0 values).counted

theorem appending_putPairs : ∀ (count : UInt16) (values : List (String × ElementValue)),
    Appending (putPairs count values)
  | count, [] => appending_pure count
  | count, (_, v) :: values => (appending_lift _).bind fun i =>
      (appending_append fun b => Array.ext' (by simp [Bytes.empty])).bind fun _ =>
        (appending_putValue v).bind fun _ => appending_putPairs (count + 1) values

theorem appending_putEntries : ∀ (count : UInt16) (values : List ElementValue),
    Appending (putEntries count values)
  | count, [] => appending_pure count
  | count, v :: values =>
      (appending_putValue v).bind fun _ => appending_putEntries (count + 1) values

end

end ElementValue

/-! ## 2. Events -/

namespace AnnotationWriter

open ElementValue

/-- What is behind the room for a number. -/
theorem extract_room (l : Bytes) :
    (Bytes.empty.putU16 0 ++ l).extract 2 (Bytes.empty.putU16 0 ++ l).size = l := by
  have hsize : (Bytes.empty.putU16 0).size = 2 := rfl
  rw [Array.extract_append, hsize, Array.size_append, hsize, Nat.add_sub_cancel_left]
  simp [hsize]

/-- The default of an element is written like any other value. -/
theorem putWhole_eq (v : ElementValue) (level : AnnotationLevel) : putWhole v level = putValue v := by
  cases level with
  | counted named count place => rfl
  | bare =>
    refine StateT.ext fun b => ?_
    have hprepare : (do let _ ← reserve; putValue v : PutM Unit).run .empty =
        (putValue v).run (Bytes.empty.putU16 0) := rfl
    rw [putWhole, StateT.run_bind, run_lift, bind_assoc, hprepare,
      appending_putValue v (Bytes.empty.putU16 0), appending_putValue v b, bind_map_left, map_eq_pure_bind]
    refine bind_congr fun r => ?_
    rw [pure_bind]
    exact congrArg (fun l => (pure (r.1, b ++ l) : PoolM (Unit × Bytes))) (extract_room r.2)

mutual

/-- The events of a value: it is counted with its name, and written. -/
theorem foldlM_events : ∀ (v : ElementValue) (name : Option String) (level : AnnotationLevel)
    (outer : List AnnotationLevel), (v.events name).foldlM event (level :: outer) = do
      let level ← putName name level
      putValue v
      return level :: outer
  | .boolean _, _, _, _ | .byte _, _, _, _ | .char _, _, _, _ | .short _, _, _, _ | .int _, _, _, _
  | .long _, _, _, _ | .float _, _, _, _ | .double _, _, _, _ | .string _, _, _, _
  | .classLiteral _, _, _, _ => by
    simp only [events, List.foldlM_cons, List.foldlM_nil, event, putWhole_eq, bind_pure]
  | .enumConstant _ _, _, _, _ => by
    simp only [events, List.foldlM_cons, List.foldlM_nil, event, putValue, bind_pure]
  | .nested _ values, _, _, _ => by
    simp only [events, List.foldlM_cons, event, AnnotationWriter.begin, putValue, bind_assoc, pure_bind,
      foldlM_pairEvents values]
  | .array values, _, _, _ => by
    simp only [events, List.foldlM_cons, event, AnnotationWriter.begin, putValue, bind_assoc, pure_bind,
      foldlM_entryEvents values]

/-- The events of values with names: they are counted and written, and their number is filled in. -/
theorem foldlM_pairEvents : ∀ (values : List (String × ElementValue)) (count : UInt16)
    (place : Bytes.Placeholder) (outer : List AnnotationLevel),
    (pairEvents values).foldlM event (.counted true count place :: outer) = do
      patch place (← putPairs count values)
      return outer
  | [], count, place, outer => by
    simp only [pairEvents, List.foldlM_cons, List.foldlM_nil, event, putPairs, pure_bind, bind_pure]
  | (name, v) :: values, count, place, outer => by
    simp only [pairEvents, List.foldlM_append, foldlM_events v, putName, if_true, bind_assoc, pure_bind,
      foldlM_pairEvents values, putPairs, Option.getD_some]

theorem foldlM_entryEvents : ∀ (values : List ElementValue) (count : UInt16)
    (place : Bytes.Placeholder) (outer : List AnnotationLevel),
    (entryEvents values).foldlM event (.counted false count place :: outer) = do
      patch place (← putEntries count values)
      return outer
  | [], count, place, outer => by
    simp only [entryEvents, List.foldlM_cons, List.foldlM_nil, event, putEntries, pure_bind, bind_pure]
  | v :: values, count, place, outer => by
    simp only [entryEvents, List.foldlM_append, foldlM_events v, putName, Bool.false_eq_true, if_false,
      bind_assoc, pure_bind, foldlM_entryEvents values, putEntries]

end

/-- **A value that is given as a whole is written like its events**, in an annotation, in an array and as
a default: with the same error, or with the same bytes and the same number of values at each level.  The
constants are the same in both cases. -/
theorem event_value_eq (v : ElementValue) (name : Option String) (level : AnnotationLevel)
    (outer : List AnnotationLevel) (b : Bytes) (p : ConstantPool) :
    ((event (level :: outer) (.value name v)).run b).run p =
      (((v.events name).foldlM event (level :: outer)).run b).run p := by
  rw [foldlM_events]
  simp only [event, putWhole_eq]

end AnnotationWriter

end ClassFile
