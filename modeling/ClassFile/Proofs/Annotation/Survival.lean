/-
# Annotations survive the class file

Bytes that encode a tree, in a class file that has the constants of the tree, are read as the events of
the tree, up to where the bytes end (`reads_value`, by induction on the tree).  The measure that the
reader counts down is never used up, because a value within a value takes fewer bytes.  From its events
a tree is collected again (`annotationOf_events`).

Together with what is said about writing (`Encodes`), an annotation comes back from the class file: from
whichever pool it started, whatever was in its set before and behind, and wherever the set is put.
-/
import ClassFile.ClassBytes.Events
import ClassFile.Proofs.Annotation.Encoded
import ClassFile.Proofs.ClassWriter

namespace ClassFile

/-! ## 1. Collecting -/

namespace AnnotationEvent

open ElementValue

namespace Collected

/-- Adds several values at the innermost level. -/
def addAll (c : Collected) (vs : List (Option String × ElementValue)) : Collected :=
  vs.foldl (fun c v => c.add v.1 v.2) c

theorem addAll_outermost (vs done : List (Option String × ElementValue)) :
    addAll ⟨done, []⟩ vs = ⟨vs.reverse ++ done, []⟩ := by
  induction vs generalizing done with
  | nil => rfl
  | cons v vs ih =>
    rw [List.reverse_cons, List.append_assoc]
    exact ih (v :: done)

theorem addAll_unfinished (vs outermost : List (Option String × ElementValue)) (u : Unfinished)
    (rest : List Unfinished) : addAll ⟨outermost, u :: rest⟩ vs =
      ⟨outermost, { u with values := vs.reverse ++ u.values } :: rest⟩ := by
  induction vs generalizing u with
  | nil => rfl
  | cons v vs ih =>
    rw [List.reverse_cons, List.append_assoc]
    exact ih { u with values := v :: u.values }

end Collected

mutual

/-- The events of a value add the value. -/
theorem foldl_events : ∀ (v : ElementValue) (name : Option String) (c : Collected),
    (v.events name).foldl Collected.step c = c.add name v
  | .boolean _, _, _ | .byte _, _, _ | .char _, _, _ | .short _, _, _ | .int _, _, _
  | .long _, _, _ | .float _, _, _ | .double _, _, _ | .string _, _, _ | .classLiteral _, _, _
  | .enumConstant _ _, _, _ => by
    simp only [events, List.foldl_cons, List.foldl_nil, Collected.step]
  | .nested descriptor vs, name, c => by
    simp only [events, List.foldl_cons, Collected.step, foldl_pairEvents,
      Collected.addAll_unfinished]
    simp only [Collected.close, Unfinished.close, List.append_nil, List.reverse_reverse,
      List.map_map]
    exact congrArg (c.add name <| .nested descriptor ·) (List.map_id'' (fun _ => rfl) vs)
  | .array vs, name, c => by
    simp only [events, List.foldl_cons, Collected.step, foldl_entryEvents,
      Collected.addAll_unfinished]
    simp only [Collected.close, Unfinished.close, List.append_nil, List.reverse_reverse,
      List.map_map]
    exact congrArg (c.add name <| .array ·) (List.map_id'' (fun _ => rfl) vs)

theorem foldl_pairEvents : ∀ (vs : List (String × ElementValue)) (c : Collected),
    (pairEvents vs).foldl Collected.step c = (c.addAll (vs.map fun v => (some v.1, v.2))).close
  | [], _ => by
    simp only [pairEvents]
    rfl
  | (name, v) :: vs, c => by
    simp only [pairEvents, List.foldl_append, foldl_events, foldl_pairEvents]
    rfl

theorem foldl_entryEvents : ∀ (vs : List ElementValue) (c : Collected),
    (entryEvents vs).foldl Collected.step c = (c.addAll (vs.map fun v => (none, v))).close
  | [], _ => by
    simp only [entryEvents]
    rfl
  | v :: vs, c => by
    simp only [entryEvents, List.foldl_append, foldl_events, foldl_entryEvents]
    rfl

end

/-- **A value is collected from its events.** -/
theorem collect_events (v : ElementValue) (name : Option String) :
    collect (v.events name) = [(name, v)] := by
  unfold collect
  rw [foldl_events]
  rfl

/-- **An annotation is collected from its events.** -/
theorem annotationOf_events (a : Annotation) : annotationOf a.descriptor a.events = a := by
  have hcollect : collect a.events = a.values.map fun v => (some v.1, v.2) := by
    unfold collect Annotation.events
    rw [foldl_pairEvents, Collected.addAll_outermost]
    simp only [Collected.close, List.foldl_nil, List.append_nil, List.reverse_reverse]
  unfold annotationOf
  rw [hcollect, List.map_map]
  exact congrArg (fun values => { a with values }) (List.map_id'' (fun _ => rfl) a.values)

end AnnotationEvent

/-! ## 2. Literals -/

/-- A character that was widened is cut to itself again. -/
theorem char_cut (v : UInt16) : v.toUInt32.toInt32.toInt16.toUInt16 = v := by
  apply UInt16.toBitVec_inj.1
  show (v.toBitVec.setWidth 32).signExtend 16 = v.toBitVec
  rw [BitVec.signExtend_eq_setWidth_of_le _ (by decide),
    BitVec.setWidth_setWidth_of_le _ (by decide), BitVec.setWidth_eq]

/-- Is the value a single event? -/
def ElementValue.isLiteral : ElementValue → Bool
  | .enumConstant _ _ | .nested _ _ | .array _ => false
  | _ => true

/-- The loadable constant that a record is by itself. -/
def Constant.literal? : Constant → Option Loadable
  | .integer v => some (.integer v)
  | .float v => some (.float v)
  | .long v => some (.long v)
  | .double v => some (.double v)
  | _ => none

namespace ClassBytes

variable {c : ClassBytes} {p : ConstantPool}

namespace HoldsRecords

open ElementValue

theorem readLoadable_literal (h : c.HoldsRecords p) {i : ConstantIndex} {k : Constant}
    (hi : p.get? i = some k) {v : Loadable} (hk : k.literal? = some v) :
    c.readLoadable i = .ok v := by
  obtain ⟨o, ho, -, hbyte, hat⟩ := h.withTag hi k.tag rfl
  refine bind_eq_ok_iff.2 ⟨o, ho, bind_eq_ok_iff.2 ⟨_, hbyte, ?_⟩⟩
  rw [Constant.Tag.ofByte?_byte]
  cases k <;> cases hk
  · exact bind_eq_ok_iff.2 ⟨_, Bytes.Has.i32At hat, rfl⟩
  · exact bind_eq_ok_iff.2 ⟨_, Bytes.Has.singleAt hat, rfl⟩
  · exact bind_eq_ok_iff.2 ⟨_, Bytes.Has.i64At hat, rfl⟩
  · exact bind_eq_ok_iff.2 ⟨_, Bytes.Has.doubleAt hat, rfl⟩

variable {es : Array AnnotationEvent} {name : Option String} {o d : Nat} {l : List UInt8}

/-- A literal is read, if its tag says which one it is. -/
theorem reads_literal {v : ElementValue} {tag : Char} {k : Constant}
    (hl : EncodesLiteral p tag k l) (hat : c.bytes.Has o l) (hd : l.length ≤ d)
    (htag : Char.ofNat (UInt8.ofNat tag.toNat).toNat = tag)
    (hother : tag ≠ 'e' ∧ tag ≠ '@' ∧ tag ≠ '[')
    (hread : ∀ i, p.get? i = some k → c.bytes.Has (o + 1) (wordBytes 2 i.toNat) →
      c.readLiteral? tag (o + 1) = .ok (some v)) :
    Returns (c.readValueWithin d name o) es (o + l.length) (es.push (.value name v)) := by
  obtain ⟨i, hi, rfl⟩ := hl
  obtain ⟨d, rfl⟩ := Nat.exists_eq_add_of_le' (Nat.le_trans (Nat.le_add_left 1 _) hd)
  refine returns_bind.2 ⟨_, es, returns_lift.2 ⟨hat.head.u8At, rfl⟩, ?_⟩
  rw [htag]
  split
  · exact absurd rfl hother.1
  · exact absurd rfl hother.2.1
  · exact absurd rfl hother.2.2
  · refine returns_bind.2 ⟨some v, es, returns_lift.2 ⟨hread i hi hat.tail, rfl⟩, ?_⟩
    exact returns_bind.2 ⟨(), _, returns_modify.2 rfl, returns_pure.2 ⟨rfl, rfl⟩⟩

/-- The constant whose index stands at an offset. -/
theorem constantAt (h : c.HoldsRecords p) {i : ConstantIndex} {k : Constant}
    (hi : p.get? i = some k) (hat : c.bytes.Has o (wordBytes 2 i.toNat)) {v : Loadable}
    (hk : k.literal? = some v) :
    (do c.readLoadable (← c.bytes.u16At o) : Except Error Loadable) = .ok v :=
  bind_eq_ok_iff.2 ⟨i, hat.u16At, h.readLoadable_literal hi hk⟩

/-- **A literal is read back**, from whichever of its records. -/
theorem reads_literals (h : c.HoldsRecords p) {v : ElementValue} (hv : v.isLiteral)
    (hl : Encodes p v l) (hat : c.bytes.Has o l) (hd : l.length ≤ d) :
    Returns (c.readValueWithin d name o) es (o + l.length) (es.push (.value name v)) := by
  cases v with
  | boolean v =>
    simp only [Encodes] at hl
    refine reads_literal hl hat hd rfl (by decide) fun i hi hat => ?_
    refine bind_eq_ok_iff.2 ⟨_, h.constantAt hi hat rfl, ?_⟩
    cases v <;> rfl
  | byte v =>
    simp only [Encodes] at hl
    refine reads_literal hl hat hd rfl (by decide) fun i hi hat => ?_
    refine bind_eq_ok_iff.2 ⟨_, h.constantAt hi hat rfl, ?_⟩
    show Except.ok (some (byte v.toInt32.toInt8)) = _
    rw [Int8.toInt8_toInt32]
  | char v =>
    simp only [Encodes] at hl
    refine reads_literal hl hat hd rfl (by decide) fun i hi hat => ?_
    refine bind_eq_ok_iff.2 ⟨_, h.constantAt hi hat rfl, ?_⟩
    show Except.ok (some (char v.toUInt32.toInt32.toInt16.toUInt16)) = _
    rw [char_cut]
  | short v =>
    simp only [Encodes] at hl
    refine reads_literal hl hat hd rfl (by decide) fun i hi hat => ?_
    refine bind_eq_ok_iff.2 ⟨_, h.constantAt hi hat rfl, ?_⟩
    show Except.ok (some (ElementValue.short v.toInt32.toInt16)) = _
    rw [Int16.toInt16_toInt32]
  | int v | long v | float v | double v =>
    simp only [Encodes] at hl
    refine reads_literal hl hat hd rfl (by decide) fun i hi hat => ?_
    exact bind_eq_ok_iff.2 ⟨_, h.constantAt hi hat rfl, rfl⟩
  | string v | classLiteral v =>
    simp only [Encodes] at hl
    refine reads_literal hl hat hd rfl (by decide) fun i hi hat => ?_
    exact bind_eq_ok_iff.2 ⟨_, h.utf8At hat (ConstantPool.text?_eq_some_iff.2 hi), rfl⟩
  | _ => exact nomatch hv

end HoldsRecords

end ClassBytes

/-! ## 3. Trees -/

namespace ElementValue

/- The numbers of values in a value and in those below it. -/
mutual

/-- The values of each annotation and of each array in a value can be counted with two bytes. -/
def CountsFit : ElementValue → Prop
  | nested _ vs => vs.length ≤ 65535 ∧ CountsFitPairs vs
  | array vs => vs.length ≤ 65535 ∧ CountsFitEntries vs
  | boolean _ | byte _ | char _ | short _ | int _ | long _ | float _ | double _ | string _
  | classLiteral _ | enumConstant _ _ => True

/-- They can be counted in several values with names. -/
def CountsFitPairs : List (String × ElementValue) → Prop
  | [] => True
  | (_, v) :: vs => CountsFit v ∧ CountsFitPairs vs

/-- They can be counted in several values without names. -/
def CountsFitEntries : List ElementValue → Prop
  | [] => True
  | v :: vs => CountsFit v ∧ CountsFitEntries vs

end

end ElementValue

/-- The values of an annotation, and of each annotation and each array below it, can be counted with
two bytes. -/
def Annotation.CountsFit (a : Annotation) : Prop :=
  a.values.length ≤ 65535 ∧ ElementValue.CountsFitPairs a.values

/-- What is appended in two parts. -/
theorem appendList_append {α : Type} (as : Array α) (l l' : List α) :
    as ++ (l ++ l') = as ++ l ++ l' := List.foldl_append

namespace ClassBytes.HoldsRecords

open ElementValue

variable {c : ClassBytes} {p : ConstantPool}

mutual

/-- **A value is read as its events**, up to where it ends. -/
theorem reads_value (h : c.HoldsRecords p) : ∀ (v : ElementValue) {l : List UInt8} {o d : Nat}
    {name : Option String} {es : Array AnnotationEvent}, Encodes p v l → v.CountsFit →
    c.bytes.Has o l → l.length ≤ d →
      Returns (c.readValueWithin d name o) es (o + l.length) (es ++ v.events name)
  | .boolean _, _, _, _, _, _, hl, _, hat, hd | .byte _, _, _, _, _, _, hl, _, hat, hd
  | .char _, _, _, _, _, _, hl, _, hat, hd | .short _, _, _, _, _, _, hl, _, hat, hd
  | .int _, _, _, _, _, _, hl, _, hat, hd | .long _, _, _, _, _, _, hl, _, hat, hd
  | .float _, _, _, _, _, _, hl, _, hat, hd | .double _, _, _, _, _, _, hl, _, hat, hd
  | .string _, _, _, _, _, _, hl, _, hat, hd | .classLiteral _, _, _, _, _, _, hl, _, hat, hd => by
    simp only [ElementValue.events]
    exact h.reads_literals rfl hl hat hd
  | .enumConstant descriptor value, _, o, d, name, es, hl, _, hat, hd => by
    simp only [Encodes] at hl
    simp only [ElementValue.events]
    obtain ⟨i, j, hi, hj, rfl⟩ := hl
    obtain ⟨d, rfl⟩ := Nat.exists_eq_add_of_le' (Nat.le_trans (Nat.le_add_left 1 _) hd)
    refine returns_bind.2 ⟨_, es, returns_lift.2 ⟨hat.head.u8At, rfl⟩, ?_⟩
    refine returns_bind.2 ⟨_, es, returns_lift.2 ⟨h.utf8At hat.left.tail hi, rfl⟩, ?_⟩
    refine returns_bind.2 ⟨_, es, returns_lift.2 ⟨h.utf8At hat.right hj, rfl⟩, ?_⟩
    exact returns_bind.2 ⟨(), _, returns_modify.2 rfl, returns_pure.2 ⟨rfl, rfl⟩⟩
  | .nested descriptor vs, _, o, d, name, es, hl, hv, hat, hd => by
    simp only [Encodes] at hl
    simp only [CountsFit] at hv
    simp only [ElementValue.events]
    obtain ⟨i, l, hi, hl, rfl⟩ := hl
    obtain ⟨d, rfl⟩ := Nat.exists_eq_add_of_le' (Nat.le_trans (Nat.le_add_left 1 _) hd)
    obtain ⟨hcount, hlength⟩ := hat.right.left.count hv.1
    refine returns_bind.2 ⟨_, es, returns_lift.2 ⟨hat.head.u8At, rfl⟩, ?_⟩
    refine returns_bind.2 ⟨_, es, returns_lift.2 ⟨h.utf8At hat.left.tail hi, rfl⟩, ?_⟩
    refine returns_bind.2 ⟨(), _, returns_modify.2 rfl, ?_⟩
    refine returns_bind.2 ⟨_, _, returns_lift.2 ⟨hcount, rfl⟩, ?_⟩
    rw [hlength, List.length_append, List.length_append, ← Nat.add_assoc, ← Nat.add_assoc]
    refine reads_pairs h vs hl hv.2 hat.right.right ?_
    simp only [taggedBytes, List.length_append, List.length_cons, length_wordBytes] at hd
    omega
  | .array vs, _, o, d, name, es, hl, hv, hat, hd => by
    simp only [Encodes] at hl
    simp only [CountsFit] at hv
    simp only [ElementValue.events]
    obtain ⟨l, hl, rfl⟩ := hl
    obtain ⟨d, rfl⟩ := Nat.exists_eq_add_of_le' (Nat.le_trans (Nat.le_add_left 1 _) hd)
    obtain ⟨hcount, hlength⟩ := hat.tail.left.count hv.1
    refine returns_bind.2 ⟨_, es, returns_lift.2 ⟨hat.head.u8At, rfl⟩, ?_⟩
    refine returns_bind.2 ⟨_, es, returns_lift.2 ⟨hcount, rfl⟩, ?_⟩
    refine returns_bind.2 ⟨(), _, returns_modify.2 rfl, ?_⟩
    rw [List.length_cons, List.length_append, length_wordBytes] at hd
    have hstop : o + (UInt8.ofNat '['.toNat ::
        (wordBytes 2 (UInt16.ofNat vs.length).toNat ++ l)).length = o + 3 + l.length := by
      rw [List.length_cons, List.length_append, length_wordBytes]
      omega
    rw [hstop, hlength]
    exact reads_entries h vs hl hv.2 hat.tail.right (by omega)

/-- The values of an annotation are read as their events, up to where they end. -/
theorem reads_pairs (h : c.HoldsRecords p) : ∀ (vs : List (String × ElementValue))
    {l : List UInt8} {o d : Nat} {es : Array AnnotationEvent}, EncodesPairs p vs l →
    CountsFitPairs vs → c.bytes.Has o l → l.length ≤ d →
      Returns (do
          let stop ← c.readPairs (c.readValueWithin d) vs.length o
          Replay.emit .finish
          return stop : Replay AnnotationEvent Nat) es (o + l.length) (es ++ pairEvents vs)
  | [], _, o, _, es, hl, _, _, _ => by
    simp only [EncodesPairs] at hl
    simp only [pairEvents]
    subst hl
    exact returns_bind.2 ⟨o, es, returns_pure.2 ⟨rfl, rfl⟩,
      returns_bind.2 ⟨(), _, returns_modify.2 rfl, returns_pure.2 ⟨rfl, rfl⟩⟩⟩
  | (name, v) :: vs, _, o, d, es, hl, hvs, hat, hd => by
    simp only [EncodesPairs] at hl
    simp only [CountsFitPairs] at hvs
    simp only [pairEvents]
    obtain ⟨i, l₁, l₂, hi, hl₁, hl₂, rfl⟩ := hl
    simp only [List.length_append, length_wordBytes] at hd
    have hvalue : Returns (c.readValueWithin d (some name) (o + 2)) es (o + 2 + l₁.length)
        (es ++ v.events (some name)) := reads_value h v hl₁ hvs.1 hat.right.left (by omega)
    obtain ⟨stop, es', hpairs, hend⟩ :=
      returns_bind.1 (reads_pairs h vs (d := d) hl₂ hvs.2 hat.right.right (by omega))
    refine returns_bind.2 ⟨stop, es', ?_, ?_⟩
    · refine returns_bind.2 ⟨_, es, returns_lift.2 ⟨h.utf8At hat.left hi, rfl⟩, ?_⟩
      exact returns_bind.2 ⟨_, _, hvalue, hpairs⟩
    · rw [List.length_append, List.length_append, ← Nat.add_assoc, ← Nat.add_assoc,
        appendList_append]
      exact hend

/-- The values of an array are read as their events, up to where they end. -/
theorem reads_entries (h : c.HoldsRecords p) : ∀ (vs : List ElementValue)
    {l : List UInt8} {o d : Nat} {es : Array AnnotationEvent}, EncodesEntries p vs l →
    CountsFitEntries vs → c.bytes.Has o l → l.length ≤ d →
      Returns (do
          let stop ← readEntries (c.readValueWithin d) vs.length o
          Replay.emit .finish
          return stop : Replay AnnotationEvent Nat) es (o + l.length) (es ++ entryEvents vs)
  | [], _, o, _, es, hl, _, _, _ => by
    simp only [EncodesEntries] at hl
    simp only [entryEvents]
    subst hl
    exact returns_bind.2 ⟨o, es, returns_pure.2 ⟨rfl, rfl⟩,
      returns_bind.2 ⟨(), _, returns_modify.2 rfl, returns_pure.2 ⟨rfl, rfl⟩⟩⟩
  | v :: vs, _, o, d, es, hl, hvs, hat, hd => by
    simp only [EncodesEntries] at hl
    simp only [CountsFitEntries] at hvs
    simp only [entryEvents]
    obtain ⟨l₁, l₂, hl₁, hl₂, rfl⟩ := hl
    rw [List.length_append] at hd
    have hvalue : Returns (c.readValueWithin d none o) es (o + l₁.length) (es ++ v.events none) :=
      reads_value h v hl₁ hvs.1 hat.left (by omega)
    obtain ⟨stop, es', hentries, hend⟩ :=
      returns_bind.1 (reads_entries h vs (d := d) hl₂ hvs.2 hat.right (by omega))
    refine returns_bind.2 ⟨stop, es', returns_bind.2 ⟨_, _, hvalue, hentries⟩, ?_⟩
    rw [List.length_append, ← Nat.add_assoc, appendList_append]
    exact hend

end

variable {o : Nat} {l : List UInt8}

/-- **An annotation is read as its events**, up to where it ends. -/
theorem reads_annotation (h : c.HoldsRecords p) {a : Annotation} (hl : a.Encodes p l)
    (ha : a.CountsFit) (hat : c.bytes.Has o l) (es : Array AnnotationEvent) :
    c.utf8At o = .ok a.descriptor ∧
      Returns (c.readAnnotationAt (o + 2)) es (o + l.length) (es ++ a.events) := by
  obtain ⟨i, l, hi, hl, rfl⟩ := hl
  obtain ⟨hcount, hlength⟩ := hat.right.left.count ha.1
  have hsize := hat.le_size
  simp only [List.length_append, length_wordBytes] at hsize
  refine ⟨h.utf8At hat.left hi, returns_bind.2 ⟨_, es, returns_lift.2 ⟨hcount, rfl⟩, ?_⟩⟩
  rw [hlength, List.length_append, List.length_append, ← Nat.add_assoc, ← Nat.add_assoc]
  exact h.reads_pairs a.values hl ha.2 hat.right.right (by omega)

/-- **A default is read as its events**, up to where it ends. -/
theorem reads_default (h : c.HoldsRecords p) {v : ElementValue} (hl : Encodes p v l)
    (hv : v.CountsFit) (hat : c.bytes.Has o l) (name : Option String) (es : Array AnnotationEvent) :
    Returns (c.readValue name o) es (o + l.length) (es ++ v.events name) :=
  h.reads_value v hl hv hat (Nat.le_sub_of_add_le (Nat.add_comm o _ ▸ hat.le_size))

end ClassBytes.HoldsRecords

/-! ## 4. In a class that is written -/

namespace AnnotationSet

theorem toList_put (b : Bytes) (s : AnnotationSet) : (s.put b).toList =
    b.toList ++ (wordBytes 2 (UInt16.ofNat s.annotations.size).toNat ++
      s.annotations.toList.flatMap Array.toList) := by
  rw [put, ← Array.foldl_toList, Bytes.toList_foldl_put Bytes.toList_putBytes, Bytes.toList_putU16,
    List.append_assoc]

/-- An annotation stands in its set behind those that were there before it. -/
theorem put_append (s : AnnotationSet) (l : Bytes) (more : Array Bytes) : ∃ front back : List UInt8,
    (put .empty ⟨s.annotations.push l ++ more⟩).toList = front ++ (l.toList ++ back) ∧
      front.length = (s.put .empty).size ∧
      (put .empty ⟨s.annotations.push l⟩).size = (s.put .empty).size + l.size := by
  have hsize : ∀ s : AnnotationSet,
      (s.put .empty).size = 2 + (s.annotations.toList.flatMap Array.toList).length := by
    intro s
    rw [← Array.length_toList, toList_put, List.length_append, List.length_append, length_wordBytes]
    exact Nat.zero_add _
  refine ⟨wordBytes 2 (UInt16.ofNat (s.annotations.push l ++ more).size).toNat ++
    s.annotations.toList.flatMap Array.toList, more.toList.flatMap Array.toList, ?_, ?_, ?_⟩
  · rw [toList_put]
    simp [Bytes.empty]
  · rw [hsize, List.length_append, length_wordBytes]
  · rw [hsize, hsize]
    simp [Nat.add_assoc]

end AnnotationSet

/-- The class has these bytes in a field or in a method that has ended, or they are one of its own sets
of annotations. -/
def ClassWriter.Carries (w : ClassWriter) (l : List UInt8) : Prop :=
  l <:+: w.fields.bytes.toList ∨ l <:+: w.methods.bytes.toList ∨
    ∃ s, (s = w.annotations.visible ∨ s = w.annotations.invisible) ∧ s.isEmpty = false ∧
      l = (s.put .empty).toList

section Carries

open ConstantPool

variable {p p' : ConstantPool} {w : ClassWriter} {b : Bytes} {l : List UInt8}

theorem Bytes.Has.infix {o : Nat} {l' : List UInt8} (h : b.Has o l') (hl : l <:+: l') :
    ∃ o, b.Has o l := by
  obtain ⟨before, after, rfl⟩ := hl
  rw [List.append_assoc] at h
  exact ⟨_, h.right.left⟩

theorem AnnotationSet.returns_attribute? {s : AnnotationSet} {name : String}
    {a : Option RawAttribute} (hs : s.isEmpty = false) (hret : Returns (s.attribute? name) p a p') :
    ∃ i, a = some ⟨i, s.put .empty⟩ := by
  unfold attribute? at hret
  rw [hs, if_neg Bool.false_ne_true] at hret
  obtain ⟨i, p₁, -, hret⟩ := returns_bind.1 hret
  obtain ⟨rfl, rfl⟩ := returns_pure.1 hret
  exact ⟨i, rfl⟩

/-- The sets of the class are among its attributes. -/
theorem DeclaredAnnotations.mem_attributes {d : DeclaredAnnotations} {attributes : List RawAttribute}
    (hret : Returns d.attributes p attributes p') {s : AnnotationSet}
    (hs : s = d.visible ∨ s = d.invisible) (hfull : s.isEmpty = false) :
    ∃ i, ⟨i, s.put .empty⟩ ∈ attributes := by
  obtain ⟨visible, p₁, hvisible, hret⟩ := returns_bind.1 hret
  obtain ⟨invisible, p₂, hinvisible, hret⟩ := returns_bind.1 hret
  obtain ⟨rfl, rfl⟩ := returns_pure.1 hret
  rcases hs with rfl | rfl
  · obtain ⟨i, rfl⟩ := AnnotationSet.returns_attribute? hfull hvisible
    exact ⟨i, by simp⟩
  · obtain ⟨i, rfl⟩ := AnnotationSet.returns_attribute? hfull hinvisible
    exact ⟨i, by simp⟩

/-- **What a class carries is in the class file.** -/
theorem ClassWriter.Carries.has (hl : w.Carries l) (hret : Returns w.bytes p b p') :
    ∃ o, b.Has o l := by
  obtain ⟨classRef, attributes, p₁, -, hattributes, rfl⟩ := returns_bytes hret
  obtain ⟨inner, annotations, table, p₂, p₃, -, hannotations, -, rfl⟩ := returns_attributes hattributes
  generalize hb : w.assemble p' classRef _ = b
  have hall : b.Has 0 b.toList := ⟨[], [], by simp, rfl⟩
  rw [← hb, toList_assemble, hb, body] at hall
  have hfields := hall.right.right.right.right.right.right.right.right.right.right
  rcases hl with hl | hl | ⟨s, hs, hfull, rfl⟩
  · exact hfields.left.right.infix hl
  · exact hfields.right.left.right.infix hl
  · obtain ⟨i, hi⟩ := DeclaredAnnotations.mem_attributes hannotations hs hfull
    obtain ⟨o, -, ho⟩ := hfields.right.right.right.flatMap
      (a := ⟨i, s.put .empty⟩) (by simp only [List.mem_append]; exact .inl (.inr hi))
    exact ⟨_, ho.right.right⟩

end Carries

namespace ClassBytes

open ConstantPool AnnotationEvent

variable {h : Hierarchy} {p p' : ConstantPool} {w : ClassWriter} {b : Bytes}

/-- At an offset, the type of an annotation is read, and its values are read and collected, up to where
they end. -/
def GivesAnnotation (c : ClassBytes) (o : Nat) (a : Annotation) (stop : Nat) : Prop :=
  c.utf8At o = .ok a.descriptor ∧ ∃ events,
    (c.readAnnotationAt (o + 2)).all = (.ok stop, events) ∧
      annotationOf a.descriptor events.toList = a

/-- At an offset, a value without a name is read and collected, up to where it ends. -/
def GivesDefault (c : ClassBytes) (o : Nat) (v : ElementValue) (stop : Nat) : Prop :=
  ∃ events, (c.readValue none o).all = (.ok stop, events) ∧ collect events.toList = [(none, v)]

theorem HoldsRecords.givesAnnotation {c : ClassBytes} (hc : c.HoldsRecords p) {a : Annotation}
    (ha : a.CountsFit) {l : List UInt8} (hl : a.Encodes p l) {o : Nat} (hat : c.bytes.Has o l) :
    c.GivesAnnotation o a (o + l.length) := by
  obtain ⟨htype, hread⟩ := hc.reads_annotation hl ha hat #[]
  refine ⟨htype, _, hread, ?_⟩
  rw [Array.toList_appendList]
  exact annotationOf_events a

theorem HoldsRecords.givesDefault {c : ClassBytes} (hc : c.HoldsRecords p) {v : ElementValue}
    (hv : v.CountsFit) {l : List UInt8} (hl : v.Encodes p l) {o : Nat} (hat : c.bytes.Has o l) :
    c.GivesDefault o v (o + l.length) := by
  refine ⟨_, hc.reads_default hl hv hat none #[], ?_⟩
  rw [Array.toList_appendList]
  exact collect_events v none

/-- **Annotations survive the class file.**  A class that is written is accepted if everything in it fits;
and when it is accepted,

* an annotation in a set that the class carries is read where the set has it, up to where the next one
  starts, and is the one that was replayed, whatever pool that started from, and whatever annotations are
  before and behind it in the set;
* a default that the class carries is read up to its end, and is the value that was replayed. -/
theorem annotations_survive (hp : p.Sound h) (hret : Returns w.bytes p b p')
    (hshort : ∀ e ∈ p'.records.toList, e.2.Short) :
    (∀ classRef table attributes, b = w.assemble p' classRef attributes → p'.IsTable table →
      w.Writable p' table attributes → ∃ c, ofBytes b = .ok c) ∧
    ∀ c, ofBytes b = .ok c →
      (∀ (p₀ p₁ : ConstantPool) (s s' : AnnotationSet) (a : Annotation) (more : Array Bytes),
        p₀.Sound h → a.CountsFit → Returns (s.add a.descriptor a.events) p₀ s' p₁ → p₁ ≤ p →
        w.Carries (AnnotationSet.put .empty ⟨s'.annotations ++ more⟩).toList →
          (∃ o, c.bytes.Has o (AnnotationSet.put .empty ⟨s'.annotations ++ more⟩).toList) ∧
          ∀ o, c.bytes.Has o (AnnotationSet.put .empty ⟨s'.annotations ++ more⟩).toList →
            c.GivesAnnotation (o + (s.put .empty).size) a (o + (s'.put .empty).size)) ∧
      ∀ (p₀ p₁ : ConstantPool) (v : ElementValue) (n : Nat) (payload : Bytes), p₀.Sound h →
        v.CountsFit → Returns (AnnotationWriter.encodeDefault .empty
          (v.events none ++ List.replicate n .finish)) p₀ payload p₁ → p₁ ≤ p →
        w.Carries payload.toList →
          (∃ o, c.bytes.Has o payload.toList) ∧
          ∀ o, c.bytes.Has o payload.toList → c.GivesDefault o v (o + payload.size) := by
  obtain ⟨hs', hle⟩ := ClassWriter.leads_bytes Interning.leads w _ _ _ hret hp
  refine ⟨fun classRef table attributes hb htable hw => ?_, fun c hc => ?_⟩
  · obtain ⟨c, hc, -⟩ := ofBytes_assemble hs'.inOrder htable hw classRef
    exact ⟨c, hb ▸ hc⟩
  · obtain ⟨classRef, attributes, _, -, -, hb⟩ := ClassWriter.returns_bytes hret
    obtain ⟨hholds, -⟩ := holdsRecords_of_assemble hs'.inOrder hshort (hb ▸ hc)
    have hbytes := (located_of_ofBytes hc).1
    rw [← hbytes] at hret
    refine ⟨fun p₀ p₁ s s' a more hp₀ ha hadd hp₁ hcarries => ⟨hcarries.has hret, fun o hat => ?_⟩,
      fun p₀ p₁ v n payload hp₀ hv hput hp₁ hcarries => ⟨hcarries.has hret, fun o hat => ?_⟩⟩
    · obtain ⟨l, _, hencode, hpush⟩ := returns_bind.1 hadd
      obtain ⟨rfl, rfl⟩ := returns_pure.1 hpush
      obtain ⟨-, -, hl⟩ := AnnotationWriter.encodes_encode hp₀ hencode
      obtain ⟨front, back, hset, hfront, hsize⟩ := s.put_append l more
      rw [hset] at hat
      have hgives := hholds.givesAnnotation ha (hl.later (le_trans hp₁ hle)) hat.right.left
      rwa [hfront, Nat.add_assoc, Array.length_toList, ← hsize] at hgives
    · obtain ⟨-, -, hl⟩ := AnnotationWriter.encodes_encodeDefault hp₀ hput
      have hgives := hholds.givesDefault hv (hl.later (le_trans hp₁ hle) _ _) hat
      rwa [Array.length_toList] at hgives

/-! ## 5. A class with an annotation and a default -/

/-- A pool with short strings and without bootstrap methods, in which no index from `n` on is taken. -/
structure Light (n : Nat) (p : ConstantPool) : Prop where
  next : p.records.nextOffset ≤ n
  bootstrap : p.bootstrap.entries = #[]
  modest : p.Modest

theorem light_empty : Light 1 ConstantPool.empty := ⟨Nat.le_refl _, rfl, modest_empty⟩

theorem Light.intern {n : Nat} (hp : Light n p) {k : Constant} (hk : k.Short) (hwidth : width k = 1)
    (hn : n < 65535) : ∃ i p', Returns (ConstantPool.intern k) p i p' ∧ Light (n + 1) p' := by
  have hnext := hp.next
  obtain ⟨i, p', hret, hwithin⟩ := takes_intern (p := p) hk (by omega)
  have hnext' := hwithin.next
  refine ⟨i, p', hret, by omega, ?_, hwithin.modest hp.modest⟩
  rw [bootstrap_of_intern hret]
  exact hp.bootstrap

theorem Light.utf8 {n : Nat} (hp : Light n p) {text : String} (htext : ModifiedUtf8.Fits text)
    (hn : n < 65535) : ∃ i p', Returns (ConstantPool.utf8 text) p i p' ∧ Light (n + 1) p' :=
  hp.intern (fun _ h => Constant.utf8.inj h ▸ htext) rfl hn

/-- An annotation with one value. -/
def marker : Annotation := ⟨"LA;", [("x", .boolean true)]⟩

theorem add_marker {n : Nat} (hp : Light n p) (hn : n + 3 ≤ 65535) : ∃ l p',
    Returns (AnnotationSet.empty.add marker.descriptor marker.events) p ⟨#[l]⟩ p' ∧
      l.size = 9 ∧ Light (n + 3) p' := by
  have hfits : ModifiedUtf8.Fits "LA;" ∧ ModifiedUtf8.Fits "x" := by decide
  obtain ⟨i, p₁, hi, hp₁⟩ := hp.utf8 hfits.1 (by omega)
  obtain ⟨j, p₂, hj, hp₂⟩ := hp₁.utf8 hfits.2 (by omega)
  obtain ⟨k, p₃, hk, hp₃⟩ := hp₂.intern (k := .integer 1) nofun rfl (by omega)
  let start : Bytes := Bytes.empty.putU16 i
  let level (count : UInt16) : AnnotationLevel := .counted true count ⟨start.size⟩
  let named : Bytes := (start.putU16 0).putU16 j
  let valued : Bytes := named.put12 (UInt8.ofNat 'Z'.toNat) k
  have hbegin : Returns (AnnotationWriter.begin true [] start) p₁ ([level 0], start.putU16 0) p₁ :=
    returns_bind_above.2 ⟨_, _, p₁, ElementValue.returns_reserve.2 ⟨rfl, rfl, rfl⟩,
      returns_pure_above.2 ⟨rfl, rfl, rfl⟩⟩
  have hname : Returns (AnnotationWriter.putName (some "x") (level 0) (start.putU16 0)) p₁
      (level 1, named) p₂ :=
    returns_bind_above.2 ⟨j, _, p₂, returns_lift_above.2 ⟨hj, rfl⟩,
      returns_bind_above.2 ⟨(), _, p₂, returns_modify_above.2 ⟨rfl, rfl⟩,
        returns_pure_above.2 ⟨rfl, rfl, rfl⟩⟩⟩
  have hwhole : Returns (AnnotationWriter.putWhole (.boolean true) (level 1) named) p₂
      ((), valued) p₃ :=
    returns_bind_above.2 ⟨k, _, p₃, returns_lift_above.2 ⟨hk, rfl⟩,
      returns_modify_above.2 ⟨rfl, rfl⟩⟩
  have hvalue : Returns (AnnotationWriter.event [level 0] (.value (some "x") (.boolean true))
      (start.putU16 0)) p₁ ([level 1], valued) p₃ :=
    returns_bind_above.2 ⟨level 1, named, p₂, hname, returns_bind_above.2 ⟨(), valued, p₃, hwhole,
      returns_pure_above.2 ⟨rfl, rfl, rfl⟩⟩⟩
  have hfinish : Returns (AnnotationWriter.event [level 1] .finish valued) p₃
      ([], valued.patchU16 ⟨start.size⟩ 1) p₃ :=
    returns_bind_above.2 ⟨(), _, p₃, returns_modify_above.2 ⟨rfl, rfl⟩,
      returns_pure_above.2 ⟨rfl, rfl, rfl⟩⟩
  have hencode : Returns (AnnotationWriter.encode marker.descriptor marker.events) p
      (valued.patchU16 ⟨start.size⟩ 1) p₃ :=
    returns_bind.2 ⟨((), _), p₃, returns_bind_above.2 ⟨i, .empty, p₁,
      returns_lift_above.2 ⟨hi, rfl⟩, returns_bind_above.2 ⟨(), start, p₁,
        returns_modify_above.2 ⟨rfl, rfl⟩, returns_bind_above.2 ⟨_, _, p₁, hbegin,
          returns_bind_above.2 ⟨_, _, p₃, hvalue, returns_bind_above.2 ⟨_, _, p₃, hfinish,
            returns_pure_above.2 ⟨rfl, rfl, rfl⟩⟩⟩⟩⟩⟩, returns_pure.2 ⟨rfl, rfl⟩⟩
  have hsize : (valued.patchU16 ⟨start.size⟩ 1).size = 9 := by
    rw [Bytes.patchU16, Bytes.setU16, Bytes.size_setList, ← Array.length_toList]
    simp [valued, named, start, Bytes.put12, Bytes.empty]
  exact ⟨_, p₃, returns_bind.2 ⟨_, p₃, hencode, returns_pure.2 ⟨rfl, rfl⟩⟩, hsize, hp₃⟩

/-- The default `false` is written with one constant, in three bytes. -/
theorem encodeDefault_false {n : Nat} (hp : Light n p) (hn : n < 65535) : ∃ payload p',
    Returns (AnnotationWriter.encodeDefault .empty
      ((ElementValue.boolean false).events none ++ List.replicate 1 .finish)) p payload p' ∧
      payload.size = 3 ∧ Light (n + 1) p' := by
  obtain ⟨k, p₁, hk, hp₁⟩ := hp.intern (k := .integer 0) nofun rfl hn
  let scratch : Bytes := (Bytes.empty.putU16 0).put12 (UInt8.ofNat 'Z'.toNat) k
  let payload : Bytes := Bytes.empty.putBytes (scratch.extract 2 scratch.size)
  have hprepare : Returns ((do
      let _ ← ElementValue.reserve
      ElementValue.putValue (.boolean false) : PutM Unit).run .empty) p ((), scratch) p₁ :=
    returns_bind_above.2 ⟨_, _, p, ElementValue.returns_reserve.2 ⟨rfl, rfl, rfl⟩,
      returns_bind_above.2 ⟨k, _, p₁, returns_lift_above.2 ⟨hk, rfl⟩,
        returns_modify_above.2 ⟨rfl, rfl⟩⟩⟩
  have hwhole : Returns (AnnotationWriter.putWhole (.boolean false) .bare .empty) p
      ((), payload) p₁ :=
    returns_bind_above.2 ⟨((), scratch), .empty, p₁, returns_lift_above.2 ⟨hprepare, rfl⟩,
      returns_modify_above.2 ⟨rfl, rfl⟩⟩
  have hvalue : Returns (AnnotationWriter.event [.bare] (.value none (.boolean false)) .empty) p
      ([.bare], payload) p₁ :=
    returns_bind_above.2 ⟨.bare, .empty, p, returns_pure_above.2 ⟨rfl, rfl, rfl⟩,
      returns_bind_above.2 ⟨(), payload, p₁, hwhole, returns_pure_above.2 ⟨rfl, rfl, rfl⟩⟩⟩
  refine ⟨payload, p₁, returns_bind.2 ⟨((), payload), p₁, returns_bind_above.2 ⟨_, _, p₁, hvalue,
    returns_bind_above.2 ⟨[.bare], payload, p₁, returns_pure_above.2 ⟨rfl, rfl, rfl⟩,
      returns_pure_above.2 ⟨rfl, rfl, rfl⟩⟩⟩, returns_pure.2 ⟨rfl, rfl⟩⟩, ?_, hp₁⟩
  have hscratch : scratch.size = 5 := by
    rw [← Array.length_toList]
    simp [scratch, Bytes.put12, Bytes.empty]
  simp [payload, Bytes.putBytes, Bytes.empty, hscratch]

/-- A class with one annotation of its own and one method, which has one attribute. -/
def annotated (l payload : Bytes) : ClassWriter :=
  { ClassWriter.start ⟨.maxStack, .empty⟩ with
    annotations := ⟨⟨#[l]⟩, .empty⟩
    methods := MemberTable.empty.add 1 0 0 [⟨0, payload⟩] }

/-- It is put together with three more constants. -/
theorem bytes_annotated {n : Nat} (hp : p.Sound h) (hlight : Light n p) (hn : n + 3 ≤ 65535)
    (l payload : Bytes) : ∃ b p' classRef i, Returns (annotated l payload).bytes p b p' ∧
      b = (annotated l payload).assemble p' classRef [⟨i, AnnotationSet.put .empty ⟨#[l]⟩⟩] ∧
      p'.text? i = some "RuntimeVisibleAnnotations" ∧ Light (n + 3) p' := by
  have hfits : ModifiedUtf8.Fits "" ∧ ModifiedUtf8.Fits "RuntimeVisibleAnnotations" := by decide
  obtain ⟨i, p₁, hi, hp₁⟩ := hlight.utf8 hfits.1 (by omega)
  obtain ⟨classRef, p₂, hclass, hp₂⟩ := hp₁.intern (k := .classRef i) nofun rfl (by omega)
  obtain ⟨j, p₃, hj, hp₃⟩ := hp₂.utf8 hfits.2 (by omega)
  have hs₁ := (hp.utf8 hi).1
  have hs₂ := (hs₁.intern hclass).1
  have hannotations : Returns (annotated l payload).annotations.attributes p₂
      [⟨j, AnnotationSet.put .empty ⟨#[l]⟩⟩] p₃ :=
    returns_bind.2 ⟨_, p₃, returns_bind.2 ⟨j, p₃, hj, returns_pure.2 ⟨rfl, rfl⟩⟩,
      returns_bind.2 ⟨none, p₃, returns_pure.2 ⟨rfl, rfl⟩, returns_pure.2 ⟨rfl, rfl⟩⟩⟩
  have htable : Returns bootstrapAttribute? p₃ none p₃ := by
    refine returns_bind.2 ⟨p₃, p₃, returns_get.2 ⟨rfl, rfl⟩, ?_⟩
    dsimp only
    rw [hp₃.bootstrap]
    exact returns_pure.2 ⟨rfl, rfl⟩
  have hattributes : Returns (annotated l payload).attributes p₂
      [⟨j, AnnotationSet.put .empty ⟨#[l]⟩⟩] p₃ :=
    returns_bind.2 ⟨[], p₂, returns_pure.2 ⟨rfl, rfl⟩, returns_bind.2 ⟨_, p₃, hannotations,
      returns_bind.2 ⟨none, p₃, htable, returns_pure.2 ⟨rfl, rfl⟩⟩⟩⟩
  refine ⟨_, p₃, classRef, j, ?_, rfl, (hs₂.utf8 hj).2.2, hp₃⟩
  exact returns_bind.2 ⟨classRef, p₂, returns_bind.2 ⟨i, p₁, hi, hclass⟩,
    returns_bind.2 ⟨_, p₃, hattributes, returns_bind.2 ⟨p₃, p₃, returns_get.2 ⟨rfl, rfl⟩,
      returns_pure.2 ⟨rfl, rfl⟩⟩⟩⟩

/-- Everything in it fits, where what was encoded does. -/
theorem writable_annotated {n : Nat} (hlight : Light n p) {l payload : Bytes} (hl : l.size = 9)
    (hpayload : payload.size = 3) {i : ConstantIndex}
    (hi : p.text? i = some "RuntimeVisibleAnnotations") :
    (annotated l payload).Writable p none [⟨i, AnnotationSet.put .empty ⟨#[l]⟩⟩] where
  interfaces := Nat.zero_le _
  fields := ⟨[], MemberTable.lists_empty⟩
  methods := ⟨_, MemberTable.lists_empty.add ⟨1, 0, 0, [⟨0, payload⟩]⟩ (by decide)
    ⟨by simp, by simp [hpayload]⟩⟩
  count := by simp
  attributes := by
    have hsize : (AnnotationSet.put .empty ⟨#[l]⟩).size = 11 := by
      rw [← Array.length_toList, AnnotationSet.toList_put]
      simp [Bytes.empty, hl]
    refine ⟨[⟨i, AnnotationSet.put .empty ⟨#[l]⟩⟩], [], rfl, fun a ha => ?_, by simp⟩
    obtain rfl : a = _ := by simpa using ha
    exact ⟨⟨_, hi, by decide⟩, by rw [hsize]; decide⟩
  modest := hlight.modest
  entries := by simp [hlight.bootstrap]

theorem infix_annotated (l payload : Bytes) :
    payload.toList <:+: (annotated l payload).methods.bytes.toList := by
  show _ <:+: (RawAttribute.putAll _ [⟨0, payload⟩]).toList
  rw [RawAttribute.toList_putAll, RawAttribute.allEncoded, List.flatMap_singleton,
    RawAttribute.encoded]
  exact (List.suffix_append_of_suffix (List.suffix_append_of_suffix
    (List.suffix_append_of_suffix (List.suffix_append _ _)))).isInfix

/-- The annotation and the default of such a class come back. -/
theorem annotations_survive_marker : ∃ (w : ClassWriter) (p p' : ConstantPool) (b : Bytes)
    (c : ClassBytes) (o stop o' stop' : Nat), Returns w.bytes p b p' ∧ ofBytes b = .ok c ∧
      c.GivesAnnotation o marker stop ∧ c.GivesDefault o' (.boolean false) stop' := by
  obtain ⟨l, p₁, hadd, hl, hlight₁⟩ := add_marker light_empty (by omega)
  obtain ⟨payload, p₂, hput, hpayload, hlight₂⟩ := encodeDefault_false hlight₁ (by omega)
  have hp₀ := sound_empty (.empty : Hierarchy)
  obtain ⟨hp₁, hle₁⟩ := AnnotationSet.leads_add _ _ _ _ _ _ hadd hp₀
  obtain ⟨hp₂, hle₂⟩ := AnnotationWriter.leads_encodeDefault _ _ _ _ _ hput hp₁
  obtain ⟨b, p', classRef, i, hret, hb, hi, hlight⟩ :=
    bytes_annotated hp₂ hlight₂ (by omega) l payload
  obtain ⟨haccepted, hread⟩ := annotations_survive hp₂ hret hlight.modest.short
  obtain ⟨c, hc⟩ := haccepted classRef none _ hb hlight.bootstrap
    (writable_annotated hlight hl hpayload hi)
  obtain ⟨hone, hdefault⟩ := hread c hc
  obtain ⟨⟨o, ho⟩, hone⟩ := hone _ p₁ _ _ marker #[] hp₀ ⟨by decide, trivial, trivial⟩ hadd hle₂
    (.inr (.inr ⟨_, .inl rfl, rfl, by simp [annotated]⟩))
  obtain ⟨⟨o', ho'⟩, hdefault⟩ := hdefault p₁ p₂ (.boolean false) 1 payload hp₁ trivial hput (le_refl _)
    (.inr (.inl (infix_annotated l payload)))
  exact ⟨_, _, _, b, c, _, _, _, _, hret, hc, hone o ho, hdefault o' ho'⟩

end ClassBytes

end ClassFile
