/-
# Records of a class file, written and found again

`Constant.encoded` is a record as it is written.  Where the records of a pool stand one behind another,
`indexRecords` finds each of them (`indexRecords_encoded`), because a written record tells its length.

`HoldsRecords c p` says that a class file has the records of a pool, each at the offset that was found
for its index.  A record is then read back as what the pool says about it: a text, a class, a name with
its descriptor, a field or a method, and a method handle.
-/
import ClassFile.ClassBytes.Records
import ClassFile.Proofs.ClassBytes.Layout
import ClassFile.Proofs.ConstantPool.Room
import ClassFile.Proofs.Text.ModifiedUtf8

namespace ClassFile

/-! ## 1. Written records -/

namespace Constant

/-- The fields of a record, as they are written. -/
def fieldBytes : Constant → List UInt8
  | utf8 text => wordBytes 2 (UInt16.ofNat (ModifiedUtf8.encode text).size).toNat ++
      (ModifiedUtf8.encode text).toList
  | integer value => wordBytes 4 value.toUInt32.toNat
  | float value => wordBytes 4 value.bits.toNat
  | long value => wordBytes 8 value.toUInt64.toNat
  | double value => wordBytes 8 value.bits.toNat
  | classRef i | string i | methodType i | module i | package i => wordBytes 2 i.toNat
  | fieldRef i j | methodRef i j _ | nameAndType i j | dynamic i j | invokeDynamic i j =>
    wordBytes 2 i.toNat ++ wordBytes 2 j.toNat
  | methodHandle kind member => kind.tag :: wordBytes 2 member.toNat

/-- A record as it is written. -/
def encoded (c : Constant) : List UInt8 := c.tag.byte :: c.fieldBytes

@[simp] theorem toList_put (b : Bytes) (c : Constant) : (c.put b).toList = b.toList ++ c.encoded := by
  cases c <;> simp [put, putFields, encoded, fieldBytes, Bytes.putI32, Bytes.putI64, Bytes.put12]

/-! ## 2. Finding them -/

variable {b : Bytes} {offset : Nat} {c : Constant}

theorem recordTag_encoded (h : b.Has offset c.encoded) : recordTag b offset = .ok c.tag := by
  rw [recordTag, h.head.u8At]
  dsimp only [bind, Except.bind]
  rw [Tag.ofByte?_byte]
  rfl

/-- A written record tells its length. -/
theorem recordLength_encoded (hc : c.Short) (h : b.Has offset c.encoded) :
    recordLength b offset c.tag = .ok c.encoded.length := by
  cases c with
  | utf8 text =>
    obtain ⟨hread, hlength⟩ := (show b.Has (offset + 1) _ from h.tail).left.count (hc text rfl)
    show (b.u16At (offset + 1)).map _ = _
    rw [hread, Except.map, hlength]
    simp only [encoded, fieldBytes, List.length_cons, List.length_append, length_wordBytes,
      Array.length_toList, Except.ok.injEq]
    omega
  | methodRef i j interface => cases interface <;> simp [recordLength, tag, encoded, fieldBytes]
  | _ => simp [recordLength, tag, encoded, fieldBytes]

end Constant

open OffsetTable in
/-- **The records of a pool are found** at their indices, and nothing at any other index. -/
theorem indexRecords_encoded {b : Bytes} {stop : Nat} {l : List (Nat × Constant)} :
    ∀ {first offset : Nat} (offsets : Array Nat), Consecutive first l stop →
      (∀ e ∈ l, e.2.Short) → b.Has offset (l.flatMap fun e => e.2.encoded) →
      stop ≤ offsets.size → ∃ found,
        indexRecords b stop first offset offsets =
          .ok (found, offset + (l.flatMap fun e => e.2.encoded).length) ∧
        found.size = offsets.size ∧ (∀ i, (∀ e ∈ l, e.1 ≠ i) → found[i]? = offsets[i]?) ∧
        ∀ e ∈ l, ∃ o, found[e.1]? = some o ∧ offset ≤ o ∧ b.Has o e.2.encoded := by
  induction l with
  | nil =>
    intro first offset offsets hl _ _ _
    obtain rfl : first = stop := hl
    refine ⟨offsets, ?_, rfl, fun _ _ => rfl, by simp⟩
    rw [indexRecords, if_neg (Nat.lt_irrefl _)]
    simp
  | cons e l ih =>
    intro first offset offsets hl hshort h hsize
    obtain ⟨placed, c⟩ := e
    obtain ⟨rfl, hrest⟩ := hl
    rw [List.flatMap_cons] at h
    have hwidth : 0 < width c := c.width_pos
    have hlt : placed < stop := Nat.lt_of_lt_of_le (Nat.lt_add_of_pos_right hwidth) hrest.le
    obtain ⟨found, hfound, hfsize, hother, hmem⟩ := ih (offsets.setIfInBounds placed offset)
      hrest (fun e he => hshort e (by simp [he])) h.right (by simpa using hsize)
    have hbehind : ∀ e ∈ l, e.1 ≠ placed := fun e he => by
      have := (hrest.bounds he).1
      omega
    refine ⟨found, ?_, by simpa using hfsize, fun i hi => ?_, fun e he => ?_⟩
    · rw [indexRecords, if_pos hlt, Constant.recordTag_encoded h.left]
      show (recordLength b offset c.tag >>= _) = _
      rw [Constant.recordLength_encoded (hshort _ (by simp)) h.left, List.flatMap_cons,
        List.length_append, ← Nat.add_assoc]
      exact hfound
    · rw [hother i fun e he => hi e (by simp [he]), Array.getElem?_setIfInBounds,
        if_neg (hi (placed, c) (by simp))]
    · rcases List.mem_cons.1 he with rfl | he
      · refine ⟨offset, ?_, Nat.le_refl _, h.left⟩
        rw [hother placed hbehind, Array.getElem?_setIfInBounds, if_pos rfl,
          if_pos (Nat.lt_of_lt_of_le hlt hsize)]
      · obtain ⟨o, ho, hle, hat⟩ := hmem e he
        exact ⟨o, ho, Nat.le_trans (Nat.le_add_right _ _) hle, hat⟩

/-! ## 3. Reading them back -/

namespace ClassBytes

variable {c : ClassBytes} {p : ConstantPool}

/-- The class file has the records of a pool, each where its index says. -/
structure HoldsRecords (c : ClassBytes) (p : ConstantPool) : Prop where
  record : ∀ i k, p.get? i = some k → ∃ o, c.itemOffset i = .ok o ∧ c.bytes.Has o k.encoded
  short : ∀ i k, p.get? i = some k → k.Short

namespace HoldsRecords

variable {i : ConstantIndex} {o : Nat}

/-- The records of a pool from before. -/
theorem earlier {p' : ConstantPool} (h : c.HoldsRecords p') (hle : p ≤ p') : c.HoldsRecords p :=
  ⟨fun i k hi => h.record i k (hle.record i k hi), fun i k hi => h.short i k (hle.record i k hi)⟩

/-- A record is found with its tag. -/
theorem withTag (h : c.HoldsRecords p) {k : Constant} (hi : p.get? i = some k) (tag : Constant.Tag)
    (hk : k.tag = tag) : ∃ o, c.itemOffset i = .ok o ∧
      (∀ expected, c.itemWithTag i tag expected = .ok o) ∧ c.bytes.u8At o = .ok tag.byte ∧
      c.bytes.Has (o + 1) k.fieldBytes := by
  obtain ⟨o, ho, hat⟩ := h.record i k hi
  subst hk
  refine ⟨o, ho, fun expected => ?_, hat.head.u8At, hat.tail⟩
  exact bind_eq_ok_iff.2 ⟨o, ho, bind_eq_ok_iff.2 ⟨_, hat.head.u8At, if_pos rfl⟩⟩

/-- **A text is read back.** -/
theorem readUtf8 (h : c.HoldsRecords p) {text : String} (hi : p.text? i = some text) :
    c.readUtf8 i = .ok text := by
  have hi := ConstantPool.text?_eq_some_iff.1 hi
  obtain ⟨o, -, htag, -, hat⟩ := h.withTag hi .utf8 rfl
  obtain ⟨hlength, hsize⟩ := hat.left.count (h.short i _ hi text rfl)
  have htext := hat.right.bytesAt
  rw [length_wordBytes, Array.length_toList, ← hsize] at htext
  refine bind_eq_ok_iff.2 ⟨o, htag _, bind_eq_ok_iff.2 ⟨_, hlength, bind_eq_ok_iff.2 ⟨_, htext, ?_⟩⟩⟩
  rw [Array.toArray_toList, ModifiedUtf8.decode_encode]
  rfl

theorem utf8At (h : c.HoldsRecords p) (hat : c.bytes.Has o (wordBytes 2 i.toNat)) {text : String}
    (hi : p.text? i = some text) : c.utf8At o = .ok text :=
  bind_eq_ok_iff.2 ⟨i, hat.u16At, h.readUtf8 hi⟩

/-- **A class is read back.** -/
theorem readClass (h : c.HoldsRecords p) {name : String} (hi : p.Names .classRef i name) :
    c.readClass i = .ok name := by
  obtain ⟨n, hi, hn⟩ := hi
  obtain ⟨o, -, htag, -, hat⟩ := h.withTag hi .classRef rfl
  exact bind_eq_ok_iff.2 ⟨o, htag _, h.utf8At hat hn⟩

/-- **A name and a descriptor are read back.** -/
theorem readNameAndType (h : c.HoldsRecords p) {name descriptor : String}
    (hi : p.IsNameAndType i name descriptor) : c.readNameAndType i = .ok (name, descriptor) := by
  obtain ⟨n, d, hi, hn, hd⟩ := hi
  obtain ⟨o, -, htag, -, hat⟩ := h.withTag hi .nameAndType rfl
  exact bind_eq_ok_iff.2 ⟨o, htag _, bind_eq_ok_iff.2 ⟨name, h.utf8At hat.left hn,
    bind_eq_ok_iff.2 ⟨descriptor, h.utf8At hat.right hd, rfl⟩⟩⟩

/-- What a record says about a member, by its tag. -/
def interfaceOf? : Constant.Tag → Option Bool
  | .fieldRef | .methodRef => some false
  | .interfaceMethodRef => some true
  | _ => none

/-- A member whose record refers to a class and to a name and type. -/
theorem readMember_of_record (h : c.HoldsRecords p) {k : Constant} (hi : p.get? i = some k)
    {a m : ConstantIndex} {interface : Bool}
    (hfields : k.fieldBytes = wordBytes 2 a.toNat ++ wordBytes 2 m.toNat)
    (hinterface : interfaceOf? k.tag = some interface) {owner name descriptor : String}
    (ha : p.Names .classRef a owner) (hm : p.IsNameAndType m name descriptor) :
    c.readMember i = .ok (MemberRef.mk owner name descriptor interface) := by
  obtain ⟨o, ho, -, hbyte, hat⟩ := h.withTag hi k.tag rfl
  rw [hfields] at hat
  refine bind_eq_ok_iff.2 ⟨o, ho, bind_eq_ok_iff.2 ⟨_, hbyte, ?_⟩⟩
  rw [Constant.Tag.ofByte?_byte]
  cases htag : k.tag <;> rw [htag] at hinterface <;> cases hinterface <;>
    exact bind_eq_ok_iff.2 ⟨_, rfl, bind_eq_ok_iff.2 ⟨a, hat.left.u16At, bind_eq_ok_iff.2 ⟨owner,
      h.readClass ha, bind_eq_ok_iff.2 ⟨m, hat.right.u16At,
      bind_eq_ok_iff.2 ⟨_, h.readNameAndType hm, rfl⟩⟩⟩⟩⟩

/-- **A field is read back.** -/
theorem readMember_of_field (h : c.HoldsRecords p) {owner name descriptor : String}
    (hi : p.IsField i owner name descriptor) :
    c.readMember i = .ok (MemberRef.mk owner name descriptor false) := by
  obtain ⟨a, m, hi, ha, hm⟩ := hi
  exact h.readMember_of_record hi rfl rfl ha hm

/-- **A method is read back**, and whether it is one of an interface. -/
theorem readMember_of_method (h : c.HoldsRecords p) {owner name descriptor : String}
    {interface : Bool} (hi : p.IsMethod i owner name descriptor interface) :
    c.readMember i = .ok (MemberRef.mk owner name descriptor interface) := by
  obtain ⟨a, m, hi, ha, hm⟩ := hi
  exact h.readMember_of_record hi rfl (by cases interface <;> rfl) ha hm

/-- **A method handle is read back.**  A record of a field does not say whether it is one of an
interface, which is then read as no. -/
theorem readMethodHandle (h : c.HoldsRecords p) {handle : MethodHandle} (hi : p.IsHandle i handle)
    (hfield : handle.kind.isField → handle.interface = false) :
    c.readMethodHandle i = .ok handle := by
  obtain ⟨m, hi, hm⟩ := hi
  obtain ⟨o, -, htag, -, hat⟩ := h.withTag hi .methodHandle rfl
  have hmember : c.readMember m =
      .ok ⟨handle.owner, handle.name, handle.descriptor, handle.interface⟩ := by
    split at hm
    · rename_i hkind
      rw [hfield hkind]
      exact h.readMember_of_field hm
    · exact h.readMember_of_method hm
  refine bind_eq_ok_iff.2 ⟨o, htag _, bind_eq_ok_iff.2 ⟨_, hat.head.u8At, ?_⟩⟩
  rw [HandleKind.ofTag?_tag]
  exact bind_eq_ok_iff.2 ⟨m, hat.tail.u16At, bind_eq_ok_iff.2 ⟨_, hmember, rfl⟩⟩

/-- **A dynamic call site is read back.** -/
theorem readInvokeDynamic (h : c.HoldsRecords p) {b : UInt16} {name descriptor : String}
    (hi : ∃ m, p.get? i = some (.invokeDynamic b m) ∧ p.IsNameAndType m name descriptor) :
    c.readInvokeDynamic i = .ok (name, descriptor, b) := by
  obtain ⟨m, hi, hm⟩ := hi
  obtain ⟨o, -, htag, -, hat⟩ := h.withTag hi .invokeDynamic rfl
  exact bind_eq_ok_iff.2 ⟨o, htag _, bind_eq_ok_iff.2 ⟨b, hat.left.u16At,
    bind_eq_ok_iff.2 ⟨m, hat.right.u16At, bind_eq_ok_iff.2 ⟨_, h.readNameAndType hm, rfl⟩⟩⟩⟩

end HoldsRecords

end ClassBytes

end ClassFile
