/-
# What readings of a class file can give

`Reading x Q` says of a reading that its answer has a property, and that its error is one of what the
bytes are like (`Error.ofBytes`): they end too early, an index is not one of a record, a record is of
another kind, or an instruction or an offset in code is none.  Readings can follow each other (`bind`),
and all that is read from records and from code is one: words and bytes (`reading_wordAt`,
`reading_bytesAt`), texts, and constants with all that they refer to (`reading_readLoadable`).
-/
import ClassFile.ClassBytes.Records
import ClassFile.Proofs.Stateful

namespace ClassFile

/-- An error that says what is wrong with the bytes of a record or of code. -/
def Error.ofBytes : Error → Bool
  | .unexpectedEof .. | .invalidConstantIndex .. | .unexpectedConstant .. | .invalidOpcode ..
  | .invalidCodeOffset .. | .malformedUtf8 .. | .missingBootstrapMethod .. | .cyclicConstant .. => true
  | _ => false

/-- A reading whose answers have a property, and whose errors say what is wrong with the bytes. -/
structure Reading {α : Type} (x : Except Error α) (Q : α → Prop) : Prop where
  answer : ∀ a, x = .ok a → Q a
  error : ∀ e, x = .error e → e.ofBytes

namespace Reading

/-! ## 1. Rules -/

variable {α β : Type} {x : Except Error α} {Q : α → Prop} {R : β → Prop}

theorem pure {a : α} (ha : Q a) : Reading (Pure.pure a : Except Error α) Q :=
  ⟨fun _ hb => Except.ok.inj hb ▸ ha, fun _ he => nomatch he⟩

theorem throw {e : Error} (he : e.ofBytes) : Reading (.error e : Except Error α) Q :=
  ⟨fun _ hb => (nomatch hb), fun _ he' => Except.error.inj he' ▸ he⟩

/-- What follows a reading may rely on what is known of its answer. -/
theorem bind {f : α → Except Error β} (hx : Reading x Q) (hf : ∀ a, Q a → Reading (f a) R) :
    Reading (x >>= f) R := by
  cases x with
  | error e => exact .throw (hx.error e rfl)
  | ok a => exact hf a (hx.answer a rfl)

theorem map {f : α → β} (hx : Reading x Q) (hf : ∀ a, Q a → R (f a)) : Reading (f <$> x) R := by
  rw [map_eq_pure_bind]
  exact hx.bind fun a ha => .pure (hf a ha)

theorem ite {p : Prop} [Decidable p] {y : Except Error α} (hx : p → Reading x Q)
    (hy : ¬ p → Reading y Q) : Reading (if p then x else y) Q := by
  split
  · rename_i h
    exact hx h
  · rename_i h
    exact hy h

/-- A reading of every member of a list. -/
theorem mapM {f : α → Except Error β} (hf : ∀ a, Reading (f a) R) (l : List α) :
    Reading (l.mapM f) fun bs => ∀ b ∈ bs, R b := by
  induction l with
  | nil => exact .pure fun _ hb => nomatch hb
  | cons a l ih =>
    rw [List.mapM_cons]
    refine (hf a).bind fun b hb => ih.bind fun bs hbs => .pure fun b' hb' => ?_
    rcases List.mem_cons.1 hb' with rfl | hb'
    · exact hb
    · exact hbs b' hb'

end Reading

/-- A reading of which only the errors are known. -/
abbrev AnyReading {α : Type} (x : Except Error α) : Prop := Reading x fun _ => True

/-! ## 2. Words -/

namespace Bytes

variable (b : Bytes)

/-- A word that reaches past the end of the input is all that can be wrong with it. -/
theorem reading_wordAt (w offset : Nat) : AnyReading (b.wordAt w offset) := by
  unfold wordAt
  split
  · exact .pure trivial
  · exact .throw rfl

theorem reading_bytesAt (offset length : Nat) : AnyReading (b.bytesAt offset length) := by
  unfold bytesAt
  split
  · exact .pure trivial
  · exact .throw rfl

theorem reading_u8At (offset : Nat) : AnyReading (b.u8At offset) :=
  (b.reading_wordAt 1 offset).map fun _ _ => trivial

theorem reading_u16At (offset : Nat) : AnyReading (b.u16At offset) :=
  (b.reading_wordAt 2 offset).map fun _ _ => trivial

theorem reading_u32At (offset : Nat) : AnyReading (b.u32At offset) :=
  (b.reading_wordAt 4 offset).map fun _ _ => trivial

theorem reading_u64At (offset : Nat) : AnyReading (b.u64At offset) :=
  (b.reading_wordAt 8 offset).map fun _ _ => trivial

theorem reading_i8At (offset : Nat) : AnyReading (b.i8At offset) :=
  (b.reading_u8At offset).map fun _ _ => trivial

theorem reading_i16At (offset : Nat) : AnyReading (b.i16At offset) :=
  (b.reading_u16At offset).map fun _ _ => trivial

theorem reading_i32At (offset : Nat) : AnyReading (b.i32At offset) :=
  (b.reading_u32At offset).map fun _ _ => trivial

theorem reading_i64At (offset : Nat) : AnyReading (b.i64At offset) :=
  (b.reading_u64At offset).map fun _ _ => trivial

theorem reading_singleAt (offset : Nat) : AnyReading (b.singleAt offset) :=
  (b.reading_u32At offset).map fun _ _ => trivial

theorem reading_doubleAt (offset : Nat) : AnyReading (b.doubleAt offset) :=
  (b.reading_u64At offset).map fun _ _ => trivial

end Bytes

/-! ## 3. Records -/

namespace ClassBytes

variable (c : ClassBytes)

/-- The offset of a record, which an index past the end of the table does not have. -/
theorem reading_itemOffset (index : ConstantIndex) : AnyReading (c.itemOffset index) := by
  unfold itemOffset
  split
  · exact .pure trivial
  · exact .throw rfl

/-- A record of another kind than the one that is looked for. -/
theorem reading_itemWithTag (index : ConstantIndex) (tag : Constant.Tag) (expected : Expected) :
    AnyReading (c.itemWithTag index tag expected) :=
  (c.reading_itemOffset index).bind fun _ _ => (c.bytes.reading_u8At _).bind fun _ _ =>
    .ite (fun _ => .pure trivial) fun _ => .throw rfl

/-- A text may be missing, or its bytes may be none of modified UTF-8. -/
theorem reading_readUtf8 (index : ConstantIndex) : AnyReading (c.readUtf8 index) := by
  refine (c.reading_itemWithTag index .utf8 .utf8).bind fun offset _ => ?_
  refine (c.bytes.reading_u16At _).bind fun length _ => (c.bytes.reading_bytesAt _ _).bind fun s _ => ?_
  split
  · exact .pure trivial
  · exact .throw rfl

theorem reading_utf8At (offset : Nat) : AnyReading (c.utf8At offset) :=
  (c.bytes.reading_u16At offset).bind fun _ _ => c.reading_readUtf8 _

theorem reading_readClass (index : ConstantIndex) : AnyReading (c.readClass index) :=
  (c.reading_itemWithTag index .classRef .classRef).bind fun _ _ => c.reading_utf8At _

theorem reading_classAt (offset : Nat) : AnyReading (c.classAt offset) :=
  (c.bytes.reading_u16At offset).bind fun _ _ => .ite (fun _ => .pure trivial) fun _ =>
    (c.reading_readClass _).bind fun _ _ => .pure trivial

theorem reading_readNameAndType (index : ConstantIndex) : AnyReading (c.readNameAndType index) :=
  (c.reading_itemWithTag index .nameAndType .nameAndType).bind fun _ _ =>
    (c.reading_utf8At _).bind fun _ _ => (c.reading_utf8At _).bind fun _ _ => .pure trivial

/-- A record that leads to others is read as they are. -/
theorem reading_readMember (index : ConstantIndex) : AnyReading (c.readMember index) := by
  refine (c.reading_itemOffset index).bind fun offset _ => (c.bytes.reading_u8At _).bind fun tag _ => ?_
  cases Constant.Tag.ofByte? tag with
  | none => exact .throw rfl
  | some tag =>
    cases tag
    case fieldRef | methodRef | interfaceMethodRef =>
      exact (c.bytes.reading_u16At _).bind fun _ _ => (c.reading_readClass _).bind fun _ _ =>
        (c.bytes.reading_u16At _).bind fun _ _ => (c.reading_readNameAndType _).bind fun _ _ =>
          .pure trivial
    all_goals exact .throw rfl

theorem reading_readMethodHandle (index : ConstantIndex) : AnyReading (c.readMethodHandle index) := by
  refine (c.reading_itemWithTag index .methodHandle .methodHandle).bind fun offset _ =>
    (c.bytes.reading_u8At _).bind fun tag _ => ?_
  split
  · exact .throw rfl
  · exact (c.bytes.reading_u16At _).bind fun _ _ => (c.reading_readMember _).bind fun _ _ =>
      .pure trivial

theorem reading_readInvokeDynamic (index : ConstantIndex) : AnyReading (c.readInvokeDynamic index) :=
  (c.reading_itemWithTag index .invokeDynamic .invokeDynamic).bind fun _ _ =>
    (c.bytes.reading_u16At _).bind fun _ _ => (c.bytes.reading_u16At _).bind fun _ _ =>
      (c.reading_readNameAndType _).bind fun _ _ => .pure trivial

/-- A bootstrap method, for any way of reading its arguments. -/
theorem reading_readBootstrapWith {read : ConstantIndex → Except Error Loadable}
    (hread : ∀ i, AnyReading (read i)) (index : UInt16) : AnyReading (c.readBootstrapWith read index) := by
  unfold readBootstrapWith
  split
  · exact .throw rfl
  · refine (c.bytes.reading_u16At _).bind fun _ _ => (c.reading_readMethodHandle _).bind fun _ _ =>
      (c.bytes.reading_u16At _).bind fun _ _ => ?_
    exact (Reading.mapM (fun _ => (c.bytes.reading_u16At _).bind fun _ _ => hread _) _).bind
      fun _ _ => .pure trivial

/-- Constants that are nested in bootstrap methods.  The induction is on how deep they may be
nested. -/
theorem reading_readLoadableWithin (depth : Nat) (index : ConstantIndex) :
    AnyReading (c.readLoadableWithin depth index) := by
  induction depth generalizing index with
  | zero => exact .throw rfl
  | succ depth ih =>
    unfold readLoadableWithin
    refine (c.reading_itemOffset index).bind fun offset _ => (c.bytes.reading_u8At _).bind fun tag _ => ?_
    split
    · exact (c.bytes.reading_i32At _).bind fun _ _ => .pure trivial
    · exact (c.bytes.reading_singleAt _).bind fun _ _ => .pure trivial
    · exact (c.bytes.reading_i64At _).bind fun _ _ => .pure trivial
    · exact (c.bytes.reading_doubleAt _).bind fun _ _ => .pure trivial
    · exact (c.reading_utf8At _).bind fun _ _ => .pure trivial
    · exact (c.reading_utf8At _).bind fun _ _ => .pure trivial
    · exact (c.reading_utf8At _).bind fun _ _ => .pure trivial
    · exact (c.reading_readMethodHandle _).bind fun _ _ => .pure trivial
    · exact (c.bytes.reading_u16At _).bind fun _ _ => (c.reading_readNameAndType _).bind fun _ _ =>
        (c.bytes.reading_u16At _).bind fun _ _ => (c.reading_readBootstrapWith ih _).bind fun _ _ =>
          .pure trivial
    · exact .throw rfl

theorem reading_readLoadable (index : ConstantIndex) : AnyReading (c.readLoadable index) :=
  c.reading_readLoadableWithin _ index

theorem reading_readBootstrap (index : UInt16) : AnyReading (c.readBootstrap index) :=
  c.reading_readBootstrapWith c.reading_readLoadable index

end ClassBytes

end ClassFile
