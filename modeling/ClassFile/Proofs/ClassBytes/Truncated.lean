/-
# Class files that have been cut off

Reading the first bytes of a class file gives what reading all of it gives, unless the input has ended
too early.  That holds of each reader, from the words (`Bytes.shortened_wordAt`) over the records, the
annotations and the code up to the places and the events of a class (`shortened_ofBytes`,
`shortened_events`); a value in an annotation is the only place where the length of the input counts,
and there it bounds how deep values are nested (`shortened_readValueWithin`).

A class file may end with the table of the attributes of the class.  Since reading goes over all of that
table (`attributesAt_le`), such a class file cannot be read without its last byte (`traced_truncated`).
-/
import ClassFile.ClassBytes.Events
import ClassFile.Proofs.ClassBytes.Copied
import ClassFile.Proofs.ClassBytes.Shortened
import ClassFile.Proofs.Code.Passes
import ClassFile.Trace

namespace ClassFile

/-! ## 1. Words -/

namespace Bytes

/-- The first bytes. -/
def truncated (b : Bytes) (n : Nat) : Bytes := b.extract 0 n

/-- A slice of less input is the same slice, or is not there any more. -/
theorem slice?_truncated (b : Bytes) (n offset length : Nat) :
    (b.truncated n).slice? offset length = none ∨
      (b.truncated n).slice? offset length = b.slice? offset length := by
  unfold slice? truncated
  rw [Array.size_extract]
  split
  · rename_i hle
    refine .inr ?_
    rw [if_pos (by omega), Array.extract_extract]
    congr 2 <;> omega
  · exact .inl rfl

theorem shortened_bytesAt (b : Bytes) (n offset length : Nat) :
    Shortened ((b.truncated n).bytesAt offset length) (b.bytesAt offset length) := by
  unfold bytesAt
  obtain h | h := slice?_truncated b n offset length <;> rw [h]
  · exact .eof ..
  · exact .refl _

/-- The place of a word is checked before its bytes are: in less input it can only be missing. -/
theorem shortened_wordAt (b : Bytes) (n w offset : Nat) :
    Shortened ((b.truncated n).wordAt w offset) (b.wordAt w offset) := by
  unfold wordAt word?
  obtain h | h := slice?_truncated b n offset w <;> rw [h]
  · exact .eof ..
  · exact .refl _

theorem shortened_u8At (b : Bytes) (n offset : Nat) :
    Shortened ((b.truncated n).u8At offset) (b.u8At offset) := (shortened_wordAt ..).map

theorem shortened_u16At (b : Bytes) (n offset : Nat) :
    Shortened ((b.truncated n).u16At offset) (b.u16At offset) := (shortened_wordAt ..).map

theorem shortened_u32At (b : Bytes) (n offset : Nat) :
    Shortened ((b.truncated n).u32At offset) (b.u32At offset) := (shortened_wordAt ..).map

theorem shortened_u64At (b : Bytes) (n offset : Nat) :
    Shortened ((b.truncated n).u64At offset) (b.u64At offset) := (shortened_wordAt ..).map

theorem shortened_i8At (b : Bytes) (n offset : Nat) :
    Shortened ((b.truncated n).i8At offset) (b.i8At offset) := (shortened_u8At ..).map

theorem shortened_i16At (b : Bytes) (n offset : Nat) :
    Shortened ((b.truncated n).i16At offset) (b.i16At offset) := (shortened_u16At ..).map

theorem shortened_i32At (b : Bytes) (n offset : Nat) :
    Shortened ((b.truncated n).i32At offset) (b.i32At offset) := (shortened_u32At ..).map

theorem shortened_i64At (b : Bytes) (n offset : Nat) :
    Shortened ((b.truncated n).i64At offset) (b.i64At offset) := (shortened_u64At ..).map

theorem shortened_singleAt (b : Bytes) (n offset : Nat) :
    Shortened ((b.truncated n).singleAt offset) (b.singleAt offset) := (shortened_u32At ..).map

theorem shortened_doubleAt (b : Bytes) (n offset : Nat) :
    Shortened ((b.truncated n).doubleAt offset) (b.doubleAt offset) := (shortened_u64At ..).map

end Bytes

open Bytes

/-! ## 2. Finding where things are -/

theorem shortened_recordTag (b : Bytes) (n offset : Nat) :
    Shortened (recordTag (b.truncated n) offset) (recordTag b offset) :=
  (shortened_u8At ..).bind fun _ => .refl _

theorem shortened_recordLength (b : Bytes) (n offset : Nat) (tag : Constant.Tag) :
    Shortened (recordLength (b.truncated n) offset tag) (recordLength b offset tag) := by
  cases tag
  case utf8 => exact (shortened_u16At ..).map
  all_goals exact .refl _

/-- Records are found one after the other, so those that are still there are found at the same
offsets. -/
theorem shortened_indexRecords (b : Bytes) (n count index offset : Nat) (offsets : Array Nat) :
    Shortened (indexRecords (b.truncated n) count index offset offsets)
      (indexRecords b count index offset offsets) := by
  induction index, offset, offsets using indexRecords.induct count with
  | case1 index offset offsets hlt ih =>
    unfold indexRecords
    rw [if_pos hlt, if_pos hlt]
    refine (shortened_recordTag ..).bind fun tag => ?_
    exact (shortened_recordLength ..).bind fun length => ih tag length
  | case2 index offset offsets hge =>
    unfold indexRecords
    rw [if_neg hge, if_neg hge]
    exact .refl _

/-- The end of a table of attributes, which is needed before it is read. -/
theorem shortened_skipAttributes (b : Bytes) (n offset : Nat) :
    Shortened (skipAttributes (b.truncated n) offset) (skipAttributes b offset) :=
  (shortened_u16At ..).bind fun _ => .iterateM (fun _ => (shortened_u32At ..).map) _ _

theorem shortened_skipMembers (b : Bytes) (n offset : Nat) :
    Shortened (skipMembers (b.truncated n) offset) (skipMembers b offset) :=
  (shortened_u16At ..).bind fun _ => .iterateM (fun _ => shortened_skipAttributes ..) _ _

theorem shortened_findAttributes (b : Bytes) (n header : Nat) :
    Shortened (findAttributes (b.truncated n) header) (findAttributes b header) :=
  (shortened_u16At ..).bind fun _ =>
    (shortened_skipMembers ..).bind fun _ => shortened_skipMembers ..

namespace ClassBytes

/-- The same places in less input. -/
def truncated (c : ClassBytes) (n : Nat) : ClassBytes := { c with bytes := c.bytes.truncated n }

variable (c : ClassBytes) (n : Nat)

/-- The offset of a record comes from the index, which has been made from all of the input; only its
tag is looked up in what is left. -/
theorem shortened_itemWithTag (index : ConstantIndex) (tag : Constant.Tag) (expected : Expected) :
    Shortened ((c.truncated n).itemWithTag index tag expected) (c.itemWithTag index tag expected) :=
  Shortened.bind (.refl _) fun _ => (shortened_u8At ..).bind fun _ => .refl _

theorem shortened_readUtf8 (index : ConstantIndex) :
    Shortened ((c.truncated n).readUtf8 index) (c.readUtf8 index) :=
  (c.shortened_itemWithTag n ..).bind fun _ => (shortened_u16At ..).bind fun _ =>
    (shortened_bytesAt ..).bind fun _ => .refl _

theorem shortened_utf8At (offset : Nat) :
    Shortened ((c.truncated n).utf8At offset) (c.utf8At offset) :=
  (shortened_u16At ..).bind fun _ => c.shortened_readUtf8 n _

theorem shortened_indexBootstrapEntries (b : Bytes) (n count entry : Nat) (found : Array Nat) :
    Shortened (indexBootstrapEntries (b.truncated n) count entry found)
      (indexBootstrapEntries b count entry found) :=
  (Shortened.iterateM (fun _ => (shortened_u16At ..).bind fun _ => .refl _) _ _).map

/-- The index of a class looks into one attribute: the one with the bootstrap methods. -/
theorem shortened_indexAttribute (offset : Nat) :
    Shortened ((c.truncated n).indexAttribute offset)
      ((c.indexAttribute offset).map fun (c, next) => (c.truncated n, next)) := by
  refine Shortened.bind_map (shortened_u32At ..) fun length => ?_
  refine Shortened.bind_map (c.shortened_utf8At n _) fun name => ?_
  split
  · refine Shortened.bind_map (shortened_u16At ..) fun count => ?_
    exact Shortened.bind_map (shortened_indexBootstrapEntries ..) fun found => .refl _
  · exact .refl _

/-- **The places in less input** are the same. -/
theorem shortened_ofBytes (b : Bytes) :
    Shortened (ofBytes (b.truncated n)) ((ofBytes b).map fun c => c.truncated n) := by
  refine Shortened.bind_map (shortened_u32At ..) fun magic => ?_
  dsimp only
  split
  · exact .refl _
  refine Shortened.bind_map (shortened_u16At ..) fun count => ?_
  refine Shortened.bind_map (shortened_indexRecords ..) fun (itemOffsets, header) => ?_
  refine Shortened.bind_map (shortened_findAttributes ..) fun classAttributes => ?_
  refine Shortened.bind_map (shortened_u16At ..) fun attributes => ?_
  have hattributes := Shortened.iterate (f := fun (c, offset) => c.indexAttribute offset)
    (g := fun (c, offset) => c.indexAttribute offset)
    (k := fun ((c, next) : ClassBytes × Nat) => (c.truncated n, next))
    (fun (c, offset) => c.shortened_indexAttribute n offset) attributes.toNat
    (⟨b, itemOffsets, header, classAttributes, #[], none⟩, classAttributes + 2)
  have hfound := hattributes.bind (f := fun found => .ok found.1) (g := fun found => .ok found.1)
    fun found => .refl _
  have hsame : ∀ x : Except Error (ClassBytes × Nat),
      ((x.map fun (c, next) => (c.truncated n, next)) >>= fun found => .ok found.1) =
        ((x >>= fun (c, _) => .ok c).map fun c => c.truncated n) := fun x => by cases x <;> rfl
  exact hsame _ ▸ hfound

/-! ## 3. Records -/

theorem shortened_readClass (index : ConstantIndex) :
    Shortened ((c.truncated n).readClass index) (c.readClass index) :=
  (c.shortened_itemWithTag n ..).bind fun _ => c.shortened_utf8At n _

theorem shortened_classAt (offset : Nat) :
    Shortened ((c.truncated n).classAt offset) (c.classAt offset) :=
  (shortened_u16At ..).bind fun _ => .ite (.refl _) ((c.shortened_readClass n _).bind fun _ => .refl _)

theorem shortened_readNameAndType (index : ConstantIndex) :
    Shortened ((c.truncated n).readNameAndType index) (c.readNameAndType index) :=
  (c.shortened_itemWithTag n ..).bind fun _ => (c.shortened_utf8At n _).bind fun _ =>
    (c.shortened_utf8At n _).bind fun _ => .refl _

/-- A field or method constant leads to three other records, any of which may be gone. -/
theorem shortened_readMember (index : ConstantIndex) :
    Shortened ((c.truncated n).readMember index) (c.readMember index) := by
  refine Shortened.bind (.refl _) fun offset => ?_
  refine (shortened_u8At ..).bind fun tag => ?_
  cases Constant.Tag.ofByte? tag with
  | none => exact .refl _
  | some tag =>
    cases tag
    case fieldRef | methodRef | interfaceMethodRef =>
      exact (shortened_u16At ..).bind fun _ => (c.shortened_readClass n _).bind fun _ =>
        (shortened_u16At ..).bind fun _ => (c.shortened_readNameAndType n _).bind fun _ => .refl _
    all_goals exact .refl _

/-- A method ends where its table of attributes does. -/
theorem shortened_readMethodHandle (index : ConstantIndex) :
    Shortened ((c.truncated n).readMethodHandle index) (c.readMethodHandle index) := by
  refine (c.shortened_itemWithTag n ..).bind fun offset => ?_
  refine (shortened_u8At ..).bind fun tag => ?_
  cases HandleKind.ofTag? tag with
  | none => exact .refl _
  | some kind =>
    exact (shortened_u16At ..).bind fun _ => (c.shortened_readMember n _).bind fun _ => .refl _

theorem shortened_readInvokeDynamic (index : ConstantIndex) :
    Shortened ((c.truncated n).readInvokeDynamic index) (c.readInvokeDynamic index) :=
  (c.shortened_itemWithTag n ..).bind fun _ => (shortened_u16At ..).bind fun _ =>
    (shortened_u16At ..).bind fun _ => (c.shortened_readNameAndType n _).bind fun _ => .refl _

/-- A bootstrap method, when its arguments are read alike in less input. -/
theorem shortened_readBootstrapWith {read read' : ConstantIndex → Except Error Loadable}
    (h : ∀ i, Shortened (read i) (read' i)) (index : UInt16) :
    Shortened ((c.truncated n).readBootstrapWith read index) (c.readBootstrapWith read' index) := by
  unfold readBootstrapWith
  rw [show (c.truncated n).bootstrapOffsets = c.bootstrapOffsets from rfl]
  cases c.bootstrapOffsets[index.toNat]? with
  | none => exact .refl _
  | some offset =>
    refine (shortened_u16At ..).bind fun _ => (c.shortened_readMethodHandle n _).bind fun handle => ?_
    refine (shortened_u16At ..).bind fun count => ?_
    refine (Shortened.mapM (fun i => ?_) _).bind fun _ => .refl _
    exact (shortened_u16At ..).bind fun _ => h _

/-- Constants lead to bootstrap methods and these to constants.  The induction is on how deep they
may be nested. -/
theorem shortened_readLoadableWithin (depth : Nat) (index : ConstantIndex) :
    Shortened ((c.truncated n).readLoadableWithin depth index) (c.readLoadableWithin depth index) := by
  induction depth generalizing index with
  | zero => exact .refl _
  | succ depth ih =>
    unfold readLoadableWithin
    refine Shortened.bind (.refl _) fun offset => ?_
    refine (shortened_u8At ..).bind fun byte => ?_
    cases Constant.Tag.ofByte? byte with
    | none => exact .refl _
    | some tag =>
      cases tag
      case integer => exact (shortened_i32At ..).bind fun _ => .refl _
      case float => exact (shortened_singleAt ..).bind fun _ => .refl _
      case long => exact (shortened_i64At ..).bind fun _ => .refl _
      case double => exact (shortened_doubleAt ..).bind fun _ => .refl _
      case string => exact (c.shortened_utf8At n _).bind fun _ => .refl _
      case classRef => exact (c.shortened_utf8At n _).bind fun _ => .refl _
      case methodType => exact (c.shortened_utf8At n _).bind fun _ => .refl _
      case methodHandle => exact (c.shortened_readMethodHandle n _).bind fun _ => .refl _
      case dynamic =>
        refine (shortened_u16At ..).bind fun _ => ?_
        refine (c.shortened_readNameAndType n _).bind fun _ => ?_
        refine (shortened_u16At ..).bind fun _ => ?_
        exact (c.shortened_readBootstrapWith n ih _).bind fun _ => .refl _
      all_goals exact .refl _

theorem shortened_readLoadable (index : ConstantIndex) :
    Shortened ((c.truncated n).readLoadable index) (c.readLoadable index) :=
  c.shortened_readLoadableWithin n _ _

theorem shortened_readBootstrap (index : UInt16) :
    Shortened ((c.truncated n).readBootstrap index) (c.readBootstrap index) :=
  c.shortened_readBootstrapWith n (c.shortened_readLoadable n) _

/-! ## 4. Annotations -/

/-- A constant value of an annotation: its tag says which record the index after it designates. -/
theorem shortened_readLiteral? (tag : Char) (offset : Nat) :
    Shortened ((c.truncated n).readLiteral? tag offset) (c.readLiteral? tag offset) := by
  have hconstant : Shortened ((c.truncated n).bytes.u16At offset >>= (c.truncated n).readLoadable)
      (c.bytes.u16At offset >>= c.readLoadable) :=
    (shortened_u16At ..).bind fun _ => c.shortened_readLoadable n _
  have hmismatch : ∀ expected : Expected, Shortened
      ((c.truncated n).bytes.u16At offset >>= fun i =>
        (throw (.unexpectedConstant i expected) : Except Error (Option ElementValue)))
      (c.bytes.u16At offset >>= fun i => throw (.unexpectedConstant i expected)) := fun expected =>
    (shortened_u16At ..).bind fun _ => .refl _
  unfold readLiteral?
  dsimp only
  split
  all_goals first
    | exact (c.shortened_utf8At n _).bind fun _ => .refl _
    | exact .refl _
    | (refine hconstant.bind fun value => ?_
       cases value <;> first | exact .refl _ | exact hmismatch _)

/-- The named values of an annotation, when a value is read alike in less input. -/
theorem shortened_readPairs {read read' : Option String → Nat → Replay AnnotationEvent Nat}
    (h : ∀ name offset, Replay.Shortened (read name offset) (read' name offset)) (count offset : Nat) :
    Replay.Shortened ((c.truncated n).readPairs read count offset) (c.readPairs read' count offset) := by
  induction count generalizing offset with
  | zero => exact .refl _
  | succ count ih =>
    exact (Replay.Shortened.lift (c.shortened_utf8At n _)).bind fun name => (h _ _).bind fun next => ih _

theorem shortened_readEntries {read read' : Option String → Nat → Replay AnnotationEvent Nat}
    (h : ∀ name offset, Replay.Shortened (read name offset) (read' name offset)) (count offset : Nat) :
    Replay.Shortened (readEntries read count offset) (readEntries read' count offset) := by
  induction count generalizing offset with
  | zero => exact .refl _
  | succ count ih => exact (h _ _).bind fun next => ih _

theorem shortened_readAnnotationWith {read read' : Option String → Nat → Replay AnnotationEvent Nat}
    (h : ∀ name offset, Replay.Shortened (read name offset) (read' name offset)) (offset : Nat) :
    Replay.Shortened ((c.truncated n).readAnnotationWith read offset)
      (c.readAnnotationWith read' offset) :=
  (Replay.Shortened.lift (shortened_u16At ..)).bind fun _ =>
    (c.shortened_readPairs n h _ _).bind fun _ => .refl _

/-- A reader that counts down less has run out of input when it has counted down. -/
theorem shortened_readValueWithin {left left' : Nat} (hleft : left ≤ left') (name : Option String)
    (offset : Nat) : Replay.Shortened ((c.truncated n).readValueWithin left name offset)
      (c.readValueWithin left' name offset) := by
  induction left generalizing left' name offset with
  | zero => exact Replay.Shortened.eof offset 1 _
  | succ left ih =>
    obtain ⟨left', rfl⟩ := Nat.exists_eq_add_of_le' (Nat.le_trans (Nat.le_add_left 1 left) hleft)
    have hread := fun name offset => ih (Nat.le_of_succ_le_succ hleft) name offset
    have htext := fun offset =>
      Replay.Shortened.lift (ε := AnnotationEvent) (c.shortened_utf8At n offset)
    unfold readValueWithin
    refine (Replay.Shortened.lift (shortened_u8At ..)).bind fun byte => ?_
    split
    · exact (htext _).bind fun _ => (htext _).bind fun _ => .refl _
    · exact (htext _).bind fun _ => Replay.Shortened.bind (.refl _) fun _ =>
        c.shortened_readAnnotationWith n hread _
    · exact (Replay.Shortened.lift (shortened_u16At ..)).bind fun _ =>
        Replay.Shortened.bind (.refl _) fun _ =>
          (shortened_readEntries hread _ _).bind fun _ => .refl _
    · refine (Replay.Shortened.lift (c.shortened_readLiteral? n _ _)).bind fun value => ?_
      cases value <;> exact .refl _

theorem size_truncated (b : Bytes) : (b.truncated n).size ≤ b.size := by
  unfold Bytes.truncated
  rw [Array.size_extract]
  omega

theorem shortened_readValue (name : Option String) (offset : Nat) :
    Replay.Shortened ((c.truncated n).readValue name offset) (c.readValue name offset) :=
  c.shortened_readValueWithin n (Nat.sub_le_sub_right (size_truncated n c.bytes) offset) name offset

theorem shortened_readAnnotationAt (offset : Nat) :
    Replay.Shortened ((c.truncated n).readAnnotationAt offset) (c.readAnnotationAt offset) :=
  c.shortened_readAnnotationWith n
    (c.shortened_readValueWithin n (Nat.sub_le_sub_right (size_truncated n c.bytes) offset)) offset

/-! ## 5. Code -/

theorem shortened_targetAt (span : CodeSpan) (pc offset : Nat) :
    Shortened ((c.truncated n).targetAt span pc offset) (c.targetAt span pc offset) :=
  (shortened_i32At ..).bind fun _ => .refl _

/-- A table whose rows are decoded alike. -/
theorem shortened_decodeTableSwitch (span : CodeSpan) (pc : Nat) :
    Shortened ((c.truncated n).decodeTableSwitch span pc) (c.decodeTableSwitch span pc) := by
  refine (c.shortened_targetAt n ..).bind fun default => ?_
  refine (shortened_i32At ..).bind fun low => ?_
  refine (shortened_i32At ..).bind fun high => ?_
  refine .ite (.refl _) ?_
  refine (shortened_bytesAt ..).bind fun _ => ?_
  exact (Shortened.mapM (fun _ => c.shortened_targetAt n ..) _).bind fun _ => .refl _

theorem shortened_decodeLookupSwitch (span : CodeSpan) (pc : Nat) :
    Shortened ((c.truncated n).decodeLookupSwitch span pc) (c.decodeLookupSwitch span pc) := by
  refine (c.shortened_targetAt n ..).bind fun default => ?_
  refine (shortened_i32At ..).bind fun count => ?_
  refine .ite (.refl _) ?_
  refine (shortened_bytesAt ..).bind fun _ => ?_
  refine (Shortened.mapM (fun _ => ?_) _).bind fun _ => .refl _
  exact (shortened_i32At ..).bind fun _ => (c.shortened_targetAt n ..).bind fun _ => .refl _

theorem shortened_decodeWide (span : CodeSpan) (pc : Nat) :
    Shortened ((c.truncated n).decodeWide span pc) (c.decodeWide span pc) := by
  refine (shortened_u8At ..).bind fun op => ?_
  cases Opcode.shape op
  case increment =>
    exact (shortened_u16At ..).bind fun _ => (shortened_i16At ..).bind fun _ => .refl _
  case var => exact (shortened_u16At ..).bind fun _ => .refl _
  all_goals exact .refl _

/-- What stands after an opcode, for each of the kinds of operands. -/
theorem shortened_decodeOperands (span : CodeSpan) (pc : Nat) (op : Opcode) :
    Shortened ((c.truncated n).decodeOperands span pc op) (c.decodeOperands span pc op) := by
  unfold decodeOperands
  cases op.shape
  case simple | packedVar | invalid => exact .refl _
  case byte => exact (shortened_i8At ..).bind fun _ => .refl _
  case short => exact (shortened_i16At ..).bind fun _ => .refl _
  case arrayType | var => exact (shortened_u8At ..).bind fun _ => .refl _
  case constant =>
    exact (shortened_u8At ..).bind fun _ => (c.shortened_readLoadable n _).bind fun _ => .refl _
  case wideConstant =>
    exact (shortened_u16At ..).bind fun _ => (c.shortened_readLoadable n _).bind fun _ => .refl _
  case increment =>
    exact (shortened_u8At ..).bind fun _ => (shortened_i8At ..).bind fun _ => .refl _
  case jump => exact (shortened_i16At ..).bind fun _ => .refl _
  case wideJump => exact (c.shortened_targetAt n ..).bind fun _ => .refl _
  case tableSwitch => exact c.shortened_decodeTableSwitch n span pc
  case lookupSwitch => exact c.shortened_decodeLookupSwitch n span pc
  case field | method =>
    exact (shortened_u16At ..).bind fun _ => (c.shortened_readMember n _).bind fun _ => .refl _
  case invokeDynamic =>
    exact (shortened_u16At ..).bind fun _ => (c.shortened_readInvokeDynamic n _).bind fun _ =>
      (c.shortened_readBootstrap n _).bind fun _ => .refl _
  case type =>
    exact (shortened_u16At ..).bind fun _ => (c.shortened_readClass n _).bind fun _ => .refl _
  case wide => exact c.shortened_decodeWide n span pc
  case multiArray =>
    exact (shortened_u16At ..).bind fun _ => (c.shortened_readClass n _).bind fun _ =>
      (shortened_u8At ..).bind fun _ => .refl _

theorem shortened_decodeInstruction (span : CodeSpan) (pc : Nat) :
    Shortened ((c.truncated n).decodeInstruction span pc) (c.decodeInstruction span pc) :=
  (shortened_u8At ..).bind fun _ => (c.shortened_decodeOperands n ..).bind fun _ => .refl _

/-- Code is decoded from one instruction to the next, by recursion on what is left of its span,
which does not depend on the input. -/
theorem shortened_decodeFrom (span : CodeSpan) (pc : Nat) :
    Shortened ((c.truncated n).decodeFrom span pc) (c.decodeFrom span pc) := by
  induction pc using decodeFrom.induct span with
  | case1 pc hlt ih =>
    unfold decodeFrom
    rw [if_pos hlt, if_pos hlt]
    exact (c.shortened_decodeInstruction n ..).bind fun x => (ih x.2).bind fun _ => .refl _
  | case2 pc hge =>
    unfold decodeFrom
    rw [if_neg hge, if_neg hge]
    exact .refl _

theorem shortened_decodeHandler (span : CodeSpan) (row : Nat) :
    Shortened ((c.truncated n).decodeHandler span row) (c.decodeHandler span row) := by
  have hplace : ∀ offset, Shortened
      ((c.truncated n).bytes.u16At offset >>= fun value =>
        if value.toNat ≤ span.length then pure value.toNat
        else throw (.invalidCodeOffset row value.toNat))
      (c.bytes.u16At offset >>= fun value =>
        if value.toNat ≤ span.length then pure value.toNat
        else throw (.invalidCodeOffset row value.toNat)) := fun offset =>
    (shortened_u16At ..).bind fun _ => .refl _
  exact (hplace _).bind fun _ => (hplace _).bind fun _ => (hplace _).bind fun _ =>
    (c.shortened_classAt n _).bind fun _ => .refl _

theorem shortened_decodeLine (span : CodeSpan) (row : Nat) :
    Shortened ((c.truncated n).decodeLine span row) (c.decodeLine span row) :=
  (shortened_u16At ..).bind fun _ => .ite (.refl _) ((shortened_u16At ..).bind fun _ => .refl _)

theorem shortened_decodeLocal (span : CodeSpan) (row : Nat) :
    Shortened ((c.truncated n).decodeLocal span row) (c.decodeLocal span row) :=
  (shortened_u16At ..).bind fun _ => (shortened_u16At ..).bind fun _ =>
    .ite (.refl _) (.ite (.refl _) ((shortened_u16At ..).bind fun _ => .refl _))

theorem shortened_decodeTable {α : Type} (size : Nat) {row row' : Nat → Except Error α}
    (h : ∀ offset, Shortened (row offset) (row' offset)) (offset : Nat) :
    Shortened ((c.truncated n).decodeTable size row offset) (c.decodeTable size row' offset) :=
  (shortened_u16At ..).bind fun _ => .mapM (fun _ => h _) _

theorem shortened_decodeCodeAttribute (span : CodeSpan) (offset : Nat) :
    Shortened ((c.truncated n).decodeCodeAttribute span offset)
      (c.decodeCodeAttribute span offset) := by
  refine (c.shortened_utf8At n _).bind fun name => ?_
  have hnext : ∀ a : CodeAttribute, Shortened
      ((c.truncated n).bytes.u32At (offset + 2) >>= fun length =>
        pure (a, offset + 6 + length.toNat))
      (c.bytes.u32At (offset + 2) >>= fun length => pure (a, offset + 6 + length.toNat)) :=
    fun a => (shortened_u32At ..).bind fun _ => .refl _
  refine .ite ?_ (.ite ?_ (hnext _))
  · exact (c.shortened_decodeTable n 4 (fun _ => c.shortened_decodeLine n ..) _).map.bind hnext
  · exact (c.shortened_decodeTable n 10 (fun _ => c.shortened_decodeLocal n ..) _).map.bind hnext

theorem shortened_decodeAttributes (span : CodeSpan) (count offset : Nat) :
    Shortened ((c.truncated n).decodeAttributes span count offset)
      (c.decodeAttributes span count offset) := by
  induction count generalizing offset with
  | zero => exact .refl _
  | succ count ih =>
    exact (c.shortened_decodeCodeAttribute n ..).bind fun x => (ih x.2).bind fun _ => .refl _

theorem shortened_decodeListing (span : CodeSpan) :
    Shortened ((c.truncated n).decodeListing span) (c.decodeListing span) := by
  refine (c.shortened_decodeFrom n ..).bind fun instructions => ?_
  refine (c.shortened_decodeTable n 8 (fun _ => c.shortened_decodeHandler n ..) _).bind
    fun handlers => ?_
  refine (shortened_u16At ..).bind fun count => ?_
  exact (c.shortened_decodeAttributes n ..).bind fun _ => .refl _

/-- Code as a whole: its header, its instructions and its tables. -/
theorem shortened_decodeBody (offset : Nat) :
    Shortened ((c.truncated n).decodeBody offset) (c.decodeBody offset) := by
  refine (shortened_u16At ..).bind fun maxStack => ?_
  refine (shortened_u16At ..).bind fun maxLocals => ?_
  refine (shortened_u32At ..).bind fun length => ?_
  refine (shortened_bytesAt ..).bind fun _ => ?_
  exact (c.shortened_decodeListing n _).bind fun _ => .refl _

/-- The names and types in a listing of code are looked up as they are reported. -/
theorem shortened_replay (b : Body) :
    Replay.Shortened (b.replay (c.truncated n)) (b.replay c) := by
  refine Replay.Shortened.bind (.refl _) fun _ => ?_
  refine (Replay.Shortened.forM (fun l => ?_) _).bind fun _ => .refl _
  exact (Replay.Shortened.lift (c.shortened_utf8At n _)).bind fun _ =>
    (Replay.Shortened.lift (c.shortened_utf8At n _)).bind fun _ => .refl _

theorem shortened_readCode (offset : Nat) :
    Replay.Shortened ((c.truncated n).readCode offset) (c.readCode offset) := by
  rw [readCode_eq, readCode_eq]
  exact (Replay.Shortened.lift (c.shortened_decodeBody n _)).bind fun b => c.shortened_replay n b

/-! ## 6. Members and classes -/

theorem shortened_someClassAt (offset : Nat) :
    Shortened ((c.truncated n).someClassAt offset) (c.someClassAt offset) :=
  (c.shortened_classAt n _).bind fun _ => .refl _

theorem shortened_classesAt (offset : Nat) :
    Shortened ((c.truncated n).classesAt offset) (c.classesAt offset) :=
  (shortened_u16At ..).bind fun _ => .mapM (fun _ => (shortened_u16At ..).bind fun _ =>
    c.shortened_readClass n _) _

theorem shortened_attributeAt (offset : Nat) :
    Shortened ((c.truncated n).attributeAt offset) (c.attributeAt offset) :=
  (c.shortened_utf8At n _).bind fun _ => (shortened_u32At ..).bind fun _ =>
    (shortened_bytesAt ..).bind fun _ => .refl _

/-- A table of attributes gives the place of each, whatever it contains. -/
theorem shortened_attributesAt (offset : Nat) :
    Shortened ((c.truncated n).attributesAt offset) (c.attributesAt offset) := by
  refine (shortened_u16At ..).bind fun count => ?_
  refine (Shortened.iterateM (fun _ => ?_) _ _).bind fun _ => .refl _
  exact (c.shortened_attributeAt n _).bind fun _ => .refl _

section Annotations

variable {ε : Type}

/-- A table of annotations, with the events in which they are reported. -/
theorem shortened_readAnnotations (wrap : String → List AnnotationEvent → ε) (count offset : Nat) :
    Replay.Shortened ((c.truncated n).readAnnotations wrap count offset)
      (c.readAnnotations wrap count offset) := by
  induction count generalizing offset with
  | zero => exact .refl _
  | succ count ih =>
    exact (Replay.Shortened.lift (c.shortened_utf8At n _)).bind fun _ =>
      ((c.shortened_readAnnotationAt n _).nest _).bind fun _ => ih _

theorem shortened_readAnnotationTable (wrap : AnnotationInfo → ε) (visible : Bool) (offset : Nat) :
    Replay.Shortened ((c.truncated n).readAnnotationTable wrap visible offset)
      (c.readAnnotationTable wrap visible offset) :=
  (Replay.Shortened.lift (shortened_u16At ..)).bind fun _ => c.shortened_readAnnotations n ..

theorem shortened_readAnnotationTables (wrap : AnnotationInfo → ε) (tables : List (Nat × Bool)) :
    Replay.Shortened ((c.truncated n).readAnnotationTables wrap tables)
      (c.readAnnotationTables wrap tables) :=
  (Replay.Shortened.forIn (fun _ _ => (c.shortened_readAnnotationTable n ..).bind fun _ => .refl _)
    _ _).bind fun _ => .refl _

theorem shortened_readParameterTables (tables : List (Nat × Bool)) :
    Replay.Shortened ((c.truncated n).readParameterTables tables)
      (c.readParameterTables tables) := by
  refine (Replay.Shortened.forIn (fun _ _ => ?_) _ _).bind fun _ => .refl _
  refine (Replay.Shortened.lift (shortened_u8At ..)).bind fun count => ?_
  refine (Replay.Shortened.forIn (fun _ _ => ?_) _ _).bind fun _ => .refl _
  exact (c.shortened_readAnnotationTable n ..).bind fun _ => .refl _

end Annotations

theorem shortened_fieldAttribute (info : FieldInfo) (a : AttributeAt) :
    Shortened ((c.truncated n).fieldAttribute info a) (c.fieldAttribute info a) := by
  unfold fieldAttribute
  split
  · exact (shortened_u16At ..).bind fun _ => (c.shortened_readLoadable n _).bind fun _ => .refl _
  · exact (c.shortened_utf8At n _).bind fun _ => .refl _
  · exact .refl _
  · exact .refl _

theorem shortened_fieldEvents (attributes : List AttributeAt) :
    Replay.Shortened ((c.truncated n).fieldEvents attributes) (c.fieldEvents attributes) :=
  (c.shortened_readAnnotationTables n ..).bind fun _ => .refl _

theorem shortened_readField (selection : Selection) (offset : Nat) :
    Replay.Shortened ((c.truncated n).readField selection offset) (c.readField selection offset) := by
  refine (Replay.Shortened.lift (shortened_u16At ..)).bind fun access => ?_
  refine (Replay.Shortened.lift (c.shortened_utf8At n _)).bind fun name => ?_
  refine (Replay.Shortened.lift (c.shortened_utf8At n _)).bind fun descriptor => ?_
  refine (Replay.Shortened.lift (c.shortened_attributesAt n _)).bind fun (attributes, stop) => ?_
  refine (Replay.Shortened.lift (.foldlM (c.shortened_fieldAttribute n) _ _)).bind fun info => ?_
  exact (Replay.Shortened.nest (.ite (c.shortened_fieldEvents n _) (.refl _)) _).bind fun _ => .refl _

theorem shortened_methodAttribute (info : MethodInfo) (a : AttributeAt) :
    Shortened ((c.truncated n).methodAttribute info a) (c.methodAttribute info a) := by
  unfold methodAttribute
  split
  · exact (c.shortened_classesAt n _).bind fun _ => .refl _
  · exact (c.shortened_utf8At n _).bind fun _ => .refl _
  · exact .refl _
  · exact .refl _

theorem shortened_methodEvents (attributes : List AttributeAt) :
    Replay.Shortened ((c.truncated n).methodEvents attributes) (c.methodEvents attributes) := by
  have htables := fun {k k' : Unit → Replay MethodEvent Unit} (hk : ∀ u, Replay.Shortened (k u) (k' u)) =>
    (c.shortened_readAnnotationTables n .annotated (declarationTables attributes)).bind fun _ =>
      (c.shortened_readParameterTables n (parameterTables attributes)).bind hk
  have hcode := fun offset => Replay.Shortened.bind (.refl (Replay.emit MethodEvent.code)) fun _ =>
    (c.shortened_readCode n offset).bind fun _ => .refl (Replay.emit .finish)
  unfold methodEvents
  cases lastNamed "AnnotationDefault" attributes with
  | none =>
    cases lastNamed "Code" attributes with
    | none => exact htables fun _ => .refl _
    | some offset => exact htables fun _ => hcode offset
  | some _ =>
    refine (Replay.Shortened.nest ?_ _).bind fun _ => ?_
    · exact (c.shortened_readValue n _ _).bind fun _ => .refl _
    · cases lastNamed "Code" attributes with
      | none => exact htables fun _ => .refl _
      | some offset => exact htables fun _ => hcode offset

theorem shortened_readMethod (selection : Selection) (offset : Nat) :
    Replay.Shortened ((c.truncated n).readMethod selection offset)
      (c.readMethod selection offset) := by
  refine (Replay.Shortened.lift (shortened_u16At ..)).bind fun access => ?_
  refine (Replay.Shortened.lift (c.shortened_utf8At n _)).bind fun name => ?_
  refine (Replay.Shortened.lift (c.shortened_utf8At n _)).bind fun descriptor => ?_
  refine (Replay.Shortened.lift (c.shortened_attributesAt n _)).bind fun (attributes, stop) => ?_
  refine (Replay.Shortened.lift (.foldlM (c.shortened_methodAttribute n) _ _)).bind fun info => ?_
  exact (Replay.Shortened.nest (.ite (c.shortened_methodEvents n _) (.refl _)) _).bind fun _ => .refl _

/-- An attribute of a class is read where the table says that it stands. -/
theorem shortened_classAttribute (info : ClassInfo) (a : AttributeAt) :
    Shortened ((c.truncated n).classAttribute info a) (c.classAttribute info a) := by
  unfold classAttribute
  split
  · exact (c.shortened_utf8At n _).bind fun _ => .refl _
  · exact (c.shortened_utf8At n _).bind fun _ => .refl _
  · exact (c.shortened_classAt n _).bind fun _ => .refl _
  · exact (c.shortened_classesAt n _).bind fun _ => .refl _
  · exact .refl _
  · exact .refl _

theorem shortened_innerClassAt (row : Nat) :
    Shortened ((c.truncated n).innerClassAt row) (c.innerClassAt row) := by
  refine (c.shortened_someClassAt n _).bind fun name => ?_
  refine (shortened_u16At ..).bind fun index => ?_
  have hrest : ∀ innerName : Option String, Shortened
      (do
        let outer ← (c.truncated n).classAt (row + 2)
        return { name, outer, innerName, access := ← (c.truncated n).bytes.u16At (row + 6) })
      (do
        let outer ← c.classAt (row + 2)
        return ({ name, outer, innerName, access := ← c.bytes.u16At (row + 6) } : InnerClass)) :=
    fun innerName => (c.shortened_classAt n _).bind fun _ => (shortened_u16At ..).bind fun _ => .refl _
  refine .ite (hrest _) ?_
  exact (c.shortened_readUtf8 n _).map.bind hrest

theorem shortened_readInnerClasses (offset : Nat) :
    Replay.Shortened ((c.truncated n).readInnerClasses offset) (c.readInnerClasses offset) := by
  refine (Replay.Shortened.lift (shortened_u16At ..)).bind fun count => ?_
  refine (Replay.Shortened.forIn (fun _ _ => ?_) _ _).bind fun _ => .refl _
  exact (Replay.Shortened.lift (c.shortened_innerClassAt n _)).bind fun _ => .refl _

/-- The members of a class one after the other, when one is read alike in less input. -/
theorem shortened_readMembers {read read' : Nat → Replay ClassEvent Nat}
    (h : ∀ offset, Replay.Shortened (read offset) (read' offset)) (count offset : Nat) :
    Replay.Shortened (readMembers read count offset) (readMembers read' count offset) := by
  induction count generalizing offset with
  | zero => exact .refl _
  | succ count ih => exact (h _).bind fun _ => ih _

theorem shortened_readMemberTable {read read' : Nat → Replay ClassEvent Nat}
    (h : ∀ offset, Replay.Shortened (read offset) (read' offset)) (offset : Nat) :
    Replay.Shortened ((c.truncated n).readMemberTable read offset)
      (c.readMemberTable read' offset) :=
  (Replay.Shortened.lift (shortened_u16At ..)).bind fun _ => shortened_readMembers h _ _

/-- **The events of a class in less input** are the same, unless the input ends. -/
theorem shortened_events (selection : Selection) :
    Replay.Shortened ((c.truncated n).events selection) (c.events selection) := by
  refine (Replay.Shortened.lift (c.shortened_someClassAt n _)).bind fun name => ?_
  refine (Replay.Shortened.lift (shortened_u16At ..)).bind fun access => ?_
  refine (Replay.Shortened.lift (c.shortened_classAt n _)).bind fun superclass => ?_
  refine (Replay.Shortened.lift (c.shortened_classesAt n _)).bind fun interfaces => ?_
  refine (Replay.Shortened.lift (c.shortened_attributesAt n _)).bind fun (attributes, stop) => ?_
  refine (Replay.Shortened.lift (.foldlM (c.shortened_classAttribute n) _ _)).bind fun info => ?_
  have hversion : Shortened (c.truncated n).version c.version :=
    (shortened_u16At ..).bind fun _ => (shortened_u16At ..).bind fun _ => .refl _
  refine (Replay.Shortened.lift hversion).bind fun version => ?_
  refine Replay.Shortened.bind (.refl _) fun _ => ?_
  refine (c.shortened_readAnnotationTables n ..).bind fun _ => ?_
  have hmembers : Replay.Shortened
      (do
        let fields := c.header + 8 + 2 * (← (c.truncated n).bytes.u16At (c.header + 6)).toNat
        let methods ← (c.truncated n).readMemberTable ((c.truncated n).readField selection) fields
        let _ ← (c.truncated n).readMemberTable ((c.truncated n).readMethod selection) methods
        Replay.emit .finish)
      (do
        let fields := c.header + 8 + 2 * (← c.bytes.u16At (c.header + 6)).toNat
        let methods ← c.readMemberTable (c.readField selection) fields
        let _ ← c.readMemberTable (c.readMethod selection) methods
        Replay.emit .finish) :=
    (Replay.Shortened.lift (shortened_u16At ..)).bind fun _ =>
      (c.shortened_readMemberTable n (c.shortened_readField n selection) _).bind fun _ =>
        (c.shortened_readMemberTable n (c.shortened_readMethod n selection) _).bind fun _ => .refl _
  cases lastNamed "InnerClasses" attributes with
  | none => exact hmembers
  | some offset => exact (c.shortened_readInnerClasses n offset).bind fun _ => hmembers

/-! ## 7. Where tables of attributes end -/

variable {c}

theorem attributeAt_le {offset next : Nat} {a : AttributeAt}
    (h : c.attributeAt offset = .ok (a, next)) : next ≤ c.bytes.size := by
  obtain ⟨name, -, h⟩ := bind_eq_ok_iff.1 h
  obtain ⟨length, -, h⟩ := bind_eq_ok_iff.1 h
  obtain ⟨payload, hpayload, h⟩ := bind_eq_ok_iff.1 h
  cases h
  obtain ⟨hat, hsize⟩ := has_of_bytesAt hpayload
  have hle := hat.le_size
  rwa [Array.length_toList, hsize] at hle

/-- **The table of attributes is in the input**, with all that it holds. -/
theorem attributesAt_le {offset stop : Nat} {attributes : List AttributeAt}
    (h : c.attributesAt offset = .ok (attributes, stop)) : stop ≤ c.bytes.size := by
  obtain ⟨count, hcount, h⟩ := bind_eq_ok_iff.1 h
  obtain ⟨⟨found, stop⟩, hall, h⟩ := bind_eq_ok_iff.1 h
  cases h
  have hstart : offset + 2 ≤ c.bytes.size := (has_of_u16At hcount).le_size
  refine iterateM_keeps (P := fun found => found.2 ≤ c.bytes.size) (fun _ found _ hstep => ?_)
    hstart hall
  obtain ⟨⟨a, next⟩, ha, hstep⟩ := bind_eq_ok_iff.1 hstep
  cases hstep
  exact attributeAt_le ha

/-! ## 8. Traces -/

/-- What reading a class file as a whole gives: whether it fails, and the trace up to there. -/
def traced (b : Bytes) : Except Error Unit × Array String :=
  match ofBytes b with
  | .error e => (.error e, #[])
  | .ok c =>
    let (answer, events) := (c.events .all).all
    (answer, Trace.lines events)

/-- The input has ended too early. -/
def EndsEarly (outcome : Except Error Unit × Array String) : Prop :=
  ∃ offset needed, outcome.1 = .error (.unexpectedEof offset needed)

theorem traced_eq {b : Bytes} (h : ofBytes b = .ok c) :
    traced b = ((c.events .all).all.1, Trace.lines (c.events .all).all.2) := by
  unfold traced
  rw [h]

/-- **Less input** reads as the same, unless it ends too early. -/
theorem endsEarly_or_same (b : Bytes) (n : Nat) :
    EndsEarly (traced (b.truncated n)) ∨ traced (b.truncated n) = traced b := by
  obtain ⟨offset, needed, heof⟩ | heq := shortened_ofBytes n b
  · refine .inl ⟨offset, needed, ?_⟩
    unfold traced
    rw [heof]
  · cases hb : ofBytes b with
    | error e =>
      rw [hb] at heq
      refine .inr ?_
      unfold traced
      rw [hb, show ofBytes (b.truncated n) = .error e from heq]
    | ok c =>
      rw [hb] at heq
      rw [traced_eq hb, traced_eq (c := c.truncated n) heq]
      obtain ⟨offset, needed, heof⟩ | hevents := (c.shortened_events n .all).run #[]
      · exact .inl ⟨offset, needed, heof⟩
      · refine .inr ?_
        rw [show ((c.truncated n).events .all).all = (c.events .all).all from hevents]

/-- A class that has been read to its end has read the table of its attributes. -/
theorem attributesAt_of_events (h : (c.events .all).answer = .ok ()) :
    ∃ attributes stop, c.attributesAt c.classAttributes = .ok (attributes, stop) := by
  have hret : Returns (c.events .all) #[] () (c.events .all).events := by
    show (c.events .all).all = _
    rw [← show (c.events .all).all.1 = .ok () from h]
    rfl
  obtain ⟨name, s, -, hret⟩ := returns_bind.1 hret
  obtain ⟨access, s, -, hret⟩ := returns_bind.1 hret
  obtain ⟨superclass, s, -, hret⟩ := returns_bind.1 hret
  obtain ⟨interfaces, s, -, hret⟩ := returns_bind.1 hret
  obtain ⟨⟨attributes, stop⟩, s, hattributes, -⟩ := returns_bind.1 hret
  exact ⟨attributes, stop, (returns_lift.1 hattributes).1⟩

/-- **A class file that ends with the attributes of the class** cannot be read in part. -/
theorem endsEarly_of_exact {b : Bytes} (hn : n < b.size) (hb : ofBytes b = .ok c)
    (hread : (traced b).1 = .ok ()) {attributes : List AttributeAt}
    (hstop : c.attributesAt c.classAttributes = .ok (attributes, b.size)) :
    EndsEarly (traced (b.truncated n)) := by
  obtain heof | hsame := endsEarly_or_same b n
  · exact heof
  -- what is left has been read to its end as well, with the same table of attributes
  cases hleft : ofBytes (b.truncated n) with
  | error e =>
    have hfails : traced (b.truncated n) = (.error e, #[]) := by
      unfold traced
      rw [hleft]
    rw [← hsame, hfails] at hread
    exact nomatch hread
  | ok c' =>
    obtain ⟨offset, needed, heof⟩ | heq := shortened_ofBytes n b
    · exact nomatch heof.symm.trans hleft
    rw [hb] at heq
    obtain rfl : c.truncated n = c' := Except.ok.inj (heq.symm.trans hleft)
    rw [← hsame, traced_eq hleft] at hread
    obtain ⟨attributes', stop, hattributes⟩ := attributesAt_of_events hread
    obtain ⟨offset, needed, heof⟩ | heq := c.shortened_attributesAt n c.classAttributes
    · exact nomatch heof.symm.trans hattributes
    have hle : b.size ≤ (b.truncated n).size := by
      have hbytes : (c.truncated n).bytes = b.truncated n :=
        (located_of_ofBytes hleft).1
      rw [← hbytes]
      exact attributesAt_le (heq.trans hstop)
    have hsize : (b.truncated n).size = min n b.size := by
      unfold Bytes.truncated
      rw [Array.size_extract, Nat.sub_zero]
    omega

/-- **Truncation is detected.**  A class file that has been cut off ends too early for its reader, unless
nothing is missing that the reader looks at.  If a class file that can be read ends with the attributes of
the class, the reader looks at all of it. -/
theorem traced_truncated {b : Bytes} {n : Nat} (hn : n < b.size) :
    (EndsEarly (traced (b.truncated n)) ∨ traced (b.truncated n) = traced b) ∧
      ∀ c attributes, ofBytes b = .ok c → (traced b).1 = .ok () →
        c.attributesAt c.classAttributes = .ok (attributes, b.size) →
        EndsEarly (traced (b.truncated n)) :=
  ⟨endsEarly_or_same b n, fun _ _ hb hread hstop => endsEarly_of_exact n hn hb hread hstop⟩

/-- A class file of nothing but its name. -/
def bareBytes : Bytes :=
  #[0xca, 0xfe, 0xba, 0xbe, 0, 0, 0, 55, 0, 3, 1, 0, 1, 0x54, 7, 0, 1, 0, 0x21, 0, 2, 0, 0, 0, 0, 0, 0,
    0, 0, 0, 0]

/-- The same class file with where things are in it. -/
def bareSource : ClassBytes := ⟨bareBytes, #[0, 10, 14], 17, 29, #[], none⟩

theorem ofBytes_bare : ofBytes bareBytes = .ok bareSource := by
  have hmagic : bareBytes.u32At 0 = .ok magicNumber := by decide +kernel
  have hcount : bareBytes.u16At 8 = .ok 3 := by decide +kernel
  have hrecords : indexRecords bareBytes 3 1 10 (Array.replicate 3 0) =
      .ok (bareSource.itemOffsets, 17) := by decide +kernel
  have hfind : findAttributes bareBytes 17 = .ok 29 := by decide +kernel
  have hattributes : bareBytes.u16At 29 = .ok 0 := by decide +kernel
  exact ofBytes_eq_ok hmagic hcount hrecords hfind hattributes rfl

/-- It cannot be read without its last byte. -/
theorem traced_truncated_bare : (traced bareBytes).1 = .ok () ∧
    EndsEarly (traced (bareBytes.truncated 30)) := by
  have hread : (traced bareBytes).1 = .ok () := by
    rw [traced_eq ofBytes_bare]
    decide +kernel
  exact ⟨hread, (traced_truncated (by decide)).2 bareSource [] ofBytes_bare hread rfl⟩

end ClassBytes

end ClassFile
