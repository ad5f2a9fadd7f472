/-
# Forms of instructions

An instruction without targets is written in one go, in the shortest form that its operands allow.  Whatever
form that is, the bytes are decoded as the instruction, with the same operands, in any class file that has
what the pool has by then (`Decodes`, `Assembler.decodes_encode`).

What is asked of an instruction is that its opcode has the shape of its operands, and that these are in the
range of their encoding (`Instruction.Shaped`).  Writing does not check it.
-/
import ClassFile.Proofs.Code.Switches
import ClassFile.Proofs.ConstantPool.Carried

namespace ClassFile

/-! ## 1. Opcodes and operands that belong together -/

/-- What is true of all 256 bytes is true of an opcode. -/
theorem forall_opcode {P : Opcode → Prop} (h : ∀ n : Fin 256, P (UInt8.ofFin n)) (op : Opcode) : P op :=
  h op.toFin

namespace Opcode

/-- The number is one that the opcode can have as its operand. -/
def Takes (op : Opcode) (operand : Int32) : Prop :=
  match op.shape with
  | .byte => -128 ≤ operand.toInt ∧ operand.toInt ≤ 127
  | .short => -32768 ≤ operand.toInt ∧ operand.toInt ≤ 32767
  | .arrayType => 0 ≤ operand.toInt ∧ operand.toInt ≤ 255
  | _ => False

theorem eq_sipush (op : Opcode) : op.shape = .short → op = sipush := by
  revert op
  exact forall_opcode (by decide +kernel)

/-- What is unpacked from an opcode that names a local itself. -/
def unpacked (op : Opcode) : Opcode × UInt8 :=
  let (first, general) := if op ≤ aload3 then (iload0, iload) else (istore0, istore)
  (general + (op - first) / 4, (op - first) % 4)

/-- **A packed opcode is unpacked** to the opcode and the local that it was packed from. -/
theorem unpacked_packed {op first : Opcode} (hfirst : Assembler.packedForm? op = some first) (k : Fin 4) :
    (first + UInt8.ofNat k).shape = .packedVar ∧
      unpacked (first + UInt8.ofNat k) = (op, UInt8.ofNat k) := by
  -- one boolean for each opcode, so that what it is packed into is not searched for among all bytes
  have hall : ∀ op : Opcode, (Assembler.packedForm? op).all (fun first : Opcode => decide (∀ k : Fin 4,
      (first + UInt8.ofNat k).shape = .packedVar ∧
        unpacked (first + UInt8.ofNat k) = (op, UInt8.ofNat k))) = true :=
    forall_opcode (by decide +kernel)
  have hop := hall op
  rw [hfirst] at hop
  exact of_decide_eq_true hop k

end Opcode

/-- **An instruction of its shape**: the opcode goes with the operands, each operand is in the range of its
encoding, handles are plain, and the targets of a `tableswitch` are as many as its keys. -/
def Instruction.Shaped {τ : Type} : Instruction τ → Prop
  | .simple op => op.shape = .simple
  | .int op operand => op.Takes operand
  | .var op _ => op.shape = .var
  | .type op _ => op.shape = .type
  | .field op .. => op.shape = .field
  | .method op .. => op.shape = .method
  | .invokeDynamic _ _ bootstrap arguments => bootstrap.Plain ∧ Loadable.AllPlain arguments
  | .jump op _ => op.shape = .jump ∨ op.shape = .wideJump
  | .constant value => value.Plain
  | .tableSwitch low high default targets => (tableSwitch low high default targets).CountedSwitch
  | .increment .. | .lookupSwitch .. | .multiArray .. => True

/-! ## 2. Numbers in their range -/

theorem toInt32_toInt8 {v : Int32} (h : -128 ≤ v.toInt ∧ v.toInt ≤ 127) :
    v.toUInt32.toUInt8.toInt8.toInt32 = v := by
  have hcut : v.toUInt32.toUInt8.toInt8 = v.toInt8 := by
    rw [← Int8.toBitVec_inj]
    simp [UInt8.toBitVec_toInt8, UInt32.toBitVec_toUInt8, BitVec.signExtend_eq_setWidth_of_le]
  rw [hcut, ← Int32.toInt_inj, Int8.toInt_toInt32, Int32.toInt_toInt8, Int.bmod_eq_of_le] <;> omega

theorem toInt32_toInt16 {v : Int32} (h : -32768 ≤ v.toInt ∧ v.toInt ≤ 32767) :
    v.toInt16.toInt32 = v := by
  rw [← Int32.toInt_inj, Int16.toInt_toInt32, Int32.toInt_toInt16, Int.bmod_eq_of_le] <;> omega

theorem toInt32_toUInt8 {v : Int32} (h : 0 ≤ v.toInt ∧ v.toInt ≤ 255) :
    v.toUInt32.toUInt8.toUInt32.toInt32 = v := by
  have hsmall : v.toUInt32.toNat < 256 := by
    have hcond := v.toBitVec.toInt_eq_toNat_cond
    have hint : v.toInt = v.toBitVec.toInt := rfl
    have hnat : v.toUInt32.toNat = v.toBitVec.toNat := rfl
    split at hcond <;> omega
  have hback : v.toUInt32.toUInt8.toUInt32 = v.toUInt32 := by
    rw [← UInt32.toNat_inj]
    simp only [UInt8.toNat_toUInt32, UInt32.toNat_toUInt8]
    omega
  rw [hback]
  rfl

theorem toInt16_toInt8 {v : Int16} (h : -128 ≤ v ∧ v ≤ 127) : v.toUInt16.toUInt8.toInt8.toInt16 = v := by
  have hv : -128 ≤ v.toInt ∧ v.toInt ≤ 127 := by
    simpa [Int16.le_iff_toInt_le] using h
  have hcut : v.toUInt16.toUInt8.toInt8 = v.toInt8 := by
    rw [← Int8.toBitVec_inj]
    simp [UInt8.toBitVec_toInt8, UInt16.toBitVec_toUInt8, BitVec.signExtend_eq_setWidth_of_le]
  rw [hcut, ← Int16.toInt_inj, Int8.toInt_toInt16, Int16.toInt_toInt8, Int.bmod_eq_of_le] <;> omega

theorem toUInt16_toUInt8 {v : UInt16} (h : v ≤ 255) : v.toUInt8.toUInt16 = v := by
  have hv := UInt16.le_iff_toNat_le.1 h
  rw [← UInt16.toNat_inj]
  simp only [UInt8.toNat_toUInt16, UInt16.toNat_toUInt8]
  simp at hv
  omega

/-! ## 3. Bytes that are decoded as an instruction -/

namespace ClassBytes

variable {q : ConstantPool} {op : Opcode} {bs : List UInt8} {index : ConstantIndex}

/-- An opcode and the bytes behind it are decoded as an instruction, wherever they stand in the code of a
class file that has what a pool has. -/
def Decodes (q : ConstantPool) (i : Instruction Label) (op : Opcode) (bs : List UInt8) : Prop :=
  ∀ (c : ClassBytes) (span : CodeSpan) (pc : Nat), c.HoldsPool q → q.bootstrap.Numbered →
    c.bytes.Has (span.start + pc) (op :: bs) → pc + 1 + bs.length ≤ span.length →
      ∀ place : Label → Nat, c.decodeInstruction span pc = .ok (i.map place, bs.length)

/-- It is decoded if its operands are. -/
theorem decodes_of_operands {i : Instruction Label}
    (h : ∀ (c : ClassBytes) (span : CodeSpan) (pc : Nat), c.HoldsPool q → q.bootstrap.Numbered →
      c.bytes.Has (span.start + pc + 1) bs → ∀ place : Label → Nat,
        c.decodeOperands span pc op = .ok (i.map place, bs.length)) : Decodes q i op bs := by
  intro c span pc hc hq hat hend place
  refine bind_eq_ok_iff.2 ⟨op, hat.head.u8At, bind_eq_ok_iff.2 ⟨_, h c span pc hc hq hat.tail place, ?_⟩⟩
  dsimp only
  rw [if_neg (Nat.not_lt.2 hend)]
  rfl

theorem decodes_simple (hop : op.shape = .simple) : Decodes q (.simple op) op [] := by
  refine decodes_of_operands fun c span pc _ _ _ place => ?_
  unfold decodeOperands
  rw [hop]
  rfl

/-- A number of one byte, with a sign or without. -/
theorem decodes_byte {operand : Int32} (h : op.Takes operand) (hop : op ≠ Opcode.sipush) :
    Decodes q (.int op operand) op [operand.toUInt32.toUInt8] := by
  refine decodes_of_operands fun c span pc _ _ hat place => ?_
  unfold Opcode.Takes at h
  unfold decodeOperands
  split at h
  case h_1 hshape =>
    rw [hshape]
    refine bind_eq_ok_iff.2 ⟨operand.toUInt32.toUInt8.toInt8, by rw [Bytes.i8At, hat.u8At]; rfl, ?_⟩
    rw [toInt32_toInt8 h]
    rfl
  case h_2 hshape => exact absurd (op.eq_sipush hshape) hop
  case h_3 hshape =>
    rw [hshape]
    refine bind_eq_ok_iff.2 ⟨_, hat.u8At, ?_⟩
    rw [toInt32_toUInt8 h]
    rfl
  case h_4 => exact absurd h id

/-- A number of two bytes. -/
theorem decodes_short {operand : Int32} (h : Opcode.sipush.Takes operand) :
    Decodes q (.int Opcode.sipush operand) Opcode.sipush
      (wordBytes 2 operand.toInt16.toUInt16.toNat) := by
  refine decodes_of_operands fun c span pc _ _ hat place => ?_
  refine bind_eq_ok_iff.2 ⟨_, hat.i16At, ?_⟩
  rw [toInt32_toInt16 h]
  rfl

/-- A local that is a part of the opcode. -/
theorem decodes_packed {first : Opcode} (hfirst : Assembler.packedForm? op = some first) {i : UInt16}
    (hi : i < 4) : Decodes q (.var op i) (first + i.toUInt8) [] := by
  have hsmall : i.toNat < 4 := UInt16.lt_iff_toNat_lt.1 hi
  have hbyte : i.toUInt8 = UInt8.ofNat i.toNat := by
    rw [← UInt8.toNat_inj]
    simp
  obtain ⟨hshape, hunpacked⟩ := Opcode.unpacked_packed hfirst ⟨i.toNat, hsmall⟩
  refine decodes_of_operands fun c span pc _ _ _ place => ?_
  have hvar : unpackVar (first + i.toUInt8) = .var op i.toUInt8.toUInt16 := by
    rw [hbyte]
    have hopcode := congrArg Prod.fst hunpacked
    have hlocal := congrArg Prod.snd hunpacked
    unfold unpackVar
    dsimp only [Opcode.unpacked] at hopcode hlocal ⊢
    rw [hopcode, hlocal]
  unfold decodeOperands
  rw [hbyte, hshape, ← hbyte]
  dsimp only
  rw [hvar, toUInt16_toUInt8]
  · rfl
  · exact UInt16.le_iff_toNat_le.2 (by simp; omega)

/-- A local of one byte. -/
theorem decodes_local (hop : op.shape = .var) {i : UInt16} (hi : i ≤ 255) :
    Decodes q (.var op i) op [i.toUInt8] := by
  refine decodes_of_operands fun c span pc _ _ hat place => ?_
  unfold decodeOperands
  rw [hop]
  refine bind_eq_ok_iff.2 ⟨_, hat.u8At, ?_⟩
  rw [toUInt16_toUInt8 hi]
  rfl

/-- A local of two bytes. -/
theorem decodes_wideLocal (hop : op.shape = .var) (i : UInt16) :
    Decodes q (.var op i) Opcode.wide (op :: wordBytes 2 i.toNat) := by
  refine decodes_of_operands fun c span pc _ _ hat place => ?_
  refine bind_eq_ok_iff.2 ⟨op, hat.head.u8At, ?_⟩
  rw [hop]
  exact bind_eq_ok_iff.2 ⟨_, hat.tail.u16At, rfl⟩

/-- What is added is a number of one byte. -/
theorem decodes_increment {i : UInt16} (hi : i ≤ 255) {amount : Int16}
    (hamount : -128 ≤ amount ∧ amount ≤ 127) :
    Decodes q (.increment i amount) Opcode.iinc [i.toUInt8, amount.toUInt16.toUInt8] := by
  refine decodes_of_operands fun c span pc _ _ hat place => ?_
  refine bind_eq_ok_iff.2 ⟨_, hat.head.u8At, bind_eq_ok_iff.2
    ⟨amount.toUInt16.toUInt8.toInt8, by rw [Bytes.i8At, hat.tail.u8At]; rfl, ?_⟩⟩
  rw [toUInt16_toUInt8 hi, toInt16_toInt8 hamount]
  rfl

theorem decodes_wideIncrement (i : UInt16) (amount : Int16) :
    Decodes q (.increment i amount) Opcode.wide
      (Opcode.iinc :: (wordBytes 2 i.toNat ++ wordBytes 2 amount.toUInt16.toNat)) := by
  refine decodes_of_operands fun c span pc _ _ hat place => ?_
  exact bind_eq_ok_iff.2 ⟨Opcode.iinc, hat.head.u8At, bind_eq_ok_iff.2 ⟨_, hat.tail.left.u16At,
    bind_eq_ok_iff.2 ⟨_, hat.tail.right.i16At, rfl⟩⟩⟩

/-- A constant, whose index is of one byte or of two. -/
theorem decodes_constant {value : Loadable} (hplain : value.Plain) (hi : q.Spells value index) :
    (index ≤ 255 → Decodes q (.constant value) Opcode.ldc [index.toUInt8]) ∧
      ∀ op : Opcode, op.shape = .wideConstant →
        Decodes q (.constant value) op (wordBytes 2 index.toNat) := by
  refine ⟨fun hsmall => decodes_of_operands fun c span pc hc hq hat place => ?_,
    fun op hop => decodes_of_operands fun c span pc hc hq hat place => ?_⟩
  · refine bind_eq_ok_iff.2 ⟨_, hat.u8At, bind_eq_ok_iff.2 ⟨value, ?_, rfl⟩⟩
    rw [toUInt16_toUInt8 hsmall]
    exact hc.readLoadable hq hi hplain
  · unfold decodeOperands
    rw [hop]
    exact bind_eq_ok_iff.2 ⟨_, hat.u16At, bind_eq_ok_iff.2 ⟨value, hc.readLoadable hq hi hplain, rfl⟩⟩

theorem decodes_type (hop : op.shape = .type) {name : String} (hi : q.Names .classRef index name) :
    Decodes q (.type op name) op (wordBytes 2 index.toNat) := by
  refine decodes_of_operands fun c span pc hc _ hat place => ?_
  unfold decodeOperands
  rw [hop]
  exact bind_eq_ok_iff.2 ⟨_, hat.u16At, bind_eq_ok_iff.2 ⟨name, hc.readClass hi, rfl⟩⟩

theorem decodes_multiArray {descriptor : String} (hi : q.Names .classRef index descriptor)
    (dimensions : UInt8) : Decodes q (.multiArray descriptor dimensions) Opcode.multianewarray
      (wordBytes 2 index.toNat ++ [dimensions]) := by
  refine decodes_of_operands fun c span pc hc _ hat place => ?_
  exact bind_eq_ok_iff.2 ⟨_, hat.left.u16At, bind_eq_ok_iff.2 ⟨descriptor, hc.readClass hi,
    bind_eq_ok_iff.2 ⟨dimensions, hat.right.u8At, rfl⟩⟩⟩

theorem decodes_field (hop : op.shape = .field) {owner name descriptor : String}
    (hi : q.IsField index owner name descriptor) :
    Decodes q (.field op owner name descriptor) op (wordBytes 2 index.toNat) := by
  refine decodes_of_operands fun c span pc hc _ hat place => ?_
  unfold decodeOperands
  rw [hop]
  exact bind_eq_ok_iff.2 ⟨_, hat.u16At, bind_eq_ok_iff.2 ⟨_, hc.readMember_of_field hi, rfl⟩⟩

/-- A call of a method of an interface has two bytes more, which are not looked at. -/
theorem decodes_method (hop : op.shape = .method) {owner name descriptor : String} {interface : Bool}
    (hi : q.IsMethod index owner name descriptor interface) {more : List UInt8}
    (hmore : more.length = if op = Opcode.invokeinterface then 2 else 0) :
    Decodes q (.method op owner name descriptor interface) op (wordBytes 2 index.toNat ++ more) := by
  refine decodes_of_operands fun c span pc hc _ hat place => ?_
  unfold decodeOperands
  rw [hop]
  refine bind_eq_ok_iff.2 ⟨_, hat.left.u16At, bind_eq_ok_iff.2 ⟨_, hc.readMember_of_method hi, ?_⟩⟩
  rw [List.length_append, length_wordBytes, hmore]
  split <;> rfl

theorem decodes_invokeDynamic {name descriptor : String} {bootstrap : MethodHandle}
    {arguments : List Loadable} (hplain : bootstrap.Plain ∧ Loadable.AllPlain arguments) {k : UInt16}
    (hk : q.Bootstraps k bootstrap arguments)
    (hi : ∃ m, q.get? index = some (.invokeDynamic k m) ∧ q.IsNameAndType m name descriptor) :
    Decodes q (.invokeDynamic name descriptor bootstrap arguments) Opcode.invokedynamic
      (wordBytes 2 index.toNat ++ wordBytes 2 0) := by
  refine decodes_of_operands fun c span pc hc hq hat place => ?_
  exact bind_eq_ok_iff.2 ⟨_, hat.left.u16At, bind_eq_ok_iff.2 ⟨_, hc.readInvokeDynamic hi,
    bind_eq_ok_iff.2 ⟨_, hc.readBootstrap hq hk hplain.1 hplain.2, rfl⟩⟩⟩

end ClassBytes

/-! ## 4. Writing them -/

namespace Assembler

open ConstantPool (Stays)

variable {h : Hierarchy} {a a' : Assembler} {p p' : ConstantPool} {i : Instruction Label} {around : Bool}

/-- Bytes have been put behind the code, which are decoded as an instruction in any class file that has
what a pool carries. -/
def Spelled (a a' : Assembler) (i : Instruction Label) (p : ConstantPool) : Prop :=
  ∃ f op bs, a' = a.put f ∧ (f a.code).toList = a.code.toList ++ op :: bs ∧
    ∀ q, p.Carried q → ClassBytes.Decodes q i op bs

theorem returns_append {f : Bytes → Bytes}
    (hret : Returns ((do append f; return false : AssembleM Bool) a) p (around, a') p') :
    a' = a.put f ∧ p' = p := by
  obtain ⟨u, a₁, p₁, happend, hret⟩ := returns_bind_above.1 hret
  obtain ⟨rfl, rfl⟩ := returns_modify_above.1 happend
  obtain ⟨-, rfl, rfl⟩ := returns_pure_above.1 hret
  exact ⟨rfl, rfl⟩

/-- An answer of the pool has been put behind the code, with what belongs to it. -/
theorem returns_constant {α : Type} {m : PoolM α} {D : α → ConstantPool → Prop} (hm : Stays h m D)
    (hp : p.Ordered h) {f : α → Bytes → Bytes}
    (hret : Returns ((do
      let x ← m
      append (f x)
      return false : AssembleM Bool) a) p (around, a') p') :
    ∃ x, a' = a.put (f x) ∧ ∀ q, p'.Carried q → D x q := by
  obtain ⟨x, a₁, p₁, hlift, hret⟩ := returns_bind_above.1 hret
  obtain ⟨hx, rfl⟩ := returns_lift_above.1 hlift
  obtain ⟨rfl, rfl⟩ := returns_append hret
  exact ⟨x, rfl, (hm _ _ _ hx hp).2.2⟩

theorem spelled_number {op : Opcode} {operand : Int32} (hop : op.Takes operand) :
    Spelled a (a.put (putNumber op operand)) (.int op operand) p := by
  by_cases hshort : op = Opcode.sipush
  · subst hshort
    refine ⟨_, _, _, rfl, ?_, fun q _ => ClassBytes.decodes_short hop⟩
    simp [putNumber, Bytes.putI16]
  · refine ⟨_, _, _, rfl, ?_, fun q _ => ClassBytes.decodes_byte hop hshort⟩
    simp [putNumber, hshort, Bytes.put11]

theorem spelled_local {op : Opcode} (hop : op.shape = .var) (index : UInt16) :
    Spelled a (a.put (putLocal op index)) (.var op index) p := by
  unfold putLocal
  split
  case h_1 packed hpacked hsmall =>
    refine ⟨_, _, _, rfl, ?_, fun q _ => ClassBytes.decodes_packed hpacked (of_decide_eq_true hsmall)⟩
    simp
  case h_2 =>
    by_cases hwide : 255 < index
    · refine ⟨_, _, _, rfl, ?_, fun q _ => ClassBytes.decodes_wideLocal hop index⟩
      simp [hwide]
    · refine ⟨_, _, _, rfl, ?_, fun q _ => ClassBytes.decodes_local hop (UInt16.not_lt.1 hwide)⟩
      simp [hwide, Bytes.put11]

theorem spelled_increment (index : UInt16) (amount : Int16) :
    Spelled a (a.put (putIncrement index amount)) (.increment index amount) p := by
  by_cases hshort : index ≤ 255 ∧ -128 ≤ amount ∧ amount ≤ 127
  · refine ⟨_, _, _, rfl, ?_, fun q _ => ClassBytes.decodes_increment hshort.1 hshort.2⟩
    simp [putIncrement, hshort, Bytes.put11]
  · refine ⟨_, _, _, rfl, ?_, fun q _ => ClassBytes.decodes_wideIncrement index amount⟩
    simp [putIncrement, hshort, Bytes.put11, Bytes.putI16]

theorem spelled_constant {value : Loadable} (hplain : value.Plain) {index : ConstantIndex}
    (hi : ∀ q, p.Carried q → q.Spells value index) :
    Spelled a (a.put (putConstant value.isWide index)) (.constant value) p := by
  unfold putConstant
  split
  · refine ⟨_, _, _, rfl, ?_, fun q hq => (ClassBytes.decodes_constant hplain (hi q hq)).2 Opcode.ldc2W rfl⟩
    simp [Bytes.put12]
  · by_cases hsmall : index ≤ 255
    · refine ⟨_, _, _, rfl, ?_, fun q hq => (ClassBytes.decodes_constant hplain (hi q hq)).1 hsmall⟩
      simp [hsmall, Bytes.put11]
    · refine ⟨_, _, _, rfl, ?_, fun q hq => (ClassBytes.decodes_constant hplain (hi q hq)).2 Opcode.ldcW rfl⟩
      simp [hsmall, Bytes.put12]

/-- A call, with the number of its arguments if it is one of an interface. -/
theorem spelled_call {op : Opcode} {owner name descriptor : String} {interface : Bool}
    (hop : op.shape = .method) (hp : p.Ordered h) {u : Unit}
    (hret : Returns (encodeCall op owner name descriptor interface a) p (u, a') p') :
    Spelled a a' (.method op owner name descriptor interface) p' := by
  obtain ⟨index, a₁, p₁, hlift, hret⟩ := returns_bind_above.1 hret
  obtain ⟨hindex, rfl⟩ := returns_lift_above.1 hlift
  have hmethod := (ConstantPool.stays_methodRef owner name descriptor interface _ _ _ hindex hp).2.2
  obtain ⟨v, a₂, p₂, happend, hret⟩ := returns_bind_above.1 hret
  obtain ⟨rfl, rfl⟩ := returns_modify_above.1 happend
  split at hret
  · rename_i hinterface
    obtain ⟨slots, a₃, p₃, hcounted, hret⟩ := returns_bind_above.1 hret
    obtain ⟨hslots, rfl⟩ := returns_lift_above.1 hcounted
    obtain ⟨-, rfl⟩ := (returns_lift (e := Descriptor.methodSlots descriptor)).1 hslots
    obtain ⟨rfl, rfl⟩ := returns_modify_above.1 hret
    refine ⟨fun b => (b.put12 op index).put11 (UInt8.ofNat slots.1) 0, op,
      wordBytes 2 index.toNat ++ [UInt8.ofNat slots.1, 0], rfl, ?_,
      fun q hq => ClassBytes.decodes_method hop (hmethod q hq) (by rw [if_pos hinterface]; rfl)⟩
    simp [Bytes.put11, Bytes.put12]
  · rename_i hinterface
    obtain ⟨-, rfl, rfl⟩ := returns_pure_above.1 hret
    refine ⟨_, op, wordBytes 2 index.toNat ++ [], rfl, ?_,
      fun q hq => ClassBytes.decodes_method hop (hmethod q hq) (by rw [if_neg hinterface]; rfl)⟩
    simp [Bytes.put12]

/-- **An instruction without targets is written as bytes that are decoded as it.** -/
theorem spelled_encode (hp : p.Ordered h) (hi : i.Shaped) (htargets : i.targets = [])
    (hret : Returns (encode i a) p (around, a') p') : Spelled a a' i p' := by
  cases i with
  | simple op =>
    obtain ⟨rfl, -⟩ := returns_append hret
    exact ⟨_, op, [], rfl, Bytes.toList_putU8 _ op, fun q _ => ClassBytes.decodes_simple hi⟩
  | int op operand =>
    obtain ⟨rfl, -⟩ := returns_append hret
    exact spelled_number hi
  | var op index =>
    obtain ⟨rfl, -⟩ := returns_append hret
    exact spelled_local hi index
  | type op name =>
    obtain ⟨index, rfl, hindex⟩ := returns_constant (ConstantPool.stays_classRef name) hp hret
    refine ⟨_, op, wordBytes 2 index.toNat, rfl, ?_, fun q hq => ClassBytes.decodes_type hi (hindex q hq)⟩
    simp [Bytes.put12]
  | field op owner name descriptor =>
    obtain ⟨index, rfl, hindex⟩ :=
      returns_constant (ConstantPool.stays_fieldRef owner name descriptor) hp hret
    refine ⟨_, op, wordBytes 2 index.toNat, rfl, ?_, fun q hq => ClassBytes.decodes_field hi (hindex q hq)⟩
    simp [Bytes.put12]
  | method op owner name descriptor interface =>
    obtain ⟨u, a₁, p₁, hcall, hret⟩ := returns_bind_above.1 hret
    obtain ⟨-, rfl, rfl⟩ := returns_pure_above.1 hret
    exact spelled_call hi hp hcall
  | invokeDynamic name descriptor bootstrap arguments =>
    obtain ⟨entry, a₁, p₁, hlift, hret⟩ := returns_bind_above.1 hret
    obtain ⟨hentry, rfl⟩ := returns_lift_above.1 hlift
    obtain ⟨hp₁, -, hboots⟩ := ConstantPool.stays_bootstrapMethod bootstrap arguments _ _ _ hentry hp
    have hcalled := ConstantPool.stays_withBootstrap (h := h) .invokeDynamic name descriptor entry
    obtain ⟨index, a₂, p₂, hlift, hret⟩ := returns_bind_above.1 hret
    obtain ⟨hindex, rfl⟩ := returns_lift_above.1 hlift
    obtain ⟨-, hcarried, hindex⟩ := hcalled _ _ _ hindex hp₁
    obtain ⟨rfl, rfl⟩ := returns_append hret
    refine ⟨_, Opcode.invokedynamic, wordBytes 2 index.toNat ++ wordBytes 2 0, rfl, ?_, fun q hq =>
      ClassBytes.decodes_invokeDynamic hi (hboots q (hcarried.trans hq)) (hindex q hq)⟩
    simp [Bytes.put12]
  | jump => exact nomatch htargets
  | constant value =>
    obtain ⟨index, rfl, hindex⟩ := returns_constant (ConstantPool.stays_loadable value) hp hret
    exact spelled_constant hi hindex
  | increment index amount =>
    obtain ⟨rfl, -⟩ := returns_append hret
    exact spelled_increment index amount
  | tableSwitch => exact nomatch htargets
  | lookupSwitch => exact nomatch htargets
  | multiArray descriptor dimensions =>
    obtain ⟨index, rfl, hindex⟩ := returns_constant (ConstantPool.stays_classRef descriptor) hp hret
    refine ⟨_, Opcode.multianewarray, wordBytes 2 index.toNat ++ [dimensions], rfl, ?_,
      fun q hq => ClassBytes.decodes_multiArray (hindex q hq) dimensions⟩
    simp [Bytes.put12]

end Assembler

end ClassFile
