/-
# Instructions read back

The instructions of a method that has been written are decoded in the order in which they came in, with the
same operands, and each target is the offset at which its label was placed (`Transcript`).  Two things come
back changed (`ComesBack`).  A jump that asked for its long form says no more that it did.  And a conditional
jump that was too far behind its target comes back as two: the opposite one, which leads behind the other,
and a `goto`.

An instruction without targets is decoded because of its bytes (`Assembler.spelled_encode`), a jump or a
switch because of what it says itself and of its operands, which are right once the method has ended
(`Laying.held`).  So each instruction is decoded where it was written, and what comes next is where the next
one was written (`comesBack_encode`); going back from the end of the code, all of them are
(`transcript_events`).
-/
import ClassFile.Proofs.Additive
import ClassFile.Proofs.Code.Forms

namespace ClassFile

/-! ## 1. What instructions are read back as -/

section Transcript

variable (place : Label → Nat)

/-- What an instruction is read back as, from its offset up to that of what is behind it. -/
inductive ComesBack : Instruction Label → Nat → Nat → List (Nat × Instruction Nat) → Prop
  /-- One instruction, with the places of its labels. -/
  | one {i : Instruction Label} {pc next : Nat} (hlt : pc < next) :
    ComesBack i pc next [(pc, (CodeWriter.reported i).map place)]
  /-- The opposite jump, around a long one.  The target is too far back for a conditional jump. -/
  | around {op : Opcode} {goal : Label} {pc : Nat} (hop : op ≠ Opcode.goto ∧ op ≠ Opcode.jsr)
      (hfar : place goal + 32768 < pc) :
    ComesBack (.jump op goal) pc (pc + 8)
      [(pc, .jump (Assembler.opposite op) (pc + 8)), (pc + 3, .jump Opcode.goto (place goal))]

/-- **What events are read back as**, from an offset up to the end of the code: each label is where it was
placed, and instructions follow one another. -/
inductive Transcript : Nat → List MethodEvent → List (Nat × Instruction Nat) → Nat → Prop
  | done (stop : Nat) : Transcript stop [] [] stop
  | label {l : Label} {pc stop : Nat} {es : List MethodEvent} {is : List (Nat × Instruction Nat)}
      (hl : place l = pc) (hrest : Transcript pc es is stop) : Transcript pc (.label l :: es) is stop
  | instruction {i : Instruction Label} {pc next stop : Nat} {es : List MethodEvent}
      {chunk is : List (Nat × Instruction Nat)} (hi : ComesBack place i pc next chunk)
      (hrest : Transcript next es is stop) : Transcript pc (.instruction i :: es) (chunk ++ is) stop
  /-- Other events have no part in the instructions. -/
  | other {e : MethodEvent} {pc stop : Nat} {es : List MethodEvent} {is : List (Nat × Instruction Nat)}
      (hi : ∀ i, e ≠ .instruction i) (hl : ∀ l, e ≠ .label l) (hrest : Transcript pc es is stop) :
    Transcript pc (e :: es) is stop

end Transcript

/-! ## 2. Jumps -/

namespace Opcode

theorem shape_shortForm (op : Opcode) :
    op.shape = .jump ∨ op.shape = .wideJump → (Assembler.shortForm op).1.shape = .jump := by
  revert op
  exact forall_opcode (by decide +kernel)

theorem shape_opposite (op : Opcode) : op.shape = .jump → op ≠ goto ∧ op ≠ jsr →
    (Assembler.opposite op).shape = .jump := by
  revert op
  exact forall_opcode (by decide +kernel)

/-- The opcode of a jump with an operand of this size. -/
def jumpForm (op : Opcode) (isLong : Bool) : Opcode := if isLong then Assembler.longForm op else op

end Opcode

namespace Assembler

variable {a : Assembler}

/-- A jump that becomes one instruction: its opcode, and an operand behind it. -/
structure Jumps (a a' : Assembler) (op : Opcode) (goal : Label) (r : Reference) : Prop where
  operands : a.operands (.jump op goal) = [(goal, r)]
  source : r.source = a.code.size
  operand : r.operand = a.code.size + 1
  long : r.isLong = true → (shortForm op).1 = Opcode.goto ∨ (shortForm op).1 = Opcode.jsr
  fixed : a'.Fixed a.code.size [Opcode.jumpForm (shortForm op).1 r.isLong]
  size : a'.code.size = r.stop

/-- A jump that becomes two: the opposite one leads behind the second one. -/
structure JumpsAround (a a' : Assembler) (op : Opcode) (goal : Label) (place : Nat) : Prop where
  operands : a.operands (.jump op goal) = [(goal, ⟨a.code.size + 3, a.code.size + 4, true⟩)]
  placed : a.place? goal = some place
  short : shortForm op = (op, false)
  conditional : op ≠ Opcode.goto ∧ op ≠ Opcode.jsr
  far : isShort ((place : Int) - a.code.size) = false
  fixed : a'.Fixed a.code.size [opposite op, 0, 8, Opcode.gotoW]
  size : a'.code.size = a.code.size + 8

theorem goto_or_jsr_of_long {op : Opcode} (h : (shortForm op).2 = true) :
    (shortForm op).1 = Opcode.goto ∨ (shortForm op).1 = Opcode.jsr := by
  unfold shortForm at h ⊢
  split
  · exact .inl rfl
  · split
    · exact .inr rfl
    · simp_all

theorem shortForm_eq {op : Opcode} (h : (shortForm op).2 = false) : shortForm op = (op, false) := by
  obtain ⟨hgoto, hjsr⟩ := shortForm_snd_iff.1 h
  unfold shortForm
  rw [if_neg hgoto, if_neg hjsr]

theorem Fixed.left {offset : Nat} {bs bs' : List UInt8} (h : a.Fixed offset (bs ++ bs')) :
    a.Fixed offset bs where
  has := h.has.left
  apart l r hr := (h.apart l r hr).imp_right fun hle => by
    rw [List.length_append] at hle
    omega

/-- A jump whose operand waits for its label. -/
theorem jumps_waiting (h : a.Roomy) (op : Opcode) {goal : Label} (hplace : a.place? goal = none) :
    Jumps a ((a.put fun b => b.putU8 (Opcode.jumpForm (shortForm op).1 (shortForm op).2)).wait goal
      a.code.size (shortForm op).2) op goal ⟨a.code.size, a.code.size + 1, (shortForm op).2⟩ where
  operands := operands_jump_waiting hplace
  source := rfl
  operand := rfl
  long := goto_or_jsr_of_long
  fixed :=
    have hwrites := writes_wait (a := a.put fun b => b.putU8 _) hplace a.code.size (shortForm op).2
    (fixed_put h (Bytes.toList_putU8 _ _)).writes hwrites
  size := by rw [size_wait, size_put, Bytes.size_putU8, Reference.stop]

theorem operands_jump_placed (op : Opcode) {goal : Label} {place : Nat}
    (hplace : a.place? goal = some place) : a.operands (.jump op goal) =
      if isShort ((place : Int) - a.code.size) && !(shortForm op).2 then
        [(goal, ⟨a.code.size, a.code.size + 1, false⟩)]
      else if (shortForm op).1 = Opcode.goto ∨ (shortForm op).1 = Opcode.jsr then
        [(goal, ⟨a.code.size, a.code.size + 1, true⟩)]
      else [(goal, ⟨a.code.size + 3, a.code.size + 4, true⟩)] := by
  unfold operands
  dsimp only
  rw [hplace]

/-- **A jump is written** as one instruction or as two. -/
theorem jumps_putJump (h : a.Roomy) (op : Opcode) (goal : Label) :
    (∃ r, Jumps a (putJump op goal a).2 op goal r) ∨
      ∃ place, JumpsAround a (putJump op goal a).2 op goal place := by
  cases hplace : a.place? goal with
  | none =>
    have hwaiting := jumps_waiting h op hplace
    refine .inl ⟨⟨a.code.size, a.code.size + 1, (shortForm op).2⟩, ?_⟩
    unfold putJump
    dsimp only
    rw [hplace]
    dsimp only
    generalize hlong : (shortForm op).2 = isLong at hwaiting ⊢
    cases isLong with
    | true => exact hwaiting
    | false => exact hwaiting
  | some place =>
    have hoperands := operands_jump_placed op hplace
    have hput : ∀ (around : Bool) (bs' : List UInt8) {f : Bytes → Bytes} {bs : List UInt8},
        (f a.code).toList = a.code.toList ++ (bs ++ bs') →
          (around, a.put f).2.Fixed a.code.size bs := fun _ _ _ _ hf => (fixed_put h hf).left
    unfold putJump
    dsimp only
    rw [hplace]
    dsimp only
    split
    · rename_i hshort
      rw [if_pos hshort] at hoperands
      refine .inl ⟨_, hoperands, rfl, rfl, (nomatch ·), ?_, ?_⟩
      · refine hput false (wordBytes 2 (Int16.ofInt ((place : Int) - a.code.size)).toUInt16.toNat) ?_
        rw [Bytes.putI16, Bytes.toList_putU16, Bytes.toList_putU8, List.append_assoc]
        rfl
      · rw [size_put, Bytes.size_putI16, Bytes.size_putU8]
        rfl
    · rename_i hshort
      rw [if_neg hshort] at hoperands
      split
      · rename_i hlong
        rw [if_pos hlong] at hoperands
        refine .inl ⟨_, hoperands, rfl, rfl, fun _ => hlong, ?_, ?_⟩
        · refine hput false (wordBytes 4 (Int32.ofInt ((place : Int) - a.code.size)).toUInt32.toNat) ?_
          rw [Bytes.putI32, Bytes.toList_putU32, Bytes.toList_putU8, List.append_assoc]
          rfl
        · rw [size_put, Bytes.size_putI32, Bytes.size_putU8]
          rfl
      · rename_i hlong
        rw [if_neg hlong] at hoperands
        have hform : shortForm op = (op, false) := by
          refine shortForm_eq ?_
          cases hform : (shortForm op).2 with
          | false => rfl
          | true => exact absurd (goto_or_jsr_of_long hform) hlong
        rw [hform] at hshort hlong ⊢
        refine .inr ⟨place, hoperands, hplace, hform, not_or.1 hlong, ?_, ?_, ?_⟩
        · simpa using hshort
        · refine hput true (wordBytes 4 (Int32.ofInt ((place : Int) - a.code.size - 3)).toUInt32.toNat) ?_
          simp only [Bytes.putI32, Bytes.toList_putU32, Bytes.toList_putU8, Bytes.putI16,
            Bytes.toList_putU16, List.append_assoc]
          rfl
        · rw [size_put, Bytes.size_putI32, Bytes.size_putU8, Bytes.size_putI16, Bytes.size_putU8]

end Assembler

/-! ## 3. Decoding them -/

namespace ClassBytes

variable {b : ClassBytes} {span : CodeSpan} {a : Assembler} {pc k : Nat} {op : Opcode} {r : Reference}

/-- The code stands in a class file that has what a pool has. -/
structure HoldsCode (b : ClassBytes) (q : ConstantPool) (span : CodeSpan) (code : Bytes) : Prop where
  pool : b.HoldsPool q
  numbered : q.bootstrap.Numbered
  has : b.bytes.Has span.start code.toList
  length : code.size = span.length
  small : span.length ≤ 65535

/-- A short operand that holds the distance to its label is decoded as the place of the label. -/
theorem target_of_holds (hcode : b.bytes.Has span.start a.code.toList) (hshort : r.isLong = false)
    (hsource : r.source = pc) (hholds : r.Holds k a.code) (hk : k ≤ span.length) :
    (do target span pc (← b.bytes.i16At (span.start + r.operand)).toInt) = .ok k := by
  obtain ⟨hfits, hhas⟩ := hholds
  unfold Reference.bytes at hhas
  rw [hshort, if_neg Bool.false_ne_true] at hhas
  have hrange := Reference.isShort_iff.1 (hfits.resolve_left (by rw [hshort]; exact Bool.false_ne_true))
  have hdistance : (Int16.ofInt (r.distance k)).toInt = r.distance k := by
    rw [Int16.toInt_ofInt_of_le]
    · omega
    · omega
  have hplace : (pc : Int) + r.distance k = k := by
    unfold Reference.distance
    omega
  refine bind_eq_ok_iff.2 ⟨_, (hcode.within hhas).i16At, ?_⟩
  rw [hdistance, target, hplace, if_pos ⟨by omega, by omega⟩, Int.toNat_natCast]

/-- **A jump is decoded where it stands**, with the place of its label. -/
theorem decodeInstruction_of_jump (hcode : b.bytes.Has span.start a.code.toList)
    (hsmall : span.length ≤ 65535) (hop : op.shape = .jump) (hsource : r.source = pc)
    (hoperand : r.operand = pc + 1) (hlong : r.isLong = true → op = Opcode.goto ∨ op = Opcode.jsr)
    (hfirst : a.code.Has pc [Opcode.jumpForm op r.isLong]) (hholds : r.Holds k a.code)
    (hk : k ≤ span.length) (hend : r.stop ≤ span.length) :
    b.decodeInstruction span pc = .ok (.jump op k, r.stop - (pc + 1)) := by
  have hstop : r.stop = pc + 1 + (r.stop - (pc + 1)) := by
    have := r.operand_lt_stop
    omega
  have hoffset : span.start + pc + 1 = span.start + r.operand := by omega
  refine bind_eq_ok_iff.2 ⟨_, (hcode.within hfirst).u8At, bind_eq_ok_iff.2
    ⟨(.jump op k, r.stop - (pc + 1)), ?_, ?_⟩⟩
  · unfold decodeOperands
    dsimp only
    cases hr : r.isLong with
    | false =>
      have htarget := target_of_holds hcode hr hsource hholds hk
      obtain ⟨v, hv, hplace⟩ := bind_eq_ok_iff.1 htarget
      have hsize : r.stop - (pc + 1) = 2 := by
        unfold Reference.stop
        rw [hr, if_neg Bool.false_ne_true]
        omega
      rw [show Opcode.jumpForm op false = op from rfl, hop, hoffset, hsize]
      exact bind_eq_ok_iff.2 ⟨v, hv, bind_eq_ok_iff.2 ⟨k, hplace, rfl⟩⟩
    | true =>
      have htarget : b.targetAt span pc (span.start + pc + 1) = .ok k :=
        targetAt_of_holds hcode hsmall (by omega) hr hsource hholds hk hoffset
      have hsize : r.stop - (pc + 1) = 4 := by
        unfold Reference.stop
        rw [hr, if_pos rfl]
        omega
      rw [hsize]
      rcases hlong hr with rfl | rfl <;> exact bind_eq_ok_iff.2 ⟨k, htarget, rfl⟩
  · dsimp only
    rw [← hstop, if_neg (Nat.not_lt.2 hend)]
    rfl

/-- The jump around a long one leads behind that. -/
theorem decodeInstruction_of_around (hcode : b.bytes.Has span.start a.code.toList)
    (hop : op.shape = .jump) (hfirst : a.code.Has pc [op, 0, 8]) (hend : pc + 8 ≤ span.length) :
    b.decodeInstruction span pc = .ok (.jump op (pc + 8), 2) := by
  have hbytes := hcode.within hfirst
  refine bind_eq_ok_iff.2 ⟨op, hbytes.head.u8At, bind_eq_ok_iff.2 ⟨(.jump op (pc + 8), 2), ?_, ?_⟩⟩
  · unfold decodeOperands
    dsimp only
    rw [hop]
    refine bind_eq_ok_iff.2 ⟨8, Bytes.Has.i16At (v := 8) hbytes.tail,
      bind_eq_ok_iff.2 ⟨pc + 8, ?_, rfl⟩⟩
    rw [target, show (8 : Int16).toInt = 8 from rfl, if_pos ⟨by omega, by omega⟩]
    exact congrArg Except.ok (by omega)
  · dsimp only
    rw [if_neg (by omega)]
    rfl

/-- An instruction, and those behind it. -/
theorem decodeFrom_cons {i : Instruction Nat} {n next : Nat} {is : List (Nat × Instruction Nat)}
    (hi : b.decodeInstruction span pc = .ok (i, n)) (hnext : next = pc + 1 + n)
    (hrest : b.decodeFrom span next = .ok is) : b.decodeFrom span pc = .ok ((pc, i) :: is) := by
  have hend := ((b.reading_decodeInstruction span pc).answer _ hi).2
  unfold decodeFrom
  rw [if_pos (by dsimp only at hend; omega)]
  exact bind_eq_ok_iff.2 ⟨_, hi, bind_eq_ok_iff.2 ⟨is, hnext ▸ hrest, rfl⟩⟩

end ClassBytes

/-! ## 4. Instructions of a method -/

/-- From one offset on, these instructions are decoded up to another one, in any class file that holds the code
and has what a pool carries. -/
def ReadsUpTo (p : ConstantPool) (code : Bytes) (pc next : Nat) (chunk : List (Nat × Instruction Nat)) :
    Prop :=
  ∀ q, p.Carried q → ∀ (b : ClassBytes) (span : CodeSpan), b.HoldsCode q span code →
    ∀ is, b.decodeFrom span next = .ok is → b.decodeFrom span pc = .ok (chunk ++ is)

namespace Assembler

variable {h : Hierarchy} {a a' last : Assembler} {p p' : ConstantPool} {i : Instruction Label}
  {around : Bool} {place : Label → Nat}

/-- An instruction without targets is decoded because of its bytes. -/
theorem comesBack_of_spelled (ha : a.Roomy) (hkeeps : a'.Keeps last) (htargets : i.targets = [])
    (hi : Spelled a a' i p') : ∃ chunk, ComesBack place i a.code.size a'.code.size chunk ∧
      ReadsUpTo p' last.code a.code.size a'.code.size chunk := by
  obtain ⟨f, op, bs, rfl, hbytes, hdecodes⟩ := hi
  have hsize : (a.put f).code.size = a.code.size + 1 + bs.length := by
    rw [size_put, ← Array.length_toList, hbytes, List.length_append, Array.length_toList, List.length_cons]
    omega
  have hreported : CodeWriter.reported i = i := by
    cases i
    case jump => exact nomatch htargets
    all_goals rfl
  refine ⟨_, .one (by omega), fun q hq b span hb is his => ?_⟩
  have hstands := (hkeeps _ _ (fixed_put ha hbytes)).has
  have hend := hstands.le_size
  rw [List.length_cons, hb.length] at hend
  have hi := hdecodes q hq b span a.code.size hb.pool hb.numbered (hb.has.within hstands) (by omega) place
  rw [hreported]
  exact ClassBytes.decodeFrom_cons hi hsize his

/-- A jump comes back as a jump to the place of its label, or as two. -/
theorem comesBack_putJump (ha : a.Roomy) {op : Opcode} {goal : Label}
    (hop : op.shape = .jump ∨ op.shape = .wideJump) (hkeeps : (putJump op goal a).2.Keeps last)
    (hplace : ∀ l k, a.place? l = some k → place l = k)
    (hheld : ClassBytes.Held last last.code.size place (a.operands (.jump op goal)))
    (hreached : ∀ l k, a.place? l = some k → k ≤ a.code.size)
    (hend : (putJump op goal a).2.code.size ≤ last.code.size) :
    ∃ chunk, ComesBack place (.jump op goal) a.code.size (putJump op goal a).2.code.size chunk ∧
      ReadsUpTo p' last.code a.code.size (putJump op goal a).2.code.size chunk := by
  rcases jumps_putJump ha op goal with ⟨r, hjump⟩ | ⟨k, hjump⟩
  · have hstop := r.operand_lt_stop
    have hoperand := hjump.operand
    have hsize := hjump.size
    refine ⟨_, .one (by omega), fun q _ b span hb is his => ?_⟩
    obtain ⟨hholds, hk⟩ := hheld (goal, r) (hjump.operands ▸ List.mem_singleton.2 rfl)
    rw [hb.length] at hend hk
    have hi := ClassBytes.decodeInstruction_of_jump hb.has hb.small (op.shape_shortForm hop) hjump.source
      hjump.operand hjump.long (hkeeps _ _ hjump.fixed).has hholds hk (hsize ▸ hend)
    exact ClassBytes.decodeFrom_cons hi (by omega) his
  · have hsize := hjump.size
    have hgoal := hplace goal k hjump.placed
    have hle := hreached goal k hjump.placed
    have hfar : place goal + 32768 < a.code.size := by
      have hnot := hjump.far
      rw [← Bool.not_eq_true, Reference.isShort_iff] at hnot
      omega
    rw [hsize]
    refine ⟨_, .around hjump.conditional hfar, fun q _ b span hb is his => ?_⟩
    obtain ⟨hholds, hk⟩ := hheld _ (hjump.operands ▸ List.mem_singleton.2 rfl)
    rw [hb.length] at hend hk
    have hstands : last.code.Has a.code.size ([opposite op, 0, 8] ++ [Opcode.gotoW]) :=
      (hkeeps _ _ hjump.fixed).has
    have hshape : op.shape = .jump := by
      have := op.shape_shortForm hop
      rwa [hjump.short] at this
    have hfirst := ClassBytes.decodeInstruction_of_around hb.has
      (op.shape_opposite hshape hjump.conditional) hstands.left (hsize ▸ hend)
    have hstop : Reference.stop ⟨a.code.size + 3, a.code.size + 4, true⟩ = a.code.size + 8 := rfl
    have hlong : b.decodeInstruction span (a.code.size + 3) = .ok (.jump Opcode.goto (place goal),
        Reference.stop ⟨a.code.size + 3, a.code.size + 4, true⟩ - (a.code.size + 3 + 1)) :=
      ClassBytes.decodeInstruction_of_jump hb.has hb.small rfl rfl rfl (fun _ => .inl rfl) hstands.right
        hholds hk (hstop ▸ hsize ▸ hend)
    have hnext : a.code.size + 8 = a.code.size + 3 + 1 + (a.code.size + 8 - (a.code.size + 3 + 1)) := by
      omega
    exact ClassBytes.decodeFrom_cons hfirst rfl (ClassBytes.decodeFrom_cons (hstop ▸ hlong) hnext his)

/-- A switch comes back with the places of its labels. -/
theorem comesBack_of_switch (ha : a.Roomy) (hi : i.CountedSwitch)
    (hret : Returns (encode i a) p (around, a') p') (hkeeps : a'.Keeps last)
    (hheld : ClassBytes.Held last last.code.size place (a.operands i))
    (hend : a'.code.size ≤ last.code.size) :
    ∃ chunk, ComesBack place i a.code.size a'.code.size chunk ∧
      ReadsUpTo p' last.code a.code.size a'.code.size chunk := by
  obtain ⟨hsaid, hsize⟩ := says_encode ha hi hret
  have hreported : CodeWriter.reported i = i := by
    cases i
    case jump => exact absurd hi id
    all_goals rfl
  refine ⟨_, .one (by omega), fun q _ b span hb is his => ?_⟩
  have hsmall := hb.small
  rw [hb.length] at hend hheld
  have hdecode := ClassBytes.decodeInstruction_of_switch hb.has hb.length hb.small (by omega) hi
    (hsaid.keeps hkeeps) rfl hheld (hsize ▸ hend)
  rw [hreported]
  exact ClassBytes.decodeFrom_cons hdecode hsize his

/-- **An instruction comes back** from the code that it has become a part of, once labels are at their
places. -/
theorem comesBack_encode {ops : List (Label × Reference)} (ha : a.Laid ops) (hp : p.Ordered h)
    (hi : i.Shaped) (hret : Returns (encode i a) p (around, a') p') (hkeeps : a'.Keeps last)
    (hplace : ∀ l k, a.place? l = some k → place l = k)
    (hheld : ClassBytes.Held last last.code.size place (a.operands i))
    (hend : a'.code.size ≤ last.code.size) :
    ∃ chunk, ComesBack place i a.code.size a'.code.size chunk ∧
      ReadsUpTo p' last.code a.code.size a'.code.size chunk := by
  by_cases htargets : i.targets = []
  · exact comesBack_of_spelled ha.roomy hkeeps htargets (spelled_encode hp hi htargets hret)
  · cases i
    case jump op goal =>
      obtain ⟨hjump, -⟩ := returns_pure.1 (show Returns (pure (putJump op goal a)) p (around, a') p' from hret)
      obtain rfl : a' = (putJump op goal a).2 := congrArg Prod.snd hjump.symm
      exact comesBack_putJump ha.roomy hi hkeeps hplace hheld ha.reached hend
    case tableSwitch => exact comesBack_of_switch ha.roomy hi hret hkeeps hheld hend
    case lookupSwitch => exact comesBack_of_switch ha.roomy trivial hret hkeeps hheld hend
    all_goals exact absurd rfl htargets

end Assembler

/-! ## 5. Methods -/

namespace ReadsUpTo

variable {p p' : ConstantPool} {code : Bytes} {pc next stop : Nat} {chunk rest : List (Nat × Instruction Nat)}

theorem none (stop : Nat) : ReadsUpTo p code stop stop [] := fun _ _ _ _ _ _ his => his

theorem mono (h : ReadsUpTo p code pc next chunk) (hk : p.Carried p') : ReadsUpTo p' code pc next chunk :=
  fun q hq => h q (hk.trans hq)

theorem trans (h : ReadsUpTo p code pc next chunk) (h' : ReadsUpTo p code next stop rest) :
    ReadsUpTo p code pc stop (chunk ++ rest) := fun q hq b span hb is his => by
  rw [List.append_assoc]
  exact h q hq b span hb _ (h' q hq b span hb is his)

end ReadsUpTo

namespace MethodWriter

variable {m m' m₁ m₂ : MethodWriter} {c : ClassContext} {p p' p₁ p₂ : ConstantPool}
  {before after : List MethodEvent} {e : MethodEvent} {l : Label} {k : Nat}

/-- The place of a label stays when more events come. -/
theorem HasPlace.append (h : HasPlace c m p before l k) (after : List MethodEvent) :
    HasPlace c m p (before ++ after) l k := by
  obtain ⟨front, e, back, m₁, p₁, rfl, hfront, he⟩ := h
  exact ⟨front, e, back ++ after, m₁, p₁, by rw [List.append_assoc, List.cons_append], hfront, he⟩

theorem closed_of_not_mem {es : List MethodEvent} (h : .finish ∉ es) : Closed es :=
  fun hmem => h (List.dropLast_subset _ hmem)

section Written

variable {mode : ComputeMode} {slots : UInt16} (hm : m.code = .start mode slots)
  (hp : p.Ordered c.hierarchy) (hcheck : m'.code.check = .ok ())

include hm hp hcheck

/-- **An instruction of a method comes back** from the code of the method. -/
theorem comesBack_instruction {i : Instruction Label} (hopen : .finish ∉ before ++ .instruction i :: after)
    (honce : ((before ++ .instruction i :: after).filterMap MethodEvent.placed?).Nodup) (hi : i.Shaped)
    (hbefore : Returns (m.events c before) p m₁ p₁)
    (he : Returns (m₁.event c (.instruction i)) p₁ m₂ p₂)
    (hafter : Returns (m₂.events c after) p₂ m' p') :
    ∃ chunk, ComesBack (fun l => (m'.code.assembler.place? l).getD 0) i m₁.code.size m₂.code.size chunk ∧
      ReadsUpTo p' m'.code.assembler.code m₁.code.size m₂.code.size chunk := by
  have hret : Returns (m.events c (before ++ .instruction i :: after)) p m' p' :=
    returns_events_append.2 ⟨m₁, p₁, hbefore, returns_events_cons.2 ⟨m₂, p₂, he, hafter⟩⟩
  have hlaying := laying_events hm hopen honce hret
  rw [List.mem_append, not_or, List.mem_cons, not_or] at hopen
  rw [List.filterMap_append] at honce
  have hlaying₁ := laying_events hm hopen.1 (List.nodup_append.1 honce).1 hbefore
  obtain ⟨ops, hlaid, -⟩ := hlaying₁.laid
  have hkept : CodeWriter.Kept c.hierarchy m.code p := hm ▸ CodeWriter.kept_start hp.sound mode slots
  obtain ⟨hp₁, -⟩ := ordered_events hkept hp.numbered (closed_of_not_mem hopen.1) hbefore
  obtain ⟨hkept₂, -⟩ := kept_event (kept_events hkept hopen.1 hbefore) (Ne.symm hopen.2.1) he
  have hone : .finish ∉ [MethodEvent.instruction i] := by simp
  obtain ⟨hp₂, -⟩ := ordered_events (kept_events hkept hopen.1 hbefore) hp₁.numbered
    (closed_of_not_mem hone) (returns_events_singleton.2 he)
  obtain ⟨-, hcarried⟩ := ordered_events hkept₂ hp₂.numbered (closed_of_not_mem hopen.2.2) hafter
  obtain ⟨w, hrun, rfl⟩ := returns_onCode.1 he
  obtain ⟨around, a, q, g, T, hencode, -, rfl, rfl, -⟩ := CodeWriter.returns_instruction hrun
  have hplace : ∀ l k, m₁.code.assembler.place? l = some k →
      (m'.code.assembler.place? l).getD 0 = k := fun l k hk => by
    have hk' := (hlaying.place l k).2 (((hlaying₁.place l k).1 hk).append _)
    rw [hk', Option.getD_some]
  obtain ⟨chunk, hchunk, hreads⟩ := Assembler.comesBack_encode hlaid hp₁ hi hencode
    (keeps_events hopen.2.2 hafter) hplace (hlaying.held hret hcheck hbefore)
    (size_events_le hopen.2.2 hafter)
  refine ⟨chunk, hchunk, hreads.mono ?_⟩
  exact (⟨fun _ _ hc => hc, fun _ _ hk => hk⟩ : q.Carried { q with types := T }).trans hcarried

/-- **What the events from some point on are read back as**, in the code of the method. -/
theorem transcript_behind (hopen : .finish ∉ before ++ after)
    (honce : ((before ++ after).filterMap MethodEvent.placed?).Nodup)
    (hshaped : ∀ i, .instruction i ∈ after → i.Shaped)
    (hbefore : Returns (m.events c before) p m₁ p₁) (hafter : Returns (m₁.events c after) p₁ m' p') :
    ∃ is, Transcript (fun l => (m'.code.assembler.place? l).getD 0) m₁.code.size after is m'.code.size ∧
      ReadsUpTo p' m'.code.assembler.code m₁.code.size m'.code.size is := by
  induction after generalizing before m₁ p₁ with
  | nil =>
    obtain ⟨rfl, rfl⟩ := returns_pure.1 hafter
    exact ⟨[], .done _, .none _⟩
  | cons e es ih =>
    obtain ⟨m₂, p₂, he, hes⟩ := returns_events_cons.1 hafter
    have hfront : Returns (m.events c (before ++ [e])) p m₂ p₂ :=
      returns_events_append.2 ⟨m₁, p₁, hbefore, returns_events_singleton.2 he⟩
    have hsplit : before ++ e :: es = before ++ [e] ++ es := by
      rw [List.append_assoc, List.singleton_append]
    obtain ⟨is, htranscript, hreads⟩ := ih (hsplit ▸ hopen) (hsplit ▸ honce)
      (fun i hi => hshaped i (List.mem_cons_of_mem e hi)) hfront hes
    have hne : e ≠ .finish := fun heq =>
      hopen (List.mem_append_right _ (heq ▸ List.mem_cons_self))
    have hsame : (∀ i, e ≠ .instruction i) → m₂.code.size = m₁.code.size := fun hno =>
      size_event hne hno he
    rcases returns_event_parts hne he with ⟨-, -, -, hother⟩ | ⟨_, _, _, _, rfl, -⟩ | ⟨i, rfl, -⟩ |
      ⟨l, rfl, -⟩
    · have hi : ∀ i, e ≠ .instruction i := by
        rintro i rfl
        exact nomatch hother
      have hl : ∀ l, e ≠ .label l := by
        rintro l rfl
        exact nomatch hother
      rw [hsame hi] at htranscript hreads
      exact ⟨is, .other hi hl htranscript, hreads⟩
    · rw [hsame nofun] at htranscript hreads
      exact ⟨is, .other nofun nofun htranscript, hreads⟩
    · obtain ⟨chunk, hchunk, hreads'⟩ := comesBack_instruction hm hp hcheck hopen honce
        (hshaped i List.mem_cons_self) hbefore he hes
      exact ⟨chunk ++ is, .instruction hchunk htranscript, hreads'.trans hreads⟩
    · have hlaying := laying_events hm hopen honce
        (returns_events_append.2 ⟨m₁, p₁, hbefore, returns_events_cons.2 ⟨m₂, p₂, he, hes⟩⟩)
      have hplace := (hlaying.place l _).2 ⟨before, _, es, m₁, p₁, rfl, hbefore, rfl, rfl⟩
      rw [hsame nofun] at htranscript hreads
      exact ⟨is, .label (by rw [hplace, Option.getD_some]) htranscript, hreads⟩

/-- **What the events of a method are read back as**, from the start of its code to the end. -/
theorem transcript_events {body : List MethodEvent} (hopen : .finish ∉ body)
    (honce : (body.filterMap MethodEvent.placed?).Nodup)
    (hshaped : ∀ i, .instruction i ∈ body → i.Shaped) (hret : Returns (m.events c body) p m' p') :
    ∃ is, Transcript (fun l => (m'.code.assembler.place? l).getD 0) 0 body is m'.code.size ∧
      ReadsUpTo p' m'.code.assembler.code 0 m'.code.size is := by
  have hnone : Returns (m.events c []) p m p := returns_pure.2 ⟨rfl, rfl⟩
  have hall := transcript_behind hm hp hcheck (show .finish ∉ [] ++ body from hopen)
    (show (([] ++ body).filterMap MethodEvent.placed?).Nodup from honce) hshaped hnone hret
  rwa [hm] at hall

end Written

end MethodWriter

end ClassFile
