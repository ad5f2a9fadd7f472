/-
# What the code of a method says

`decodeBody` decodes the code of a method in one go, without labels and without events: its
instructions with their offsets (`decodeFrom`), its handlers, and the tables of lines and of local
variables.  It is not how code is read, but what reading it comes to: the events of a method follow from
its `Body`.

Whatever mentions an offset mentions one of the code or its end (`Body.InRange`), and the instructions
stand one behind another from the start of the code to its end (`Chain`).
-/
import ClassFile.Code.Decode
import ClassFile.Proofs.ClassBytes.Reading

namespace ClassFile

/-- An instruction whose targets are in the code or at its end. -/
def Instruction.InRange (i : Instruction Nat) (length : Nat) : Prop := ∀ p ∈ i.targets, p ≤ length

/-- An instruction that goes nowhere. -/
theorem Instruction.inRange_of_no_targets {i : Instruction Nat} (h : i.targets = []) {length : Nat} :
    i.InRange length := fun p hp => by
  rw [h] at hp
  cases hp

namespace ClassBytes

/-! ## 1. Decoding in one go -/

/-- The instruction at `pc`, and the number of bytes of its operands; it has to end in the code or with
it. -/
def decodeInstruction (c : ClassBytes) (span : CodeSpan) (pc : Nat) :
    Except Error (Instruction Nat × Nat) := do
  let op ← c.bytes.u8At (span.start + pc)
  let (i, operands) ← c.decodeOperands span pc op
  if span.length < pc + 1 + operands then
    throw (.invalidCodeOffset pc ((pc + 1 + operands : Nat) : Int))
  return (i, operands)

/-- The instructions from `pc` on, each with its offset. -/
def decodeFrom (c : ClassBytes) (span : CodeSpan) (pc : Nat) :
    Except Error (List (Nat × Instruction Nat)) :=
  if pc < span.length then do
    let (i, operands) ← c.decodeInstruction span pc
    return (pc, i) :: (← decodeFrom c span (pc + 1 + operands))
  else return []
termination_by span.length - pc

/-- So many attributes of code, the first of them at an offset. -/
def decodeAttributes (c : ClassBytes) (span : CodeSpan) : Nat → Nat → Except Error (List CodeAttribute)
  | 0, _ => return []
  | count + 1, offset => do
    let (a, next) ← c.decodeCodeAttribute span offset
    return a :: (← decodeAttributes c span count next)

/-- The instructions of code, and what the tables behind it hold. -/
structure Listing where
  instructions : List (Nat × Instruction Nat)
  handlers : List (HandlerRow Nat)
  attributes : List CodeAttribute

/-- Decodes the instructions of code, and the tables behind it. -/
def decodeListing (c : ClassBytes) (span : CodeSpan) : Except Error Listing := do
  let instructions ← c.decodeFrom span 0
  let table := span.start + span.length
  let handlers ← c.decodeTable 8 (c.decodeHandler span) table
  let attributes := table + 2 + 8 * handlers.length
  let count ← c.bytes.u16At attributes
  return ⟨instructions, handlers, ← c.decodeAttributes span count.toNat (attributes + 2)⟩

/-- The decoded code of a method. -/
structure Body extends Listing where
  maxStack : UInt16
  maxLocals : UInt16
  length : Nat

/-- Decodes the code of a method. -/
def decodeBody (c : ClassBytes) (offset : Nat) : Except Error Body := do
  let maxStack ← c.bytes.u16At offset
  let maxLocals ← c.bytes.u16At (offset + 2)
  let length := (← c.bytes.u32At (offset + 4)).toNat
  let span : CodeSpan := ⟨offset + 8, length⟩
  let _ ← c.bytes.bytesAt span.start length
  let listing ← c.decodeListing span
  return { listing with maxStack, maxLocals, length }

/-! ## 2. Offsets that are mentioned -/

/-- The offsets that a row of the table of handlers mentions. -/
def HandlerRow.places (r : HandlerRow Nat) : List Nat := [r.start, r.stop, r.handler]

/-- The offsets that a row of a table of local variables mentions. -/
def LocalRow.places (r : LocalRow Nat) : List Nat := [r.start, r.stop]

namespace CodeAttribute

/-- The lines of an attribute, in the order of its table. -/
def lineRows : CodeAttribute → List (Nat × UInt16)
  | lines rows => rows
  | _ => []

/-- The local variables of an attribute. -/
def localRows : CodeAttribute → List (LocalRow Nat)
  | locals rows => rows
  | _ => []

/-- The offsets that an attribute mentions. -/
def places : CodeAttribute → List Nat
  | lines rows => rows.map Prod.fst
  | locals rows => rows.flatMap LocalRow.places
  | other => []

end CodeAttribute

namespace Listing

variable (b : Listing)

/-- The lines, in the order of their tables. -/
def lines : List (Nat × UInt16) := b.attributes.flatMap CodeAttribute.lineRows

/-- The local variables, in the order of their tables. -/
def locals : List (LocalRow Nat) := b.attributes.flatMap CodeAttribute.localRows

/-- The offsets that instructions and handlers mention. -/
def targets : List Nat :=
  b.instructions.flatMap (fun x => x.2.targets) ++ b.handlers.flatMap HandlerRow.places

/-- The offsets that lines and local variables mention. -/
def debugTargets : List Nat := b.attributes.flatMap CodeAttribute.places

end Listing

/-! ## 3. Decoding yields offsets of the code -/

variable (c : ClassBytes) (span : CodeSpan)

theorem reading_target (pc : Nat) (distance : Int) :
    Reading (target span pc distance) fun place => place ≤ span.length :=
  .ite (fun h => .pure (by omega)) fun _ => .throw rfl

theorem reading_targetAt (pc offset : Nat) :
    Reading (c.targetAt span pc offset) fun place => place ≤ span.length :=
  (c.bytes.reading_i32At offset).bind fun _ _ => reading_target span pc _

theorem reading_decodeTableSwitch (pc : Nat) :
    Reading (c.decodeTableSwitch span pc) fun x => x.1.InRange span.length := by
  refine (c.reading_targetAt span pc _).bind fun default hdefault => ?_
  refine (c.bytes.reading_i32At _).bind fun low _ => (c.bytes.reading_i32At _).bind fun high _ => ?_
  refine .ite (fun _ => .throw rfl) fun _ => ?_
  refine (c.bytes.reading_bytesAt _ _).bind fun _ _ => ?_
  refine (Reading.mapM (fun i => c.reading_targetAt span pc _) _).bind fun targets htargets => ?_
  refine .pure fun p hp => ?_
  rcases List.mem_cons.1 hp with rfl | hp
  · exact hdefault
  · exact htargets p hp

theorem reading_decodeLookupSwitch (pc : Nat) :
    Reading (c.decodeLookupSwitch span pc) fun x => x.1.InRange span.length := by
  refine (c.reading_targetAt span pc _).bind fun default hdefault => ?_
  refine (c.bytes.reading_i32At _).bind fun count _ => ?_
  refine .ite (fun _ => .throw rfl) fun _ => ?_
  refine (c.bytes.reading_bytesAt _ _).bind fun _ _ => ?_
  have hpair : ∀ i, Reading (do
      let key ← c.bytes.i32At (span.start + pc + 1 + switchPadding pc + 8 + 8 * i)
      let place ← c.targetAt span pc (span.start + pc + 1 + switchPadding pc + 12 + 8 * i)
      return (key, place) : Except Error (Int32 × Nat)) fun pair => pair.2 ≤ span.length := fun i =>
    (c.bytes.reading_i32At _).bind fun _ _ => (c.reading_targetAt span pc _).bind fun _ h => .pure h
  refine (Reading.mapM hpair _).bind fun pairs hpairs => .pure fun p hp => ?_
  rcases List.mem_cons.1 hp with rfl | hp
  · exact hdefault
  · obtain ⟨pair, hpair, rfl⟩ := List.mem_map.1 hp
    exact hpairs pair hpair

theorem reading_decodeWide (pc : Nat) :
    Reading (c.decodeWide span pc) fun x => x.1.InRange span.length := by
  refine (c.bytes.reading_u8At _).bind fun op _ => ?_
  split
  · exact (c.bytes.reading_u16At _).bind fun _ _ => (c.bytes.reading_i16At _).bind fun _ _ =>
      .pure (Instruction.inRange_of_no_targets rfl)
  · exact (c.bytes.reading_u16At _).bind fun _ _ => .pure (Instruction.inRange_of_no_targets rfl)
  · exact .throw rfl

theorem reading_decodeOperands (pc : Nat) (op : Opcode) :
    Reading (c.decodeOperands span pc op) fun x => x.1.InRange span.length := by
  have hnone : ∀ {i : Instruction Nat} {n : Nat}, i.targets = [] →
      Reading (pure (i, n) : Except Error (Instruction Nat × Nat))
        fun x => x.1.InRange span.length := fun h => .pure (Instruction.inRange_of_no_targets h)
  have hjump : ∀ {op : Opcode} {place n : Nat}, place ≤ span.length →
      Reading (pure (.jump op place, n) : Except Error (Instruction Nat × Nat))
        fun x => x.1.InRange span.length := fun h =>
    .pure fun p hp => List.mem_singleton.1 hp ▸ h
  unfold decodeOperands
  cases op.shape
  case simple => exact hnone rfl
  case packedVar => exact hnone (by unfold unpackVar; dsimp only; rfl)
  case invalid => exact .throw rfl
  case byte => exact (c.bytes.reading_i8At _).bind fun _ _ => hnone rfl
  case short => exact (c.bytes.reading_i16At _).bind fun _ _ => hnone rfl
  case arrayType | var => exact (c.bytes.reading_u8At _).bind fun _ _ => hnone rfl
  case constant =>
    exact (c.bytes.reading_u8At _).bind fun _ _ => (c.reading_readLoadable _).bind fun _ _ => hnone rfl
  case wideConstant =>
    exact (c.bytes.reading_u16At _).bind fun _ _ => (c.reading_readLoadable _).bind fun _ _ => hnone rfl
  case increment =>
    exact (c.bytes.reading_u8At _).bind fun _ _ => (c.bytes.reading_i8At _).bind fun _ _ => hnone rfl
  case jump =>
    exact (c.bytes.reading_i16At _).bind fun _ _ => (reading_target span pc _).bind fun _ h => hjump h
  case wideJump => exact (c.reading_targetAt span pc _).bind fun _ h => hjump h
  case tableSwitch => exact c.reading_decodeTableSwitch span pc
  case lookupSwitch => exact c.reading_decodeLookupSwitch span pc
  case field | method =>
    exact (c.bytes.reading_u16At _).bind fun _ _ => (c.reading_readMember _).bind fun _ _ => hnone rfl
  case invokeDynamic =>
    exact (c.bytes.reading_u16At _).bind fun _ _ => (c.reading_readInvokeDynamic _).bind fun _ _ =>
      (c.reading_readBootstrap _).bind fun _ _ => hnone rfl
  case type =>
    exact (c.bytes.reading_u16At _).bind fun _ _ => (c.reading_readClass _).bind fun _ _ => hnone rfl
  case wide => exact c.reading_decodeWide span pc
  case multiArray =>
    exact (c.bytes.reading_u16At _).bind fun _ _ => (c.reading_readClass _).bind fun _ _ =>
      (c.bytes.reading_u8At _).bind fun _ _ => hnone rfl

theorem reading_decodeInstruction (pc : Nat) : Reading (c.decodeInstruction span pc) fun x =>
    x.1.InRange span.length ∧ pc + 1 + x.2 ≤ span.length := by
  refine (c.bytes.reading_u8At _).bind fun op _ => (c.reading_decodeOperands span pc op).bind
    fun x hx => ?_
  refine .ite (fun _ => .throw rfl) fun h => .pure ⟨hx, Nat.le_of_not_lt h⟩

/-- Instructions that stand one behind another from `pc` to the end of the code, with targets in the
code or at its end. -/
def Chain (length : Nat) : Nat → List (Nat × Instruction Nat) → Prop
  | pc, [] => pc = length
  | pc, (place, i) :: rest =>
    place = pc ∧ pc < length ∧ i.InRange length ∧
      ∃ operands, pc + 1 + operands ≤ length ∧ Chain length (pc + 1 + operands) rest

/-- Every target is in the code or at its end. -/
theorem Chain.targets_le {length pc : Nat} {is : List (Nat × Instruction Nat)}
    (h : Chain length pc is) : ∀ p ∈ is.flatMap (fun x => x.2.targets), p ≤ length := by
  induction is generalizing pc with
  | nil => intro p hp; cases hp
  | cons x is ih =>
    obtain ⟨-, -, hx, n, -, hrest⟩ := h
    intro p hp
    rw [List.flatMap_cons, List.mem_append] at hp
    rcases hp with hp | hp
    · exact hx p hp
    · exact ih hrest p hp

theorem reading_decodeFrom (pc : Nat) (hpc : pc ≤ span.length) :
    Reading (c.decodeFrom span pc) (Chain span.length pc) := by
  induction pc using decodeFrom.induct span with
  | case1 pc hlt ih =>
    unfold decodeFrom
    rw [if_pos hlt]
    refine (c.reading_decodeInstruction span pc).bind fun x hx => ?_
    exact (ih x.2 hx.2).bind fun rest hrest => .pure ⟨rfl, hlt, hx.1, x.2, hx.2, hrest⟩
  | case2 pc hge =>
    unfold decodeFrom
    rw [if_neg hge]
    exact .pure (Nat.le_antisymm hpc (Nat.le_of_not_lt hge))

theorem reading_decodeHandler (row : Nat) : Reading (c.decodeHandler span row) fun r =>
    ∀ p ∈ r.places, p ≤ span.length := by
  have hplace : ∀ offset, Reading (do
      let value ← c.bytes.u16At offset
      if value.toNat ≤ span.length then return value.toNat
      else throw (.invalidCodeOffset row value.toNat) : Except Error Nat)
      fun place => place ≤ span.length := fun offset =>
    (c.bytes.reading_u16At offset).bind fun _ _ => .ite (fun h => .pure h) fun _ => .throw rfl
  refine (hplace row).bind fun start hstart => (hplace (row + 2)).bind fun stop hstop =>
    (hplace (row + 4)).bind fun handler hhandler => (c.reading_classAt _).bind fun caught _ => ?_
  exact .pure (by simp [HandlerRow.places, hstart, hstop, hhandler])

theorem reading_decodeLine (row : Nat) :
    Reading (c.decodeLine span row) fun r => r.1 ≤ span.length :=
  (c.bytes.reading_u16At row).bind fun _ _ => .ite (fun _ => .throw rfl) fun h =>
    (c.bytes.reading_u16At _).bind fun _ _ => .pure (Nat.le_of_not_lt h)

theorem reading_decodeLocal (row : Nat) : Reading (c.decodeLocal span row) fun r =>
    ∀ p ∈ r.places, p ≤ span.length := by
  refine (c.bytes.reading_u16At row).bind fun start _ => (c.bytes.reading_u16At _).bind fun size _ => ?_
  refine .ite (fun _ => .throw rfl) fun hstart => .ite (fun _ => .throw rfl) fun hstop => ?_
  refine (c.bytes.reading_u16At _).bind fun index _ => .pure ?_
  have hstart := Nat.le_of_not_lt hstart
  have hstop := Nat.le_of_not_lt hstop
  simp [LocalRow.places, hstart, hstop]

theorem reading_decodeTable {α : Type} {Q : α → Prop} {size : Nat} {row : Nat → Except Error α}
    (hrow : ∀ o, Reading (row o) Q) (offset : Nat) :
    Reading (c.decodeTable size row offset) fun rows => ∀ r ∈ rows, Q r :=
  (c.bytes.reading_u16At offset).bind fun _ _ => Reading.mapM (fun _ => hrow _) _

theorem reading_decodeCodeAttribute (offset : Nat) :
    Reading (c.decodeCodeAttribute span offset) fun x => ∀ p ∈ x.1.places, p ≤ span.length := by
  have hnext : ∀ a : CodeAttribute, (∀ p ∈ a.places, p ≤ span.length) →
      Reading (do return (a, offset + 6 + (← c.bytes.u32At (offset + 2)).toNat) :
          Except Error (CodeAttribute × Nat))
        fun x => ∀ p ∈ x.1.places, p ≤ span.length := fun a ha =>
    (c.bytes.reading_u32At _).bind fun _ _ => .pure ha
  refine (c.reading_utf8At offset).bind fun name _ => ?_
  refine .ite (fun _ => ?_) fun _ => .ite (fun _ => ?_) fun _ => hnext _ fun p hp => nomatch hp
  · refine Reading.bind ((c.reading_decodeTable (c.reading_decodeLine span) _).map ?_) hnext
    rintro rows hrows p hp
    obtain ⟨row, hrow, rfl⟩ := List.mem_map.1 hp
    exact hrows row hrow
  · refine Reading.bind ((c.reading_decodeTable (c.reading_decodeLocal span) _).map ?_) hnext
    rintro rows hrows p hp
    obtain ⟨row, hrow, hp⟩ := List.mem_flatMap.1 hp
    exact hrows row hrow p hp

theorem reading_decodeAttributes (count offset : Nat) :
    Reading (c.decodeAttributes span count offset) fun as =>
      ∀ a ∈ as, ∀ p ∈ a.places, p ≤ span.length := by
  induction count generalizing offset with
  | zero => exact .pure fun a ha => nomatch ha
  | succ count ih =>
    refine (c.reading_decodeCodeAttribute span offset).bind fun x hx => (ih x.2).bind
      fun as has => .pure fun a ha => ?_
    rcases List.mem_cons.1 ha with rfl | ha
    · exact hx
    · exact has a ha

/-- What mentions an offset mentions one of the code or its end, and the instructions fill the code. -/
structure Listing.InRange (length : Nat) (b : Listing) : Prop where
  chain : Chain length 0 b.instructions
  handlers : ∀ p ∈ b.handlers.flatMap HandlerRow.places, p ≤ length
  attributes : ∀ p ∈ b.debugTargets, p ≤ length

theorem Listing.InRange.targets_le {length : Nat} {b : Listing} (h : b.InRange length) :
    ∀ p ∈ b.targets, p ≤ length := fun p hp => by
  rcases List.mem_append.1 hp with hp | hp
  · exact h.chain.targets_le p hp
  · exact h.handlers p hp

theorem reading_decodeListing : Reading (c.decodeListing span) (Listing.InRange span.length) := by
  refine (c.reading_decodeFrom span 0 (Nat.zero_le _)).bind fun instructions hinstructions => ?_
  refine (c.reading_decodeTable (c.reading_decodeHandler span) _).bind fun handlers hhandlers => ?_
  refine (c.bytes.reading_u16At _).bind fun count _ => ?_
  refine (c.reading_decodeAttributes span _ _).bind fun attributes hattributes => .pure ?_
  refine ⟨hinstructions, fun p hp => ?_, fun p hp => ?_⟩
  · obtain ⟨row, hrow, hp⟩ := List.mem_flatMap.1 hp
    exact hhandlers row hrow p hp
  · obtain ⟨a, ha, hp⟩ := List.mem_flatMap.1 hp
    exact hattributes a ha p hp

/-- **Decoding gives a body, or says what is wrong with the bytes.** -/
theorem reading_decodeBody (offset : Nat) :
    Reading (c.decodeBody offset) fun b => b.toListing.InRange b.length := by
  refine (c.bytes.reading_u16At _).bind fun _ _ => (c.bytes.reading_u16At _).bind fun _ _ =>
    (c.bytes.reading_u32At _).bind fun length _ => (c.bytes.reading_bytesAt _ _).bind fun _ _ => ?_
  exact (c.reading_decodeListing ⟨offset + 8, length.toNat⟩).bind fun listing h => .pure h

end ClassBytes

end ClassFile
