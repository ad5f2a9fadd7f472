/-
# Heights of frames

A frame records types, but it has a height as well: what stands on its stack, less the slots that have
been taken of those on entry.  An instruction that succeeds changes this height by the slots that it
leaves less those that it takes, and the peak of the frame is the greatest height so far
(`measured_step`).

An instruction takes before it leaves.  So in between the stack is never higher than before or
afterwards, and it is enough to compare the peak with the height afterwards (`Uses.trans`).  For the same
reason it reaches below the stack of its block only for slots that it takes.
-/
import ClassFile.Proofs.Code.Routine
import ClassFile.Proofs.Descriptor.Inverse
import ClassFile.Proofs.Descriptor.Sizes
import Mathlib.Tactic.SplitIfs

namespace ClassFile

/-! ## 1. Operands that go with their instruction -/

namespace Opcode

/-- An instruction that accesses a field. -/
def accessesField (op : Opcode) : Bool := getstatic ≤ op && op ≤ putfield

/-- Is a descriptor well formed, and of the kind that an instruction with a descriptor needs? -/
def Accepts (op : Opcode) (descriptor : String) : Prop :=
  if op.accessesField then ∃ t, FieldType.parse descriptor = .ok t
  else ∃ t, MethodType.parse descriptor = .ok t

end Opcode

namespace Instruction

variable {τ : Type}

/-- An instruction whose descriptor, if it has one, is well formed.  That of a new array of arrays is the
descriptor of an array. -/
def WellDescribed : Instruction τ → Prop
  | .field op _ _ descriptor | .method op _ _ descriptor _ => op.Accepts descriptor
  | .invokeDynamic _ descriptor _ _ => ∃ t, MethodType.parse descriptor = .ok t
  | .constant (.dynamic _ descriptor _ _) => ∃ t, FieldType.parse descriptor = .ok t
  | .multiArray descriptor _ => ∃ t, FieldType.parse descriptor = .ok t ∧ t.dimensions ≠ 0
  | _ => True

/-- An instruction whose descriptor, if it has one, is that of a field or of a method, as the operands
are. -/
def Counted : Instruction τ → Prop
  | .field _ _ _ descriptor => ∃ t, FieldType.parse descriptor = .ok t
  | .method _ _ _ descriptor _ => ∃ t, MethodType.parse descriptor = .ok t
  | _ => True

/-- The slots of an instruction without targets, where an opcode may also come with the operands of
another shape. -/
def straightUse? : Instruction τ → Option StackUse
  | .simple op => op.stackUse?
  | .method op _ _ descriptor _ => do
    let (arguments, result) ← (Descriptor.methodSlots descriptor).toOption
    callUse? op arguments result
  | i => if i.targets.isEmpty then i.stackUse? else none

end Instruction

namespace Frame

/-! ## 2. Heights -/

/-- The change of the height of the stack from the entry of a block to its end so far. -/
def net (f : Frame) : Int := (f.stack.size : Int) - f.taken

/-- The height is not above the peak. -/
def Peaked (f : Frame) : Prop := f.net ≤ f.peak

theorem peaked_empty : empty.Peaked := Int.le_refl 0

/-- The stack has grown by what is left, less what is taken, and the peak takes that into account as long
as heights have 32 bits.  No more slots of those on entry are taken than the instruction needs. -/
structure Uses (u : StackUse) (f f' : Frame) : Prop where
  net : f'.net = f.net + u.net
  peak : f.Peaked → u.Within f.net → (f'.peak : Int) = max (f.peak : Int) f'.net
  depth : (f'.taken : Int) ≤ max (f.taken : Int) (u.taken - f.net)

variable {f f' f₁ f₂ : Frame} {u v : StackUse} {t : SlotType}

theorem Uses.peaked (h : Uses u f f') (hf : f.Peaked) (hu : u.Within f.net) : f'.Peaked := by
  have := h.peak hf hu
  unfold Peaked
  omega

/-- **One change after another one**: what was left is not taken again. -/
theorem Uses.trans (h : Uses u f f₁) (h' : Uses v f₁ f₂) (huv : u.left = 0 ∨ v.taken = 0) :
    Uses ⟨u.taken + v.taken, u.left + v.left⟩ f f₂ := by
  have hnet := h.net
  have hnet' := h'.net
  have hdepth := h.depth
  have hdepth' := h'.depth
  unfold StackUse.net at hnet hnet'
  refine ⟨?_, fun hf ⟨hbefore, hbetween, hbehind⟩ => ?_, ?_⟩
  · unfold StackUse.net
    push_cast
    omega
  · -- what lies between the two changes is not above what lies before or behind both
    unfold StackUse.net at hbehind
    push_cast at hbetween hbehind
    have hu : u.Within f.net := ⟨hbefore, by omega, by unfold StackUse.net; omega⟩
    have hv : v.Within f₁.net := ⟨by omega, by omega, by unfold StackUse.net; omega⟩
    have hpeak := h.peak hf hu
    have hpeak' := h'.peak (h.peaked hf hu) hv
    unfold Peaked at hf
    omega
  · push_cast
    omega

/-- Two frames of the same height. -/
theorem Uses.congr (h : Uses u f f₁) (hnet : f₂.net = f₁.net) (hpeak : f₂.peak = f₁.peak)
    (htaken : f₂.taken = f₁.taken) : Uses u f f₂ :=
  ⟨hnet.trans h.net, by rw [hpeak, hnet]; exact h.peak, htaken ▸ h.depth⟩

theorem Uses.refl (f : Frame) : Uses ⟨0, 0⟩ f f :=
  ⟨by simp [StackUse.net], fun hf _ => (Int.max_eq_left hf).symm, Int.le_max_left _ _⟩

/-! ## 3. Taking and leaving slots -/

theorem uses_push (t : SlotType) (f : Frame) : Uses ⟨0, 1⟩ f (f.push t) := by
  have hnet : (f.push t).net = f.net + 1 := by
    simp only [net, push, Array.size_push]
    omega
  refine ⟨hnet, fun _ ⟨_, hlow, hhigh⟩ => ?_, Int.le_max_left _ _⟩
  rw [hnet]
  simp only [StackUse.net, net] at hlow hhigh
  simp only [net, push, Array.size_push]
  rw [toNat_heightAbove (by omega) (by omega)]
  omega

theorem uses_pushAll (ts : List SlotType) (f : Frame) : Uses ⟨0, ts.length⟩ f (f.pushAll ts) := by
  induction ts generalizing f with
  | nil => exact .refl f
  | cons t ts ih =>
    have huses := (uses_push t f).trans (ih (f.push t)) (.inr rfl)
    rwa [Nat.add_comm 1] at huses

theorem uses_pushValue (t : SlotType) (f : Frame) :
    Uses ⟨0, if t.isWide then 2 else 1⟩ f (f.pushValue t) := by
  unfold pushValue
  split
  · exact (uses_push t f).trans (uses_push .top _) (.inr rfl)
  · exact uses_push t f

theorem uses_drop (count : Nat) (f : Frame) : Uses ⟨count, 0⟩ f (f.drop count) := by
  have hnet : (f.drop count).net = f.net - count := by
    simp only [net, drop, Array.size_shrink]
    omega
  refine ⟨?_, fun hf _ => ?_, ?_⟩
  · rw [hnet]
    simp only [StackUse.net]
    omega
  · unfold Peaked at hf
    rw [hnet]
    simp only [drop]
    omega
  · simp only [drop, net]
    omega

theorem uses_pop (f : Frame) : Uses ⟨1, 0⟩ f f.pop.2 := by
  obtain ⟨entry, locals, stack, taken, peak, constructed⟩ := f
  have hnet : (pop ⟨entry, locals, stack, taken, peak, constructed⟩).2.net =
      (stack.size : Int) - taken - 1 ∧
      (pop ⟨entry, locals, stack, taken, peak, constructed⟩).2.peak = peak ∧
      ((pop ⟨entry, locals, stack, taken, peak, constructed⟩).2.taken : Int) ≤
        max (taken : Int) (1 - (stack.size - taken)) := by
    cases hback : stack.back? with
    | none =>
      have hsize : stack.size = 0 := by rw [Array.back?_eq_none_iff.1 hback, Array.size_empty]
      simp only [pop, hback, net, hsize]
      exact ⟨by omega, trivial, by omega⟩
    | some t =>
      have hne : stack.size ≠ 0 := by
        rintro hsize
        rw [Array.eq_empty_of_size_eq_zero hsize] at hback
        exact nomatch hback
      simp only [pop, hback, net, Array.size_pop]
      exact ⟨by omega, trivial, Int.le_max_left _ _⟩
  refine ⟨?_, fun hf _ => ?_, hnet.2.2⟩
  · rw [hnet.1]
    simp only [StackUse.net, net]
    omega
  · unfold Peaked net at hf
    simp only at hf
    rw [hnet.1, hnet.2.1]
    simp only
    omega

theorem uses_popAll (count : Nat) (f : Frame) : Uses ⟨count, 0⟩ f (popAll count f).2 := by
  induction count generalizing f with
  | zero => exact .refl f
  | succ count ih =>
    have huses := (uses_pop f).trans (ih f.pop.2) (.inl rfl)
    rwa [Nat.add_comm 1] at huses

theorem Uses.setLocal (h : Uses u f f₁) (index : UInt16) (t : SlotType) :
    Uses u f (f₁.setLocal index t) := h.congr rfl rfl rfl

theorem Uses.construct (h : Uses u f f₁) (t : SlotType) : Uses u f (f₁.construct t) :=
  h.congr rfl rfl rfl

theorem Uses.halveBefore (h : Uses u f f₁) (index : UInt16) : Uses u f (f₁.halveBefore index) := by
  unfold Frame.halveBefore
  split
  · exact h
  · exact h.setLocal _ _

theorem uses_applyEffect (e : StackEffect) (f : Frame) :
    Uses ⟨e.taken, (e.left.map fun t => if t.isWide then 2 else 1).getD 0⟩ f (f.applyEffect e) := by
  have hdrop := uses_drop e.taken f
  unfold applyEffect
  split
  · rename_i t ht
    have huses := hdrop.trans (uses_pushValue t _) (.inl rfl)
    rw [Nat.add_zero, Nat.zero_add] at huses
    rwa [ht]
  · rename_i ht
    rwa [ht]

theorem uses_applyShuffle (count : Nat) (order : List Nat) (f : Frame) :
    Uses ⟨count, order.length⟩ f (f.applyShuffle count order) := by
  have huses := (uses_popAll count f).trans
    (uses_pushAll (order.map fun i => (popAll count f).1.getD i .top) _) (.inl rfl)
  rwa [Nat.add_zero, Nat.zero_add, List.length_map] at huses

/-- A value that is taken and looked at, below others that are not. -/
theorem uses_drop_pop (count : Nat) (f : Frame) : Uses ⟨count + 1, 0⟩ f (f.drop count).pop.2 :=
  (uses_drop count f).trans (uses_pop _) (.inl rfl)

theorem uses_loadEntry (f : Frame) : Uses ⟨2, 1⟩ f f.loadEntry :=
  (uses_drop_pop 1 f).trans (uses_push _ _) (.inl rfl)

theorem uses_store (index : UInt16) (f : Frame) : Uses ⟨1, 0⟩ f (f.store index) :=
  ((uses_pop f).setLocal _ _).halveBefore _

theorem uses_storeWide (index : UInt16) (f : Frame) : Uses ⟨2, 0⟩ f (f.storeWide index) :=
  (((uses_drop_pop 1 f).setLocal _ _).setLocal _ _).halveBefore _

theorem uses_takeReceiver (construction : Bool) (f : Frame) :
    Uses ⟨1, 0⟩ f (f.takeReceiver construction) := by
  unfold takeReceiver
  cases construction
  · exact uses_pop f
  · exact (uses_pop f).construct _

/-- A value in the place of others. -/
theorem uses_drop_push (count : Nat) (t : SlotType) (f : Frame) :
    Uses ⟨count, 1⟩ f ((f.drop count).push t) := by
  have huses := (uses_drop count f).trans (uses_push t _) (.inl rfl)
  rwa [Nat.add_zero, Nat.zero_add] at huses

/-! ## 4. Operations that may fail -/

variable {α β : Type}

/-- An operation that, where it succeeds, takes and leaves so many slots. -/
def Measured (u? : Option StackUse) (m : FrameM α) : Prop :=
  ∀ f T a f' T', Returns₂ m f T a f' T' → ∃ u, u? = some u ∧ Uses u f f'

theorem measured_modify {g : Frame → Frame} (hg : ∀ f, Uses u f (g f)) :
    Measured (some u) (modify g) := by
  intro f T a f' T' hrun
  obtain ⟨rfl, -⟩ := returns₂_modify.1 hrun
  exact ⟨u, rfl, hg f⟩

theorem measured_throw {u? : Option StackUse} (e : Error) : Measured u? (throw e : FrameM α) :=
  fun _ _ _ _ _ hrun => absurd hrun returns₂_throw

theorem returns₂_onTypes {m : TypeM α} {T T' : TypeTable} {a : α} :
    Returns₂ (onTypes m) f T a f' T' ↔ Returns m T a T' ∧ f = f' := by
  unfold Returns₂ Returns onTypes
  rcases (m T : Except Error α × TypeTable) with ⟨x, T₁⟩
  constructor
  · intro h
    cases h
    exact ⟨rfl, rfl⟩
  · rintro ⟨h, rfl⟩
    cases h
    rfl

theorem measured_onTypes (m : TypeM α) : Measured (some ⟨0, 0⟩) (onTypes m) := by
  intro f T a f' T' hrun
  obtain ⟨-, rfl⟩ := returns₂_onTypes.1 hrun
  exact ⟨_, rfl, .refl f⟩

/-- **Operations one after the other**: what the first one leaves, the second one does not take. -/
theorem Measured.bind {m : FrameM α} {k : α → FrameM β} (hm : Measured (some u) m)
    (hk : ∀ a, Measured (some v) (k a)) (huv : u.left = 0 ∨ v.taken = 0) :
    Measured (some ⟨u.taken + v.taken, u.left + v.left⟩) (m >>= k) := by
  intro f T b f' T' hrun
  obtain ⟨a, f₁, T₁, hfirst, hsecond⟩ := returns₂_bind.1 hrun
  obtain ⟨_, ⟨⟩, huses⟩ := hm _ _ _ _ _ hfirst
  obtain ⟨_, ⟨⟩, huses'⟩ := hk a _ _ _ _ _ hsecond
  exact ⟨_, rfl, huses.trans huses' huv⟩

/-! ## 5. Instructions without descriptors -/

/-- **What an instruction without operands does to a frame** is what the tables of opcodes say. -/
theorem uses_plain? {op : Opcode} {change : Frame → Frame} (hop : plain? op = some change) :
    ∃ u, op.stackUse? = some u ∧ ∀ f, Uses u f (change f) := by
  unfold plain? at hop
  unfold Opcode.stackUse?
  cases he : op.stackEffect? with
  | some e =>
    rw [he] at hop
    cases hop
    exact ⟨_, rfl, fun f => uses_applyEffect e f⟩
  | none =>
    rw [he] at hop
    cases hs : op.shuffle? with
    | some cells =>
      rw [hs] at hop
      cases hop
      exact ⟨_, rfl, fun f => uses_applyShuffle cells.1 cells.2 f⟩
    | none =>
      rw [hs] at hop
      dsimp only at hop
      split at hop
      · rename_i hload
        cases hop
        exact ⟨_, if_pos hload, fun f => uses_loadEntry f⟩
      · exact nomatch hop

theorem measured_plain (op : Opcode) : Measured op.stackUse? (plain op) := by
  unfold plain
  split
  · rename_i change hchange
    obtain ⟨u, hu, huses⟩ := uses_plain? hchange
    rw [hu]
    exact measured_modify huses
  · split <;> exact measured_throw _

theorem measured_number (op : Opcode) (operand : Int32) :
    Measured (Instruction.int op operand : Instruction Label).stackUse? (number op operand) := by
  rw [Instruction.stackUse?, number]
  by_cases hpush : op = Opcode.bipush ∨ op = Opcode.sipush
  · rw [if_pos hpush, if_pos hpush]
    exact measured_modify fun f => uses_push .int f
  rw [if_neg hpush, if_neg hpush]
  by_cases hnew : op = Opcode.newarray
  · rw [if_pos hnew, if_pos hnew]
    exact measured_modify fun f => uses_drop_push 1 _ f
  · rw [if_neg hnew, if_neg hnew]
    exact measured_throw _

theorem measured_pushValue (t : SlotType) :
    Measured (some ⟨0, if t.isWide then 2 else 1⟩) (modify (pushValue t)) :=
  measured_modify fun f => uses_pushValue t f

theorem measured_localOperand (op : Opcode) (index : UInt16) :
    Measured (Instruction.localUse? op) (localOperand op index) := by
  unfold localOperand
  split_ifs with hiload hlload hfload hdload haload hstore hwide hret
  · rw [hiload]
    exact measured_pushValue .int
  · rw [hlload]
    exact measured_pushValue .long
  · rw [hfload]
    exact measured_pushValue .float
  · rw [hdload]
    exact measured_pushValue .double
  · rw [haload]
    exact measured_modify fun f => uses_push _ f
  · rcases hstore with rfl | rfl | rfl <;> exact measured_modify fun f => uses_store index f
  · rcases hwide with rfl | rfl <;> exact measured_modify fun f => uses_storeWide index f
  · exact measured_throw _
  · exact measured_throw _

theorem measured_increment (index : UInt16) : Measured (some ⟨0, 0⟩) (increment index) :=
  measured_modify fun f => (Uses.refl f).setLocal index _

/-! ## 6. Descriptors -/

end Frame

/-- A receiver is counted with the parameters. -/
theorem MethodType.one_le_parameterSlots (t : MethodType) : 1 ≤ t.parameterSlots true := by
  have hle : ∀ (ps : List FieldType) (n : Nat), n ≤ ps.foldl (fun n p => n + p.slots) n := by
    intro ps
    induction ps with
    | nil => exact fun n => Nat.le_refl n
    | cons p ps ih => exact fun n => Nat.le_trans (Nat.le_add_right n p.slots) (ih _)
  exact hle t.parameters 1

namespace Descriptor

variable {descriptor : String}

theorem fieldType_eq_ok_iff {t : FieldType} :
    fieldType descriptor = .ok t ↔ FieldType.parse descriptor = .ok t := by
  unfold fieldType orMalformed
  cases FieldType.parse descriptor <;> simp

theorem methodType_eq_ok_iff {t : MethodType} :
    methodType descriptor = .ok t ↔ MethodType.parse descriptor = .ok t := by
  unfold methodType orMalformed
  cases MethodType.parse descriptor <;> simp

theorem methodResult_eq_ok_iff {result : Option FieldType} :
    methodResult descriptor = .ok result ↔
      ∃ t, MethodType.parse descriptor = .ok t ∧ t.result = result := by
  rw [methodResult_eq]
  cases htype : methodType descriptor with
  | error e =>
    refine ⟨nofun, fun ⟨t, ht, _⟩ => ?_⟩
    cases htype.symm.trans (methodType_eq_ok_iff.2 ht)
  | ok t =>
    refine ⟨fun h => ⟨t, methodType_eq_ok_iff.1 htype, Except.ok.inj h⟩, fun ⟨t', ht, hresult⟩ => ?_⟩
    cases htype.symm.trans (methodType_eq_ok_iff.2 ht)
    exact congrArg Except.ok hresult

/-- The slots of a method are those of its type. -/
theorem methodSlots_eq_ok_iff {slots : Nat × Nat} :
    methodSlots descriptor = .ok slots ↔
      ∃ t, MethodType.parse descriptor = .ok t ∧ slots = (t.parameterSlots true, t.resultSlots) := by
  unfold methodSlots orMalformed argumentAndResultSlots
  rw [sizes?_eq (ahead_toUTF8 descriptor), ← MethodType.parse]
  cases MethodType.parse descriptor with
  | error e => simp [Except.toOption]
  | ok t => simp [Except.toOption, eq_comm]

/-- What is parsed as the type of a field starts neither like that of a method nor like that of nothing. -/
theorem isMethod_of_field {t : FieldType} (h : FieldType.parse descriptor = .ok t) :
    isMethod descriptor = false ∧ descriptor ≠ "V" := by
  obtain ⟨-, rfl⟩ := FieldType.parse_eq_ok_iff.1 h
  obtain ⟨c, more, hrender, -, hopening, hV⟩ := t.exists_head
  have htext : t.text.toList = c :: more := by rw [FieldType.text, String.toList_ofList, hrender]
  refine ⟨by simp [isMethod, String.front?_eq, htext, hopening], fun heq => ?_⟩
  rw [heq] at htext
  exact hV (List.cons.inj htext).1.symm

theorem isMethod_of_method {t : MethodType} (h : MethodType.parse descriptor = .ok t) :
    isMethod descriptor = true := by
  obtain ⟨-, rfl⟩ := MethodType.parse_eq_ok_iff.1 h
  simp [isMethod, String.front?_eq, MethodType.text, MethodType.render]

/-- No descriptor is of both kinds. -/
theorem not_field_and_method {t : FieldType} {t' : MethodType}
    (h : FieldType.parse descriptor = .ok t) : MethodType.parse descriptor ≠ .ok t' := by
  intro h'
  exact nomatch (isMethod_of_field h).1.symm.trans (isMethod_of_method h')

/-- An array takes one slot. -/
theorem slots_of_isArrayName {t : FieldType} (h : FieldType.parse descriptor = .ok t)
    (harray : isArrayName descriptor = true) : t.slots = 1 := by
  obtain ⟨-, rfl⟩ := FieldType.parse_eq_ok_iff.1 h
  rw [t.slots_eq, if_neg]
  rw [isArrayName, String.front?_eq, FieldType.text, String.toList_ofList] at harray
  rintro (hJ | hD)
  · rw [hJ] at harray
    exact absurd harray (by decide)
  · rw [hD] at harray
    exact absurd harray (by decide)

end Descriptor

/-- The type of a value takes as many slots as the value. -/
theorem SlotType.isWide_of_ofFieldType {t : FieldType} {x : SlotType} {T T' : TypeTable}
    (h : Returns (ofFieldType t) T x T') : (if x.isWide then 2 else 1) = t.slots := by
  -- the type of an array or an object, whose kind is known
  have hrest : ∀ {kind : SlotKind} {T₁ : TypeTable}, Returns (do
      if 127 < t.dimensions then throw (.malformedDescriptor t.text)
      return ⟨t.dimensions, kind⟩ : TypeM SlotType) T₁ x T' → x = ⟨t.dimensions, kind⟩ := by
    intro kind T₁ h
    split at h
    · obtain ⟨_, _, hthrow, -⟩ := returns_bind.1 h
      exact absurd hthrow returns_throw
    · exact (returns_pure.1 h).1.symm
  obtain ⟨dimensions, element⟩ := t
  cases dimensions with
  | zero =>
    cases element with
    | base b =>
      obtain ⟨rfl, -⟩ := returns_pure.1 h
      cases b <;> rfl
    | object name =>
      obtain ⟨i, T₁, -, h⟩ := returns_bind.1 h
      rw [hrest h]
      rfl
  | succ n =>
    have hnarrow : ∀ kind : SlotKind, (⟨(n + 1 : Nat), kind⟩ : SlotType).isWide = false := by
      intro kind
      simp only [isWide, Bool.and_eq_false_iff, beq_eq_false_iff_ne]
      exact .inl (by omega)
    cases element with
    | base b =>
      rw [hrest h, hnarrow]
      rfl
    | object name =>
      obtain ⟨i, T₁, -, h⟩ := returns_bind.1 h
      rw [hrest h, hnarrow]
      rfl

/-- What stands for the value of a field. -/
theorem SlotType.returns_ofDescriptor_field {descriptor : String}
    (hmethod : Descriptor.isMethod descriptor = false) (hvoid : descriptor ≠ "V")
    {x : Option SlotType} {T T' : TypeTable} (h : Returns (ofDescriptor descriptor) T x T') :
    ∃ t y, FieldType.parse descriptor = .ok t ∧ Returns (ofFieldType t) T y T' ∧ x = some y := by
  unfold ofDescriptor at h
  rw [hmethod, if_neg Bool.false_ne_true, if_neg hvoid] at h
  obtain ⟨t, T₁, hlift, h⟩ := returns_bind.1 h
  obtain ⟨ht, rfl⟩ := returns_lift.1 hlift
  obtain ⟨y, T₂, hy, h⟩ := returns_bind.1 h
  obtain ⟨rfl, rfl⟩ := returns_pure.1 h
  exact ⟨t, y, Descriptor.fieldType_eq_ok_iff.1 ht, hy, rfl⟩

/-- What stands for the result of a method. -/
theorem SlotType.returns_ofDescriptor_method {descriptor : String} {t : MethodType}
    (ht : MethodType.parse descriptor = .ok t) {x : Option SlotType} {T T' : TypeTable}
    (h : Returns (ofDescriptor descriptor) T x T') :
    (x.map fun y => if y.isWide then 2 else 1).getD 0 = t.resultSlots := by
  unfold ofDescriptor at h
  rw [Descriptor.isMethod_of_method ht, if_pos rfl] at h
  obtain ⟨result, T₁, hlift, h⟩ := returns_bind.1 h
  obtain ⟨hresult, rfl⟩ := returns_lift.1 hlift
  obtain ⟨t', ht', rfl⟩ := Descriptor.methodResult_eq_ok_iff.1 hresult
  cases ht.symm.trans ht'
  obtain ⟨parameters, result⟩ := t
  cases result with
  | some r =>
    obtain ⟨y, T₂, hy, h⟩ := returns_bind.1 h
    obtain ⟨rfl, -⟩ := returns_pure.1 h
    exact isWide_of_ofFieldType hy
  | none =>
    obtain ⟨rfl, -⟩ := returns_pure.1 h
    rfl

namespace Frame

variable {f f' : Frame} {descriptor : String}

/-- A value that stands for a descriptor, or none. -/
theorem uses_pushDescriptor {T T' : TypeTable} {a : Unit}
    (h : Returns₂ (pushDescriptor descriptor) f T a f' T') :
    ∃ x T₁, Returns (SlotType.ofDescriptor descriptor) T x T₁ ∧
      Uses ⟨0, (x.map fun y => if y.isWide then 2 else 1).getD 0⟩ f f' := by
  unfold pushDescriptor at h
  obtain ⟨x, f₁, T₁, htype, h⟩ := returns₂_bind.1 h
  obtain ⟨hx, rfl⟩ := returns₂_onTypes.1 htype
  refine ⟨x, T₁, hx, ?_⟩
  cases x with
  | none =>
    obtain ⟨-, rfl, -⟩ := returns₂_pure.1 h
    exact .refl f
  | some t =>
    obtain ⟨rfl, -⟩ := returns₂_modify.1 h
    exact uses_pushValue t f

theorem measured_pushField {t : FieldType} (ht : FieldType.parse descriptor = .ok t) :
    Measured (some ⟨0, t.slots⟩) (pushDescriptor descriptor) := by
  intro f T a f' T' h
  obtain ⟨x, T₁, hx, huses⟩ := uses_pushDescriptor h
  obtain ⟨hmethod, hvoid⟩ := Descriptor.isMethod_of_field ht
  obtain ⟨t', y, ht', hy, rfl⟩ := SlotType.returns_ofDescriptor_field hmethod hvoid hx
  cases ht.symm.trans ht'
  rw [Option.map_some, Option.getD_some, SlotType.isWide_of_ofFieldType hy] at huses
  exact ⟨_, rfl, huses⟩

theorem measured_pushResult {t : MethodType} (ht : MethodType.parse descriptor = .ok t) :
    Measured (some ⟨0, t.resultSlots⟩) (pushDescriptor descriptor) := by
  intro f T a f' T' h
  obtain ⟨x, T₁, hx, huses⟩ := uses_pushDescriptor h
  rw [SlotType.returns_ofDescriptor_method ht hx] at huses
  exact ⟨_, rfl, huses⟩

theorem measured_pushArray (harray : Descriptor.isArrayName descriptor = true) :
    Measured (some ⟨0, 1⟩) (pushDescriptor descriptor) := by
  have hhead : descriptor.toList.head? = some '[' := by
    simpa [Descriptor.isArrayName, String.front?_eq] using harray
  intro f T a f' T' h
  obtain ⟨x, T₁, hx, huses⟩ := uses_pushDescriptor h
  have hfield : Descriptor.isMethod descriptor = false := by
    simp [Descriptor.isMethod, String.front?_eq, hhead]
  obtain ⟨t, y, ht, hy, rfl⟩ := SlotType.returns_ofDescriptor_field hfield
    (by rintro rfl; exact absurd hhead (by decide)) hx
  rw [Option.map_some, Option.getD_some, SlotType.isWide_of_ofFieldType hy,
    Descriptor.slots_of_isArrayName ht harray] at huses
  exact ⟨_, rfl, huses⟩

theorem measured_popField {t : FieldType} (ht : FieldType.parse descriptor = .ok t) :
    Measured (some ⟨t.slots, 0⟩) (popDescriptor descriptor) := by
  unfold popDescriptor
  rw [(Descriptor.isMethod_of_field ht).1, if_neg Bool.false_ne_true,
    Descriptor.fieldType_eq_ok_iff.2 ht]
  exact measured_modify fun f => uses_drop t.slots f

theorem measured_popArguments {t : MethodType} (ht : MethodType.parse descriptor = .ok t) :
    Measured (some ⟨t.parameterSlots true - 1, 0⟩) (popDescriptor descriptor) := by
  unfold popDescriptor
  rw [Descriptor.isMethod_of_method ht, if_pos rfl, Descriptor.methodSlots_eq_ok_iff.2 ⟨t, ht, rfl⟩]
  exact measured_modify fun f => uses_drop _ f

/-! ## 7. Instructions with descriptors -/

/-- An object in the place of what was there. -/
theorem measured_pushObject (name : String) (g : SlotType → SlotType) :
    Measured (some ⟨0, 1⟩) (do
      let t ← onTypes (SlotType.object name)
      modify (push (g t)) : FrameM Unit) :=
  (measured_onTypes _).bind (fun t => measured_modify fun f => uses_push (g t) f) (.inl rfl)

theorem measured_drop (count : Nat) : Measured (some ⟨count, 0⟩) (modify (drop count)) :=
  measured_modify fun f => uses_drop count f

theorem measured_typeOperand (op : Opcode) (offset : Nat) (name : String) :
    Measured (Instruction.type op name : Instruction Label).stackUse? (typeOperand op offset name) := by
  rw [Instruction.stackUse?, typeOperand]
  by_cases hnew : op = Opcode.new
  · rw [if_pos hnew, if_pos hnew]
    exact (measured_onTypes _).bind (fun t => measured_modify fun f => uses_push _ f) (.inl rfl)
  rw [if_neg hnew, if_neg hnew]
  by_cases hother : op = Opcode.anewarray ∨ op = Opcode.checkcast ∨ op = Opcode.instanceof
  · rw [if_pos hother]
    split_ifs with hanewarray harray hcheckcast harray hinstanceof
    · refine (measured_drop 1).bind (fun _ => measured_pushArray ?_) (.inl rfl)
      simp [Descriptor.isArrayName, String.front?_eq]
    · exact (measured_drop 1).bind (fun _ => measured_pushObject name SlotType.arrayOf) (.inl rfl)
    · exact (measured_drop 1).bind (fun _ => measured_pushArray harray) (.inl rfl)
    · exact (measured_drop 1).bind (fun _ => measured_pushObject name id) (.inl rfl)
    · exact measured_modify fun f => uses_drop_push 1 _ f
    · exact measured_throw _
  · rw [if_neg (fun h => hother (.inl h)), if_neg (fun h => hother (.inr (.inl h))),
      if_neg (fun h => hother (.inr (.inr h)))]
    exact measured_throw _

/-- **An access to a field** takes and leaves what its descriptor says. -/
theorem measured_access {op : Opcode} (hop : op.accessesField = true) (name : String) {t : FieldType}
    (ht : FieldType.parse descriptor = .ok t) :
    Measured (Instruction.fieldUse? op t.slots) (member op name descriptor) := by
  unfold Instruction.fieldUse? member
  by_cases hgetstatic : op = Opcode.getstatic
  · rw [if_pos hgetstatic, if_pos hgetstatic]
    exact measured_pushField ht
  rw [if_neg hgetstatic, if_neg hgetstatic]
  by_cases hputstatic : op = Opcode.putstatic
  · rw [if_pos hputstatic, if_pos hputstatic]
    exact measured_popField ht
  rw [if_neg hputstatic, if_neg hputstatic]
  by_cases hgetfield : op = Opcode.getfield
  · rw [if_pos hgetfield, if_pos hgetfield]
    have huses := (measured_drop 1).bind (fun _ => measured_pushField ht) (.inl rfl)
    rwa [Nat.add_zero, Nat.zero_add] at huses
  rw [if_neg hgetfield, if_neg hgetfield]
  by_cases hputfield : op = Opcode.putfield
  · rw [if_pos hputfield, if_pos hputfield]
    exact (measured_popField ht).bind (fun _ => measured_drop 1) (.inl rfl)
  rw [if_neg hputfield, if_neg hputfield]
  split_ifs with hstatic hother
  · rw [hstatic] at hop
    exact absurd hop (by decide)
  · rcases hother with rfl | rfl | rfl <;> exact absurd hop (by decide)
  · exact measured_throw _

/-- Arguments in front of a result. -/
theorem measured_arguments {t : MethodType} (ht : MethodType.parse descriptor = .ok t) :
    Measured (some ⟨t.parameterSlots true - 1, t.resultSlots⟩) (dynamicCall descriptor) := by
  have huses := (measured_popArguments ht).bind (fun _ => measured_pushResult ht) (.inl rfl)
  rwa [Nat.add_zero, Nat.zero_add] at huses

/-- A receiver below the arguments. -/
theorem measured_received {t : MethodType} (ht : MethodType.parse descriptor = .ok t)
    (construction : Bool) : Measured (some ⟨t.parameterSlots true, t.resultSlots⟩) (do
      popDescriptor descriptor
      modify (takeReceiver construction)
      pushDescriptor descriptor : FrameM Unit) := by
  have hreceiver : Measured (some ⟨1, 0⟩) (modify (takeReceiver construction)) :=
    measured_modify fun f => uses_takeReceiver construction f
  have huses := (measured_popArguments ht).bind (fun _ =>
    hreceiver.bind (fun _ => measured_pushResult ht) (.inl rfl)) (.inl rfl)
  have hone := t.one_le_parameterSlots
  rwa [show t.parameterSlots true - 1 + (1 + 0) = t.parameterSlots true by omega, Nat.zero_add,
    Nat.zero_add] at huses

/-- **A call** takes and leaves what its descriptor says, and takes a receiver if there is one. -/
theorem measured_call {op : Opcode} (hop : op.accessesField = false) (name : String) {t : MethodType}
    (ht : MethodType.parse descriptor = .ok t) :
    Measured (Instruction.callUse? op (t.parameterSlots true) t.resultSlots)
      (if op = Opcode.invokedynamic then dynamicCall descriptor else member op name descriptor) := by
  have hne : ∀ {op' : Opcode}, op'.accessesField = true → op ≠ op' := by
    rintro op' hop' rfl
    exact absurd (hop.symm.trans hop') Bool.false_ne_true
  unfold Instruction.callUse?
  by_cases hdynamic : op = Opcode.invokedynamic
  · rw [if_pos (.inr hdynamic), if_pos hdynamic]
    exact measured_arguments ht
  rw [if_neg hdynamic, member, if_neg (hne (by decide)), if_neg (hne (by decide)),
    if_neg (hne (by decide)), if_neg (hne (by decide))]
  by_cases hstatic : op = Opcode.invokestatic
  · rw [if_pos (.inl hstatic), if_pos hstatic]
    exact measured_arguments ht
  rw [if_neg (fun h => h.elim hstatic hdynamic), if_neg hstatic]
  by_cases hreceiver : op = Opcode.invokevirtual ∨ op = Opcode.invokespecial ∨ op = Opcode.invokeinterface
  · rw [if_pos hreceiver, if_pos hreceiver]
    exact measured_received ht _
  · rw [if_neg hreceiver, if_neg hreceiver]
    exact measured_throw _

theorem measured_constant {value : Loadable}
    (hvalue : (Instruction.constant value : Instruction Label).WellDescribed) :
    Measured (Instruction.constant value : Instruction Label).stackUse? (constant value) := by
  cases value
  case integer n => exact measured_pushValue .int
  case float x => exact measured_pushValue .float
  case long n => exact measured_pushValue .long
  case double x => exact measured_pushValue .double
  case string s => exact measured_pushObject _ id
  case type name => exact measured_pushObject _ id
  case methodType descriptor => exact measured_pushObject _ id
  case handle h => exact measured_pushObject _ id
  case dynamic name descriptor bootstrap arguments =>
    obtain ⟨t, ht⟩ := hvalue
    rw [Instruction.stackUse?, Descriptor.fieldType_eq_ok_iff.2 ht]
    exact measured_pushField ht

theorem measured_multiArray {dimensions : UInt8} {t : FieldType}
    (ht : FieldType.parse descriptor = .ok t) (harray : t.dimensions ≠ 0) :
    Measured (Instruction.multiArray descriptor dimensions : Instruction Label).stackUse?
      (multiArray descriptor dimensions) := by
  have hslots : t.slots = 1 := by
    obtain ⟨_ | n, element⟩ := t
    · exact absurd rfl harray
    · rfl
  rw [Instruction.stackUse?, Descriptor.fieldType_eq_ok_iff.2 ht]
  have huses := (measured_drop dimensions.toNat).bind (fun _ => measured_pushField ht) (.inl rfl)
  rw [hslots, Nat.add_zero, Nat.zero_add] at huses
  show Measured (if t.dimensions = 0 then none else some ⟨dimensions.toNat, 1⟩) _
  rwa [if_neg harray]

end Frame

end ClassFile
