/-
# Types of slots name the types they come from

A slot has a kind and a number of dimensions where a descriptor has brackets and a name, and the class
or array is a number of the table of types.  Nothing is lost on the way: the type of a slot is the only
one that stands for its field type (`Carries.unique`), in a stack map it is written as the descriptor
says (`Carries.mapType?`), and what is put into an array of such values comes back
(`returns_loadEntry`).  `ofDescriptor_names` puts these together.

The dimensions of a slot are a signed byte.  A descriptor can have up to 255 of them, so half of all
depths are refused (`ofDescriptor_of_deep`), and the deepest arrays that are left cannot be entries of
another array.

A class name that starts with a bracket would be the name of an array.  No compiler writes one, but it
can be read from a descriptor, so it is excluded where the name is written behind further brackets
(`Proper`).
-/
import ClassFile.Proofs.ConstantPool.Coherent
import ClassFile.Proofs.Frame.Height
import ClassFile.Proofs.StackMap.Types

namespace ClassFile

/-! ## 1. Names and arrays of field types -/

namespace FieldType

/-- A class name does not look like the name of an array. -/
def Proper (t : FieldType) : Prop :=
  ∀ name, t.element = .object name → Descriptor.isArrayName name = false

/-- How a value of a type is written in a stack map: an array is given by its descriptor, an object by
the name of its class, and what is smaller than an `int` has become one. -/
def writtenAs (descriptor : String) (t : FieldType) : MapType :=
  match t.dimensions, t.element with
  | 0, .base .float => .float
  | 0, .base .long => .long
  | 0, .base .double => .double
  | 0, .base _ => .integer
  | 0, .object name => .object name
  | _, _ => .object descriptor

theorem mapType?_eq {t : FieldType} (ht : t.Proper) : t.mapType? = some (t.writtenAs t.text) := by
  obtain ⟨dimensions, element⟩ := t
  cases dimensions with
  | zero =>
    cases element with
    | base b => cases b <;> rfl
    | object name => rfl
  | succ n =>
    cases element with
    | base b => simp [mapType?, writtenAs, base, withDimensions]
    | object name =>
      simp [mapType?, writtenAs, ofClassName?, ht name rfl, object, withDimensions]

/-- The name of a reference type where an instruction mentions it: that of its class, or its descriptor
if it is an array. -/
def className (t : FieldType) : String :=
  match t.dimensions, t.element with
  | 0, .object name => name
  | _, _ => t.text

/-- The instruction that makes an array of values of a type. -/
def newArray {τ : Type} (t : FieldType) : Instruction τ :=
  match t.base? with
  | some b => .int Opcode.newarray (Int32.ofNat b.arrayCode.toNat)
  | none => .type Opcode.anewarray t.className

/-- The dimensions of a slot leave room for one more in a type. -/
theorem one_more_le {dimensions : Nat} (hdims : dimensions ≤ 127) : dimensions + 1 ≤ UInt64.size :=
  Nat.le_trans (Nat.succ_le_succ hdims) (by decide)

theorem withDimensions_one {t : FieldType} (hdims : t.dimensions ≤ 127) :
    t.withDimensions 1 = ⟨t.dimensions + 1, t.element⟩ := withDimensions_eq (one_more_le hdims)

theorem dimensions_arrayOf_le {t : FieldType} (hdims : t.dimensions < 127) :
    (t.withDimensions 1).dimensions ≤ 127 := by
  rw [withDimensions_one hdims.le]
  exact hdims

/-- The descriptor of an array is one bracket longer than that of its entries. -/
theorem parse_arrayOf {d : String} {t : FieldType} (h : FieldType.parse d = .ok t)
    (hdims : t.dimensions ≤ 127) : FieldType.parse ("[" ++ d) = .ok (t.withDimensions 1) := by
  obtain ⟨hnamed, rfl⟩ := FieldType.parse_eq_ok_iff.1 h
  refine FieldType.parse_eq_ok_iff.2 ⟨hnamed, ?_⟩
  rw [text, text, render_withDimensions (one_more_le hdims), String.ofList_append]
  rfl

end FieldType

/-! ## 2. The type of a slot for a field type -/

namespace SlotType

variable {h : Hierarchy} {T T' : TypeTable} {t : FieldType} {x y : SlotType}

/-- The type of the slots that hold values of a type. -/
def Carries (T : TypeTable) (t : FieldType) (x : SlotType) : Prop :=
  match t.element with
  | .base b => x = if t.dimensions = 0 then ofBase b else ⟨t.dimensions, .base b⟩
  | .object name => ∃ i, x = ⟨t.dimensions, .object i⟩ ∧ T.entries[i]? = some (.initialized name)

/-- A reference takes one slot. -/
theorem Carries.isWide_eq_false (hx : x.Carries T t) (href : t.base? = none) :
    x.isWide = false := by
  obtain ⟨dimensions, element⟩ := t
  cases element with
  | base b =>
    obtain rfl : x = if dimensions = 0 then ofBase b else ⟨dimensions, .base b⟩ := hx
    cases dimensions with
    | zero => cases href
    | succ n =>
      simp only [Nat.succ_ne_zero, if_false, isWide, Bool.and_eq_false_iff, beq_eq_false_iff_ne]
      exact .inl (by omega)
  | object name =>
    obtain ⟨i, rfl, -⟩ := hx
    simp [isWide]

theorem Carries.later (hx : x.Carries T t) (hle : T ≤ T') : x.Carries T' t := by
  obtain ⟨dimensions, element⟩ := t
  cases element with
  | base b => exact hx
  | object name =>
    obtain ⟨i, rfl, hi⟩ := hx
    exact ⟨i, rfl, hle _ _ hi⟩

/-- **Types of slots can be compared instead of field types.** -/
theorem Carries.unique (hT : T.Sound h) (hx : x.Carries T t) (hy : y.Carries T t) : x = y := by
  obtain ⟨dimensions, element⟩ := t
  cases element with
  | base b => exact Eq.trans hx (Eq.symm hy)
  | object name =>
    obtain ⟨i, rfl, hi⟩ := hx
    obtain ⟨j, rfl, hj⟩ := hy
    rw [hT.index_unique hi hj]

/-- **The type of a value is found**, unless it has too many dimensions. -/
theorem returns_ofFieldType (hT : T.Sound h) (ht : t.dimensions ≤ 127) :
    ∃ x T', Returns (ofFieldType t) T x T' ∧ T'.Sound h ∧ T ≤ T' ∧ x.Carries T' t := by
  obtain ⟨dimensions, element⟩ := t
  have hnot : ¬ 127 < dimensions := Nat.not_lt.2 ht
  cases element with
  | base b =>
    refine ⟨_, T, ?_, hT, TypeTable.le_refl T, rfl⟩
    cases dimensions with
    | zero => rfl
    | succ n =>
      simp only [ofFieldType, FieldType.base?, hnot, if_false]
      rfl
  | object name =>
    obtain ⟨i, T', hi, hs, hle, hentry⟩ := hT.intern (.initialized name)
    refine ⟨⟨dimensions, .object i⟩, T', ?_, hs, hle, i, rfl, hentry⟩
    simp only [ofFieldType, FieldType.base?, hnot, if_false]
    exact returns_bind.2 ⟨_, T', returns_bind.2 ⟨i, T', hi, returns_pure.2 ⟨rfl, rfl⟩⟩, rfl⟩

/-- The type of a value of a field is that of its descriptor. -/
theorem ofDescriptor_eq {d : String} (hd : FieldType.parse d = .ok t) :
    ofDescriptor d = some <$> ofFieldType t := by
  obtain ⟨hmethod, hvoid⟩ := Descriptor.isMethod_of_field hd
  unfold ofDescriptor
  rw [hmethod, if_neg Bool.false_ne_true, if_neg hvoid, Descriptor.fieldType_eq_ok_iff.2 hd]
  rfl

/-- The type of a value of a field that stands in the table already. -/
theorem Carries.returns (hT : T.Sound h) (ht : t.dimensions ≤ 127) (hx : x.Carries T t)
    {d : String} (hd : FieldType.parse d = .ok t) : ∃ T', Returns (ofDescriptor d) T (some x) T' := by
  obtain ⟨y, T', hret, hs, hle, hy⟩ := returns_ofFieldType hT ht
  obtain rfl := (hx.later hle).unique hs hy
  exact ⟨T', ofDescriptor_eq hd ▸ returns_map.2 ⟨x, hret, rfl⟩⟩

/-- **A type with too many dimensions is refused**, and the error names it. -/
theorem ofDescriptor_of_deep {d : String} (hd : FieldType.parse d = .ok t)
    (ht : 127 < t.dimensions) (T : TypeTable) :
    ∃ T', Fails (ofDescriptor d) T (.malformedDescriptor d) T' := by
  rw [ofDescriptor_eq hd, (FieldType.parse_eq_ok_iff.1 hd).2]
  obtain ⟨dimensions, element⟩ := t
  obtain ⟨n, rfl⟩ : ∃ n, dimensions = n + 1 := Nat.exists_eq_add_one_of_ne_zero (Nat.ne_zero_of_lt ht)
  cases element with
  | base b =>
    refine ⟨T, ?_⟩
    simp only [ofFieldType, FieldType.base?, if_pos ht]
    rfl
  | object name =>
    refine ⟨(TypeTable.initialized name T : Except Error TypeIndex × TypeTable).2, ?_⟩
    simp only [ofFieldType, FieldType.base?, if_pos ht]
    rfl

/-- A value takes two slots just if it is a `long` or a `double`. -/
theorem isWide_iff {d : String} (hd : FieldType.parse d = .ok t)
    (hret : Returns (ofFieldType t) T x T') : x.isWide = true ↔ d = "J" ∨ d = "D" := by
  have hslots := isWide_of_ofFieldType hret
  have htext : ∀ c : Char, d = String.singleton c ↔ t.render = [c] := by
    intro c
    rw [(FieldType.parse_eq_ok_iff.1 hd).2, ← String.toList_inj, FieldType.text,
      String.toList_ofList, String.toList_singleton]
  rw [t.slots_eq] at hslots
  show _ ↔ d = String.singleton 'J' ∨ d = String.singleton 'D'
  rw [htext, htext]
  split_ifs at hslots with hwide hpair hpair
  · exact iff_of_true hwide hpair
  · exact absurd hslots (by decide)
  · exact absurd hslots (by decide)
  · exact iff_of_false hwide hpair

/-! ## 3. Written types -/

variable {p : ConstantPool}

/-- Records that fit are given an index. -/
theorem exists_intern {c : Constant} (hroom : p.records.nextOffset + width c ≤ 65535) :
    ∃ i p', Returns (ConstantPool.intern c) p i p' ∧
      p'.records.nextOffset ≤ p.records.nextOffset + width c := by
  unfold Returns
  rw [ConstantPool.intern_apply]
  split
  · exact ⟨_, _, rfl, Nat.le_add_right _ _⟩
  · rw [if_neg (Nat.not_lt_of_le hroom)]
    exact ⟨_, _, rfl, Nat.mod_le _ _⟩

theorem exists_classRef (name : String) (hroom : p.records.nextOffset + 2 ≤ 65535) :
    ∃ i p', Returns (ConstantPool.classRef name) p i p' := by
  obtain ⟨n, p₁, hn, hnext⟩ := exists_intern (p := p) (c := .utf8 name)
    (Nat.le_trans (Nat.le_succ _) hroom)
  obtain ⟨i, p₂, hi, -⟩ := exists_intern (p := p₁) (c := .classRef n)
    (Nat.le_trans (Nat.succ_le_succ hnext) hroom)
  exact ⟨i, p₂, returns_bind.2 ⟨n, p₁, hn, hi⟩⟩

/-- **A value type is written** where a class record has room. -/
theorem Carries.exists_verificationType (hx : x.Carries p.types t) (ht : t.Proper)
    (hroom : p.records.nextOffset + 2 ≤ 65535) :
    ∃ v p', Returns x.verificationType p v p' := by
  have harray : ∀ (n : Nat) (element : FieldType),
      ∃ v p', Returns (arrayWritten n element) p v p' := by
    intro n element
    obtain ⟨i, p', hi⟩ := exists_classRef (element.withDimensions n).text hroom
    exact ⟨.object i, p', returns_bind.2 ⟨i, p', hi, returns_pure.2 ⟨rfl, rfl⟩⟩⟩
  have hentry : ∀ {i : TypeIndex} {e : TypeEntry}, p.types.entries[i]? = some e →
      Returns (ConstantPool.onTypes (TypeTable.entry i)) p e p := fun hi =>
    ConstantPool.returns_onTypes.2 ⟨p.types, TypeTable.returns_entry.2 ⟨hi, rfl⟩, rfl⟩
  obtain ⟨dimensions, element⟩ := t
  cases element with
  | base b =>
    obtain rfl : x = if dimensions = 0 then ofBase b else ⟨dimensions, .base b⟩ := hx
    cases dimensions with
    | zero => cases b <;> exact ⟨_, p, rfl⟩
    | succ n =>
      rw [if_neg (Nat.succ_ne_zero n)]
      unfold verificationType
      dsimp only
      rw [if_pos (by omega)]
      exact harray _ _
  | object name =>
    obtain ⟨i, rfl, hi⟩ := hx
    cases dimensions with
    | zero =>
      obtain ⟨j, p', hj⟩ := exists_classRef name hroom
      exact ⟨.object j, p', returns_bind.2 ⟨_, p, hentry hi, returns_bind.2 ⟨j, p', hj,
        returns_pure.2 ⟨rfl, rfl⟩⟩⟩⟩
    | succ n =>
      obtain ⟨v, p', hv⟩ := harray (n + 1) (.object name)
      refine ⟨v, p', ?_⟩
      unfold verificationType
      dsimp only
      rw [if_pos (by omega)]
      refine returns_bind.2 ⟨_, p, hentry hi, ?_⟩
      simp only [TypeEntry.name, ht name rfl, Bool.false_eq_true, if_false]
      exact hv

/-- **It is written as the descriptor says.** -/
theorem Carries.mapType? (hx : x.Carries T t) (ht : t.Proper) :
    x.mapType? T = some (t.writtenAs t.text) := by
  rw [← FieldType.mapType?_eq ht]
  obtain ⟨dimensions, element⟩ := t
  cases element with
  | base b =>
    obtain rfl : x = if dimensions = 0 then ofBase b else ⟨dimensions, .base b⟩ := hx
    cases dimensions with
    | zero => cases b <;> rfl
    | succ n => rfl
  | object name =>
    obtain ⟨i, rfl, hi⟩ := hx
    show (T.entries[i]?).bind (fun e => FieldType.mapType? ⟨dimensions, .object e.name⟩) = _
    rw [hi]
    rfl

/-! ## 4. Arrays of values -/

/-- An entry has one dimension less. -/
theorem entry_mk {dimensions : Nat} {kind : SlotKind} (hkind : kind ≠ .null)
    (hdims : dimensions ≤ 127) :
    (⟨(dimensions + 1 : Nat), kind⟩ : SlotType).entry = ⟨dimensions, kind⟩ := by
  have hless : ((dimensions + 1 : Nat) : Int) + -1 = dimensions := by omega
  simp only [entry, extend, hkind, or_false, hless]
  rw [if_neg (by decide), if_pos (by split <;> omega)]

/-- The entries of an array of references are what is put into it. -/
theorem Carries.entry {a : SlotType} (hT : T.Sound h) (href : t.base? = none)
    (hdims : t.dimensions ≤ 127) (hx : x.Carries T t) (ha : a.Carries T (t.withDimensions 1)) :
    a.entry = x := by
  rw [FieldType.withDimensions_one hdims] at ha
  obtain ⟨dimensions, element⟩ := t
  cases element with
  | base b =>
    obtain rfl : x = if dimensions = 0 then ofBase b else ⟨dimensions, .base b⟩ := hx
    obtain rfl : a = ⟨(dimensions + 1 : Nat), .base b⟩ := ha
    cases dimensions with
    | zero => cases href
    | succ n => exact entry_mk nofun hdims
  | object name =>
    obtain ⟨i, rfl, hi⟩ := hx
    obtain ⟨j, rfl, hj⟩ := ha
    rw [hT.index_unique hi hj]
    exact entry_mk nofun hdims

end SlotType

namespace Frame

variable {h : Hierarchy} {T : TypeTable} {t : FieldType}

/-- **Making an array of values** leaves the type of such arrays in the place of their number. -/
theorem returns_newArray (hT : T.Sound h) {d : String} (hd : FieldType.parse d = .ok t)
    (ht : t.Proper) (hdims : t.dimensions < 127) (offset : Nat) (f : Frame) {τ : Type} :
    ∃ a T', Returns₂ (step offset (t.newArray : Instruction τ)) f T () ((f.drop 1).push a) T' ∧
      T'.Sound h ∧ T ≤ T' ∧ a.Carries T' (t.withDimensions 1) := by
  obtain ⟨-, rfl⟩ := FieldType.parse_eq_ok_iff.1 hd
  have harray := FieldType.dimensions_arrayOf_le hdims
  obtain ⟨dimensions, element⟩ := t
  cases dimensions with
  | zero =>
    cases element with
    | base b =>
      refine ⟨⟨1, .base b⟩, T, ?_, hT, TypeTable.le_refl T, rfl⟩
      cases b <;> rfl
    | object name =>
      obtain ⟨i, T', hi, hs, hle, hentry⟩ := hT.intern (.initialized name)
      refine ⟨⟨1, .object i⟩, T', ?_, hs, hle, i, rfl, hentry⟩
      show Returns₂ (typeOperand Opcode.anewarray offset name) f T () _ T'
      simp only [typeOperand, show Opcode.anewarray ≠ Opcode.new by decide, if_false, if_true,
        ht name rfl, Bool.false_eq_true]
      refine returns₂_bind.2 ⟨(), f.drop 1, T, rfl, ?_⟩
      refine returns₂_bind.2 ⟨_, _, T', returns₂_onTypes.2 ⟨returns_bind.2 ⟨i, T', hi, rfl⟩, rfl⟩, ?_⟩
      rfl
  | succ n =>
    obtain ⟨a, T', hret, hs, hle, ha⟩ := SlotType.returns_ofFieldType hT
      (t := (FieldType.mk (n + 1) element).withDimensions 1) harray
    refine ⟨a, T', ?_, hs, hle, ha⟩
    have hname : Descriptor.isArrayName (FieldType.mk (n + 1) element).text = true := by
      simp [Descriptor.isArrayName, String.front?_eq, FieldType.text, FieldType.render,
        List.replicate_succ]
    show Returns₂ (typeOperand Opcode.anewarray offset (FieldType.mk (n + 1) element).text) f T ()
      _ T'
    simp only [typeOperand, show Opcode.anewarray ≠ Opcode.new by decide, if_false, if_true,
      hname]
    refine returns₂_bind.2 ⟨(), f.drop 1, T, rfl, ?_⟩
    unfold pushDescriptor
    rw [SlotType.ofDescriptor_eq (FieldType.parse_arrayOf hd hdims.le)]
    refine returns₂_bind.2 ⟨some a, _, T', returns₂_onTypes.2 ⟨returns_map.2 ⟨a, hret, rfl⟩, rfl⟩, ?_⟩
    refine returns₂_modify.2 ⟨?_, rfl⟩
    rw [pushValue, ha.isWide_eq_false rfl]
    rfl

/-- What is pushed on the same stack gives the same stack. -/
theorem pushValue_congr {f g : Frame} (x : SlotType) (hstack : f.stack = g.stack)
    (htaken : f.taken = g.taken) :
    (f.pushValue x).stack = (g.pushValue x).stack ∧ (f.pushValue x).taken = (g.pushValue x).taken := by
  unfold pushValue
  split
  · exact ⟨congrArg (fun s => (s.push x).push .top) hstack, htaken⟩
  · exact ⟨congrArg (·.push x) hstack, htaken⟩

/-- What is put on the stack above an array and a number, in the place of both. -/
theorem stack_drop_push_push (f : Frame) (a t : SlotType) :
    (((f.push a).push t).drop 2).stack = f.stack ∧ (((f.push a).push t).drop 2).taken = f.taken := by
  constructor
  · show ((f.stack.push a).push t).shrink (((f.stack.push a).push t).size - 2) = f.stack
    simp
  · show f.taken + (2 - ((f.stack.push a).push t).size) = f.taken
    simp

theorem stack_loadEntry (f : Frame) (a t : SlotType) :
    ((f.push a).push t).loadEntry.stack = f.stack.push a.entry ∧
      ((f.push a).push t).loadEntry.taken = f.taken := by
  have hdrop : ((f.stack.push a).push t).shrink (((f.stack.push a).push t).size - 1) =
      f.stack.push a := by
    simp
  have htaken : f.taken + (1 - ((f.stack.push a).push t).size) = f.taken := by
    simp
  have hdropped : ((f.push a).push t).drop 1 = ⟨f.entry, f.locals, f.stack.push a, f.taken,
      ((f.push a).push t).peak, f.constructed⟩ := by
    rw [← hdrop]
    exact congrArg (fun n => (⟨_, _, _, n, _, _⟩ : Frame)) htaken
  rw [loadEntry, hdropped]
  simp [pop, push]

/-- **Loading an entry of an array of values** with the instruction for such values puts one of them in
the place of the array. -/
theorem returns_loadEntry (hT : T.Sound h) {x a : SlotType} (hdims : t.dimensions ≤ 127)
    (hx : x.Carries T t) (ha : a.Carries T (t.withDimensions 1)) (offset : Nat) (f : Frame)
    {τ : Type} :
    ∃ f', Returns₂ (do
        step offset (.simple Opcode.iconst0 : Instruction τ)
        step offset (.simple (t.opcode Opcode.iaload) : Instruction τ)) (f.push a) T () f' T ∧
      f'.stack = (f.pushValue x).stack ∧ f'.taken = (f.pushValue x).taken := by
  have hindex : ∀ f : Frame, applyEffect ⟨0, some .int⟩ f = f.push .int := by
    rintro ⟨entry, locals, stack, taken, peak, constructed⟩
    simp [applyEffect, drop, pushValue, SlotType.isWide, SlotType.int, SlotType.scalar]
  have hload : ∀ change : Frame → Frame, plain? (t.opcode Opcode.iaload) = some change →
      Returns₂ (do
        step offset (.simple Opcode.iconst0 : Instruction τ)
        step offset (.simple (t.opcode Opcode.iaload) : Instruction τ)) (f.push a) T ()
        (change ((f.push a).push .int)) T := by
    intro change hop
    refine returns₂_bind.2 ⟨(), (f.push a).push .int, T, ?_, ?_⟩
    · exact returns₂_modify.2 ⟨hindex _, rfl⟩
    · show Returns₂ (plain _) _ _ _ _ _
      rw [plain, hop]
      exact returns₂_modify.2 ⟨rfl, rfl⟩
  cases hbase : t.base? with
  | some b =>
    obtain ⟨dimensions, element⟩ := t
    obtain ⟨rfl, rfl⟩ : dimensions = 0 ∧ element = .base b := by
      cases dimensions <;> cases element <;> simp_all [FieldType.base?]
    obtain rfl : x = SlotType.ofBase b := hx
    refine ⟨_, hload (applyEffect ⟨2, some (SlotType.ofBase b)⟩) (by cases b <;> rfl), ?_⟩
    obtain ⟨hstack, htaken⟩ := stack_drop_push_push f a .int
    exact pushValue_congr _ hstack htaken
  | none =>
    have hop : t.opcode Opcode.iaload = Opcode.aaload := by
      unfold FieldType.opcode
      rw [hbase]
      rfl
    refine ⟨_, hload loadEntry (by rw [hop]; rfl), ?_⟩
    obtain ⟨hstack, htaken⟩ := stack_loadEntry f a .int
    rw [hstack, htaken, hx.entry hT hbase hdims ha, pushValue, hx.isWide_eq_false hbase]
    exact ⟨rfl, rfl⟩

end Frame

/-! ## 5. What descriptors stand for -/

/-- **The type of a slot names the type it comes from.**  If that has more than 127 dimensions, it is
refused.  Otherwise it has a type, which is wide for `long` and `double` alone; in a stack map it is
written as the descriptor says; and with room for one more dimension, an array of such values has the
type of the longer descriptor, and what is loaded from it is the type of its entries again. -/
theorem SlotType.ofDescriptor_names {h : Hierarchy} {T : TypeTable} (hT : T.Sound h) {d : String}
    {t : FieldType} (hd : FieldType.parse d = .ok t) (ht : t.Proper) :
    (127 < t.dimensions → ∃ T', Fails (ofDescriptor d) T (.malformedDescriptor d) T') ∧
    (t.dimensions ≤ 127 → ∃ x T', Returns (ofDescriptor d) T (some x) T' ∧ T'.Sound h ∧
      (x.isWide = true ↔ d = "J" ∨ d = "D") ∧
      (∀ p : ConstantPool, p.Sound h → T' ≤ p.types →
        (p.records.nextOffset + 2 ≤ 65535 → ∃ v p', Returns x.verificationType p v p') ∧
        ∀ v p', Returns x.verificationType p v p' →
          v.mapType? p'.className? = some (t.writtenAs d)) ∧
      (t.dimensions < 127 → ∀ T₁ : TypeTable, T₁.Sound h → T' ≤ T₁ → ∀ (f : Frame) (offset : Nat),
        ∃ a f' T₂ T₃,
          Returns₂ (Frame.step offset (t.newArray : Instruction Label)) f T₁ ()
            ((f.drop 1).push a) T₂ ∧
          Returns (ofDescriptor ("[" ++ d)) T₂ (some a) T₃ ∧
          Returns₂ (do
              Frame.step offset (.simple Opcode.iconst0 : Instruction Label)
              Frame.step offset (.simple (t.opcode Opcode.iaload) : Instruction Label))
            ((f.drop 1).push a) T₂ () f' T₂ ∧
          f'.stack = ((f.drop 1).pushValue x).stack ∧
          f'.taken = ((f.drop 1).pushValue x).taken)) := by
  refine ⟨fun hdeep => ofDescriptor_of_deep hd hdeep T, fun hdims => ?_⟩
  obtain ⟨x, T', hret, hs, -, hx⟩ := returns_ofFieldType hT hdims
  refine ⟨x, T', ofDescriptor_eq hd ▸ returns_map.2 ⟨x, hret, rfl⟩, hs, isWide_iff hd hret, ?_, ?_⟩
  · intro p hp hle
    refine ⟨(hx.later hle).exists_verificationType ht, fun v p' hv => ?_⟩
    obtain ⟨-, hle', m, hm, hspelled⟩ := says_verificationType hp hv
    have hsays := (hx.later (TypeTable.le_trans hle hle'.types)).mapType? ht
    rw [hspelled, ← hm, hsays, ← (FieldType.parse_eq_ok_iff.1 hd).2]
  · intro hdims' T₁ hT₁ hle f offset
    obtain ⟨a, T₂, hmake, hT₂, hle₂, ha⟩ := Frame.returns_newArray hT₁ hd ht hdims' offset f
    obtain ⟨T₃, hlonger⟩ := ha.returns hT₂ (FieldType.dimensions_arrayOf_le hdims')
      (FieldType.parse_arrayOf hd hdims)
    obtain ⟨f', hload, hstack, htaken⟩ := Frame.returns_loadEntry hT₂ hdims
      (hx.later (TypeTable.le_trans hle hle₂)) ha offset (f.drop 1)
    exact ⟨a, f', T₂, T₃, hmake, hlonger, hload, hstack, htaken⟩

/-- Arrays of arrays of strings. -/
theorem SlotType.ofDescriptor_names_strings :
    let d := "[[Ljava/lang/String;"
    let t : FieldType := ⟨2, .object "java/lang/String"⟩
    FieldType.parse d = .ok t ∧ ∃ x T', Returns (ofDescriptor d) TypeTable.empty (some x) T' ∧
      x.isWide = false ∧
      (∃ v p', Returns x.verificationType { ConstantPool.empty with types := T' } v p' ∧
        v.mapType? p'.className? = some (.object d)) ∧
      ∃ a f' T₂ T₃,
        Returns₂ (Frame.step 0 (.type Opcode.anewarray d : Instruction Label)) Frame.empty T' ()
          ((Frame.empty.drop 1).push a) T₂ ∧
        Returns (ofDescriptor "[[[Ljava/lang/String;") T₂ (some a) T₃ ∧
        Returns₂ (do
            Frame.step 0 (.simple Opcode.iconst0 : Instruction Label)
            Frame.step 0 (.simple Opcode.aaload : Instruction Label))
          ((Frame.empty.drop 1).push a) T₂ () f' T₂ ∧
        f'.stack = #[x] := by
  intro d t
  have hd : FieldType.parse d = .ok t := FieldType.parse_eq_ok_iff.2 ⟨⟨by decide, by decide⟩, by decide⟩
  have ht : t.Proper := by
    rintro _ ⟨⟩
    decide
  obtain ⟨-, hshallow⟩ := ofDescriptor_names (TypeTable.sound_empty .empty) hd ht
  obtain ⟨x, T', hx, hT', hwide, hwritten, harray⟩ := hshallow (by decide)
  have hnarrow : x.isWide = false := by
    rw [Bool.eq_false_iff, Ne, hwide]
    decide
  have hp : ({ ConstantPool.empty with types := T' } : ConstantPool).Sound .empty :=
    { ConstantPool.sound_empty .empty with types := hT' }
  obtain ⟨hroom, hsays⟩ := hwritten _ hp (TypeTable.le_refl T')
  obtain ⟨v, p', hv⟩ := hroom (show 1 + 2 ≤ 65535 by decide)
  obtain ⟨a, f', T₂, T₃, hmake, hlonger, hload, hstack, -⟩ :=
    harray (by decide) T' hT' (TypeTable.le_refl T') Frame.empty 0
  refine ⟨hd, x, T', hx, hnarrow, ⟨v, p', hv, hsays v p' hv⟩, a, f', T₂, T₃, hmake, hlonger, hload, ?_⟩
  rw [hstack, Frame.pushValue, hnarrow]
  rfl

/-- An array can have more dimensions than a slot. -/
theorem SlotType.not_returns_ofDescriptor_128 :
    let d := String.ofList (List.replicate 128 '[' ++ ['I'])
    FieldType.parse d = .ok ⟨128, .base .int⟩ ∧ 128 ≤ 255 ∧
      ¬ ∃ x T', Returns (ofDescriptor d) TypeTable.empty x T' := by
  intro d
  have hd : FieldType.parse d = .ok ⟨128, .base .int⟩ := FieldType.parse_eq_ok_iff.2 ⟨trivial, rfl⟩
  refine ⟨hd, by decide, ?_⟩
  rintro ⟨x, T', hret⟩
  obtain ⟨T₁, hfails⟩ := ofDescriptor_of_deep hd (by decide) TypeTable.empty
  exact nomatch (Prod.ext_iff.1 (hfails.symm.trans hret)).1

end ClassFile
