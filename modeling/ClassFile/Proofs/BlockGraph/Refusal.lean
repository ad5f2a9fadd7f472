/-
# Which descriptors the two analyses refuse

Where heights are recorded, the descriptor of an instruction is parsed as the kind of descriptor that the
instruction needs, and everything else is refused.  With frames, the value that an instruction puts on the
stack and the values that it takes are looked up by the first character of the descriptor.  So an access
to a field is possible with the descriptor of a method, whose result or whose arguments then stand for the
value, and a call with the descriptor of a field.

`member_refused_iff` says exactly what is refused, and that both analyses agree about a descriptor unless it is a
well-formed one of the other kind, or stands for nothing where the value of a field is loaded.
-/
import ClassFile.Proofs.BlockGraph.Explore
import ClassFile.Proofs.BlockGraph.HeightStep

namespace ClassFile

/-! ## 1. Answers that depend on a descriptor -/

section

variable {φ τ α β : Type} {descriptor : String} {P Q : Prop}

/-- An operation has refused a descriptor. -/
def Refused (descriptor : String) (x : (Except Error α × φ) × τ) : Prop :=
  x.1.1 = .error (.malformedDescriptor descriptor)

/-- An operation succeeds exactly if `P` is true, and else refuses the descriptor. -/
def Answers (descriptor : String) (P : Prop) (m : ExceptT Error (StateT φ (StateM τ)) α) : Prop :=
  ∀ f t, (P ∧ ∃ a, (m f t : (Except Error α × φ) × τ).1.1 = .ok a) ∨ ¬ P ∧ Refused descriptor (m f t)

theorem Answers.refused_iff {m : ExceptT Error (StateT φ (StateM τ)) α} (h : Answers descriptor P m)
    (f : φ) (t : τ) : Refused descriptor (m f t) ↔ ¬ P := by
  rcases h f t with ⟨hP, a, ha⟩ | ⟨hP, hm⟩
  · refine ⟨fun hm => ?_, fun hn => absurd hP hn⟩
    exact nomatch ha.symm.trans hm
  · exact ⟨fun _ => hP, fun _ => hm⟩

theorem Answers.congr {m : ExceptT Error (StateT φ (StateM τ)) α} (h : Answers descriptor P m)
    (hPQ : P ↔ Q) : Answers descriptor Q m := by
  intro f t
  rw [← hPQ]
  exact h f t

theorem answers_modify (g : φ → φ) :
    Answers descriptor True (modify g : ExceptT Error (StateT φ (StateM τ)) PUnit) :=
  fun _ _ => .inl ⟨trivial, ⟨⟩, rfl⟩

theorem answers_pure (a : α) : Answers descriptor True (pure a : ExceptT Error (StateT φ (StateM τ)) α) :=
  fun _ _ => .inl ⟨trivial, a, rfl⟩

/-- A descriptor that has to be well formed. -/
theorem answers_orMalformed (x : Except DescriptorError α) :
    Answers descriptor (∃ a, x = .ok a)
      (liftM (Descriptor.orMalformed descriptor x) : ExceptT Error (StateT φ (StateM τ)) α) := by
  intro f t
  cases x with
  | ok a => exact .inl ⟨⟨a, rfl⟩, a, rfl⟩
  | error e => exact .inr ⟨by simp, rfl⟩

/-- Operations one after the other, of which the first one can say what its answer is. -/
theorem Answers.bind_of {m : ExceptT Error (StateT φ (StateM τ)) α}
    {k : α → ExceptT Error (StateT φ (StateM τ)) β} (hm : Answers descriptor P m)
    (hk : ∀ f t a f' t', Returns₂ m f t a f' t' → Answers descriptor Q (k a)) :
    Answers descriptor (P ∧ Q) (m >>= k) := by
  intro f t
  have hmt := hm f t
  unfold Refused at hmt ⊢
  rw [bind_apply₂]
  rcases hrun : (m f t : (Except Error α × φ) × τ) with ⟨⟨e | a, f'⟩, t'⟩
  · rw [hrun] at hmt
    rcases hmt with ⟨-, a, ha⟩ | ⟨hP, he⟩
    · exact nomatch ha
    · obtain rfl : e = .malformedDescriptor descriptor := Except.error.inj he
      exact .inr ⟨fun h => hP h.1, rfl⟩
  · rw [hrun] at hmt
    rcases hmt with ⟨hP, -⟩ | ⟨-, he⟩
    · rcases hk f t a f' t' hrun f' t' with ⟨hQ, hb⟩ | ⟨hQ, he⟩
      · exact .inl ⟨⟨hP, hQ⟩, hb⟩
      · exact .inr ⟨fun h => hQ h.2, he⟩
    · exact nomatch he

/-- Operations one after the other. -/
theorem Answers.bind {m : ExceptT Error (StateT φ (StateM τ)) α}
    {k : α → ExceptT Error (StateT φ (StateM τ)) β} (hm : Answers descriptor P m)
    (hk : ∀ a, Answers descriptor Q (k a)) : Answers descriptor (P ∧ Q) (m >>= k) :=
  hm.bind_of fun _ _ a _ _ _ => hk a

end

/-! ## 2. Instructions with descriptors -/

namespace Opcode

/-- The instructions that access a field or call a method. -/
def described : List Opcode :=
  [getstatic, putstatic, getfield, putfield, invokevirtual, invokespecial, invokestatic,
    invokeinterface, invokedynamic]

/-- What frames take for the descriptor of an instruction: one of either kind, and that of nothing where
the value of a field is loaded. -/
def Tolerates (op : Opcode) (descriptor : String) : Prop :=
  (∃ t, FieldType.parse descriptor = .ok t) ∨ (∃ t, MethodType.parse descriptor = .ok t) ∨
    (op = getstatic ∨ op = getfield) ∧ descriptor = "V"

theorem Accepts.tolerates {op : Opcode} {descriptor : String} (h : op.Accepts descriptor) :
    op.Tolerates descriptor := by
  unfold Accepts at h
  split at h
  · exact .inl h
  · exact .inr (.inl h)

end Opcode

/-- A descriptor of a value whose dimensions can be counted. -/
structure Descriptor.Shallow (descriptor : String) : Prop where
  field : ∀ t, FieldType.parse descriptor = .ok t → t.dimensions ≤ 127
  result : ∀ t, MethodType.parse descriptor = .ok t → ∀ r ∈ t.result, r.dimensions ≤ 127

/-- The slots of a method are counted wherever its type is parsed. -/
theorem Descriptor.exists_slots_iff {descriptor : String} :
    (∃ slots, argumentAndResultSlots descriptor = .ok slots) ↔
      ∃ t, MethodType.parse descriptor = .ok t := by
  unfold argumentAndResultSlots
  rw [sizes?_eq (ahead_toUTF8 descriptor), ← MethodType.parse]
  cases MethodType.parse descriptor <;> simp [Except.toOption]

/-- The type of a value is found unless it has too many dimensions. -/
theorem SlotType.exists_ofFieldType {t : FieldType} (ht : t.dimensions ≤ 127) (T : TypeTable) :
    ∃ x T', Returns (ofFieldType t) T x T' := by
  have hnot : ¬ 127 < t.dimensions := Nat.not_lt.2 ht
  unfold ofFieldType
  split
  · exact ⟨_, T, rfl⟩
  · cases t.element with
    | base b =>
      simp only [hnot, if_false]
      exact ⟨_, T, rfl⟩
    | object name =>
      simp only [hnot, if_false]
      exact ⟨_, _, rfl⟩

namespace Frame

variable {descriptor : String}

/-- **What a descriptor stands for** on the stack: a method's stands for its result, and a void one for
nothing. -/
theorem ofDescriptor_cases (hd : Descriptor.Shallow descriptor) (T : TypeTable) :
    (((∃ t, FieldType.parse descriptor = .ok t) ∨ (∃ t, MethodType.parse descriptor = .ok t) ∨
        descriptor = "V") ∧ ∃ x T', Returns (SlotType.ofDescriptor descriptor) T x T') ∨
      (¬ ((∃ t, FieldType.parse descriptor = .ok t) ∨ (∃ t, MethodType.parse descriptor = .ok t) ∨
        descriptor = "V") ∧
        SlotType.ofDescriptor descriptor T = (.error (.malformedDescriptor descriptor), T)) := by
  cases hmethod : Descriptor.isMethod descriptor with
  | true =>
    cases hparse : MethodType.parse descriptor with
    | ok t =>
      refine .inl ⟨.inr (.inl ⟨t, rfl⟩), ?_⟩
      unfold SlotType.ofDescriptor
      rw [hmethod, if_pos rfl, Descriptor.methodResult_eq_ok_iff.2 ⟨t, hparse, rfl⟩]
      cases hr : t.result with
      | none => exact ⟨none, T, returns_bind.2 ⟨none, T, rfl, rfl⟩⟩
      | some r =>
        obtain ⟨x, T', hx⟩ := SlotType.exists_ofFieldType (hd.result t hparse r hr) T
        exact ⟨some x, T', returns_bind.2 ⟨some r, T, rfl, returns_bind.2 ⟨x, T', hx, rfl⟩⟩⟩
    | error e =>
      refine .inr ⟨?_, ?_⟩
      · rintro (⟨t, ht⟩ | ⟨t, ht⟩ | rfl)
        · cases hmethod.symm.trans (Descriptor.isMethod_of_field ht).1
        · cases ht
        · exact absurd hmethod (by decide)
      · unfold SlotType.ofDescriptor
        rw [hmethod, if_pos rfl, Descriptor.methodResult_eq, Descriptor.methodType, hparse]
        rfl
  | false =>
    by_cases hvoid : descriptor = "V"
    · refine .inl ⟨.inr (.inr hvoid), none, T, ?_⟩
      unfold SlotType.ofDescriptor
      rw [hmethod, if_neg Bool.false_ne_true, if_pos hvoid]
      rfl
    cases hparse : FieldType.parse descriptor with
    | ok t =>
      obtain ⟨x, T', hx⟩ := SlotType.exists_ofFieldType (hd.field t hparse) T
      refine .inl ⟨.inl ⟨t, rfl⟩, some x, T', ?_⟩
      unfold SlotType.ofDescriptor
      rw [hmethod, if_neg Bool.false_ne_true, if_neg hvoid, Descriptor.fieldType_eq_ok_iff.2 hparse]
      exact returns_bind.2 ⟨t, T, rfl, returns_bind.2 ⟨x, T', hx, rfl⟩⟩
    | error e =>
      refine .inr ⟨?_, ?_⟩
      · rintro (⟨t, ht⟩ | ⟨t, ht⟩ | h)
        · cases ht
        · cases hmethod.symm.trans (Descriptor.isMethod_of_method ht)
        · exact hvoid h
      · unfold SlotType.ofDescriptor Descriptor.fieldType Descriptor.orMalformed
        rw [hmethod, if_neg Bool.false_ne_true, if_neg hvoid, hparse]
        rfl

/-- A value that stands for a descriptor of either kind, or for none. -/
theorem answers_pushDescriptor (hd : Descriptor.Shallow descriptor) :
    Answers descriptor ((∃ t, FieldType.parse descriptor = .ok t) ∨
      (∃ t, MethodType.parse descriptor = .ok t) ∨ descriptor = "V") (pushDescriptor descriptor) := by
  intro f T
  rcases ofDescriptor_cases hd T with ⟨hformed, x, T', hx⟩ | ⟨hformed, hx⟩
  · refine .inl ⟨hformed, ?_⟩
    unfold pushDescriptor
    rw [bind_apply₂, (returns₂_onTypes.2 ⟨hx, rfl⟩ : onTypes _ f T = _)]
    cases x <;> exact ⟨(), rfl⟩
  · refine .inr ⟨hformed, ?_⟩
    unfold Refused pushDescriptor onTypes
    rw [bind_apply₂]
    simp only [hx]

/-- Values that stand for a descriptor of either kind. -/
theorem answers_popDescriptor :
    Answers descriptor ((∃ t, FieldType.parse descriptor = .ok t) ∨
      ∃ t, MethodType.parse descriptor = .ok t) (popDescriptor descriptor) := by
  unfold popDescriptor
  cases hmethod : Descriptor.isMethod descriptor with
  | true =>
    rw [if_pos rfl]
    refine ((answers_orMalformed _).bind fun _ => answers_modify _).congr ?_
    rw [and_true, Descriptor.exists_slots_iff]
    refine ⟨.inr, fun h => h.resolve_left ?_⟩
    rintro ⟨t, ht⟩
    exact nomatch hmethod.symm.trans (Descriptor.isMethod_of_field ht).1
  | false =>
    rw [if_neg Bool.false_ne_true]
    refine ((answers_orMalformed _).bind fun _ => answers_modify _).congr ?_
    rw [and_true]
    refine ⟨.inl, fun h => h.resolve_right ?_⟩
    rintro ⟨t, ht⟩
    exact nomatch hmethod.symm.trans (Descriptor.isMethod_of_method ht)

/-- What is taken by a descriptor can be put back by it. -/
theorem answers_arguments (hd : Descriptor.Shallow descriptor) {m : FrameM Unit}
    (hm : Answers descriptor True m) :
    Answers descriptor ((∃ t, FieldType.parse descriptor = .ok t) ∨
      ∃ t, MethodType.parse descriptor = .ok t) (do
        popDescriptor descriptor
        m
        pushDescriptor descriptor : FrameM Unit) := by
  refine (answers_popDescriptor.bind fun _ => hm.bind fun _ => answers_pushDescriptor hd).congr ?_
  rw [true_and]
  exact ⟨And.left, fun h => ⟨h, h.imp_right .inl⟩⟩

/-- **With frames, an instruction takes every descriptor that it tolerates.** -/
theorem answers_member {op : Opcode} (hop : op ∈ Opcode.described) (hd : Descriptor.Shallow descriptor)
    (name : String) : Answers descriptor (op.Tolerates descriptor)
      (if op = Opcode.invokedynamic then dynamicCall descriptor else member op name descriptor) := by
  have hpush := answers_pushDescriptor hd
  have hpop : Answers descriptor ((∃ t, FieldType.parse descriptor = .ok t) ∨
      ∃ t, MethodType.parse descriptor = .ok t) (popDescriptor descriptor) := answers_popDescriptor
  have hreceived : ∀ construction, Answers descriptor ((∃ t, FieldType.parse descriptor = .ok t) ∨
      ∃ t, MethodType.parse descriptor = .ok t) (do
        popDescriptor descriptor
        modify (takeReceiver construction)
        pushDescriptor descriptor : FrameM Unit) :=
    fun construction => answers_arguments hd (answers_modify _)
  have hcalled : Answers descriptor ((∃ t, FieldType.parse descriptor = .ok t) ∨
      ∃ t, MethodType.parse descriptor = .ok t) (dynamicCall descriptor) :=
    answers_arguments hd (answers_pure ())
  have hloads : ∀ {op : Opcode}, op = Opcode.getstatic ∨ op = Opcode.getfield →
      ((∃ t, FieldType.parse descriptor = .ok t) ∨ (∃ t, MethodType.parse descriptor = .ok t) ∨
        descriptor = "V" ↔ op.Tolerates descriptor) := by
    intro op h
    unfold Opcode.Tolerates
    simp only [h, true_and]
  have hother : ∀ {op : Opcode}, ¬ (op = Opcode.getstatic ∨ op = Opcode.getfield) →
      (((∃ t, FieldType.parse descriptor = .ok t) ∨ ∃ t, MethodType.parse descriptor = .ok t) ↔
        op.Tolerates descriptor) := by
    intro op h
    unfold Opcode.Tolerates
    simp only [h, false_and, or_false]
  simp only [Opcode.described, List.mem_cons, List.not_mem_nil, or_false] at hop
  rcases hop with rfl | rfl | rfl | rfl | rfl | rfl | rfl | rfl | rfl
  · exact hpush.congr (hloads (by decide))
  · exact hpop.congr (hother (by decide))
  · refine ((answers_modify _).bind fun _ => hpush).congr ?_
    rw [true_and]
    exact hloads (by decide)
  · refine (hpop.bind fun _ => answers_modify _).congr ?_
    rw [and_true]
    exact hother (by decide)
  · exact (hreceived _).congr (hother (by decide))
  · exact (hreceived _).congr (hother (by decide))
  · exact hcalled.congr (hother (by decide))
  · exact (hreceived _).congr (hother (by decide))
  · exact hcalled.congr (hother (by decide))

end Frame

/-! ## 3. Both analyses -/

namespace BlockGraph

variable {g f : BlockGraph} {i : BlockId} {op : Opcode} {descriptor : String}

/-- Reports an instruction that accesses a field or calls a method. -/
def member (op : Opcode) (name descriptor : String) : GraphM Unit :=
  if op.accessesField then field op name descriptor else call op name descriptor

/-- **Where heights are recorded**, a descriptor has to be of the kind that the instruction needs. -/
theorem member_heights_refused_iff (hg : g.mode = .maxStack) (hcurrent : g.current.isSome = true)
    (name : String) (T : TypeTable) :
    Refused descriptor (member op name descriptor g T) ↔ ¬ op.Accepts descriptor := by
  have hreached := fun act => whenReached_current hcurrent act T
  have hheights := fun frames heights => byMode_heights_apply (g := g) frames heights hg T
  unfold member Opcode.Accepts
  cases op.accessesField with
  | true =>
    rw [if_pos rfl, if_pos rfl]
    unfold field
    rw [hreached, hheights]
    refine Answers.refused_iff (((answers_orMalformed _).bind fun _ => answers_modify _).congr ?_) g T
    rw [and_true]
  | false =>
    rw [if_neg Bool.false_ne_true, if_neg Bool.false_ne_true]
    unfold call
    rw [hreached, hheights]
    refine Answers.refused_iff (((answers_orMalformed _).bind fun _ => answers_modify _).congr ?_) g T
    rw [and_true, Descriptor.exists_slots_iff]

/-- **With frames**, a descriptor may be of either kind. -/
theorem member_frames_refused_iff (hop : op ∈ Opcode.described) (hd : Descriptor.Shallow descriptor)
    (hf : f.mode = .frames) (hcurrent : f.current = some i)
    (hframe : (frameAt f.blocks i).isSome = true) (name : String) (U : TypeTable) :
    Refused descriptor (member op name descriptor f U) ↔ ¬ op.Tolerates descriptor := by
  obtain ⟨F, hF⟩ := Option.isSome_iff_exists.1 hframe
  obtain ⟨b, hb, hbF⟩ := Option.bind_eq_some_iff.1 hF
  have hreached := fun act => whenReached_current (by rw [hcurrent]; rfl : f.current.isSome = true) act U
  have honFrame : member op name descriptor f U = onFrame
      (if op = Opcode.invokedynamic then Frame.dynamicCall descriptor
        else Frame.member op name descriptor) f U := by
    unfold member
    cases hfield : op.accessesField with
    | true =>
      have hne : op ≠ Opcode.invokedynamic := by
        rintro rfl
        exact absurd hfield (by decide)
      rw [if_pos rfl, if_neg hne]
      unfold field
      rw [hreached, byMode_apply _ _ hf]
    | false =>
      rw [if_neg Bool.false_ne_true]
      unfold call
      rw [hreached, byMode_apply _ _ hf]
  rw [honFrame, ← (Frame.answers_member hop hd name).refused_iff F U]
  rcases hact : ((if op = Opcode.invokedynamic then Frame.dynamicCall descriptor
    else Frame.member op name descriptor) F U : (Except Error Unit × Frame) × TypeTable)
    with ⟨⟨r, F'⟩, U'⟩
  rw [onFrame_current hcurrent hb hbF hact]
  exact Iff.rfl

/-- **What both analyses refuse.**  Where heights are recorded, an access to a field or a call refuses each
descriptor that is not a well-formed one of the kind that it needs.  With frames, it refuses those that
are well formed of neither kind, but for that of nothing where the value of a field is loaded.  So they
agree about a descriptor exactly if it is accepted wherever it is tolerated. -/
theorem member_refused_iff (hop : op ∈ Opcode.described) (hd : Descriptor.Shallow descriptor)
    (hg : g.mode = .maxStack) (hgcurrent : g.current.isSome = true) (hf : f.mode = .frames)
    (hfcurrent : f.current = some i) (hframe : (frameAt f.blocks i).isSome = true) (name : String)
    (T U : TypeTable) :
    (Refused descriptor (member op name descriptor g T) ↔ ¬ op.Accepts descriptor) ∧
    (Refused descriptor (member op name descriptor f U) ↔ ¬ op.Tolerates descriptor) ∧
    ((Refused descriptor (member op name descriptor f U) ↔
        Refused descriptor (member op name descriptor g T)) ↔
      (op.Tolerates descriptor → op.Accepts descriptor)) := by
  have hheights : Refused descriptor (member op name descriptor g T) ↔ ¬ op.Accepts descriptor :=
    member_heights_refused_iff hg hgcurrent name T
  have hframes := member_frames_refused_iff hop hd hf hfcurrent hframe name U
  refine ⟨hheights, hframes, ?_⟩
  rw [hheights, hframes, not_iff_not]
  exact ⟨Iff.mp, fun h => ⟨h, Opcode.Accepts.tolerates⟩⟩

theorem shallow_int : Descriptor.Shallow "I" where
  field t ht := by
    have hparse : FieldType.parse "I" = .ok (.base .int) := by decide +kernel
    cases hparse.symm.trans ht
    exact Nat.zero_le _
  result t ht := by
    have hparse : FieldType.parse "I" = .ok (.base .int) := by decide +kernel
    exact absurd ht (Descriptor.not_field_and_method hparse)

/-- A call with the descriptor of a field. -/
theorem member_refused_iff_int :
    Opcode.invokestatic ∈ Opcode.described ∧ Descriptor.Shallow "I" ∧
    (Refused "I" (member Opcode.invokestatic "f" "I" (start .maxStack) .empty) ↔
      ¬ Opcode.invokestatic.Accepts "I") ∧
    (Refused "I" (member Opcode.invokestatic "f" "I" (start .frames) .empty) ↔
      ¬ Opcode.invokestatic.Tolerates "I") := by
  have hop : Opcode.invokestatic ∈ Opcode.described := by decide
  obtain ⟨hheights, hframes, -⟩ := member_refused_iff (i := 0) hop shallow_int (g := start .maxStack) rfl rfl
    (f := start .frames) rfl rfl rfl "f" .empty .empty
  exact ⟨hop, shallow_int, hheights, hframes⟩

/-- The descriptor of a method stands for the value of a field that is loaded, but not where heights are
recorded. -/
theorem refused_differently :
    Refused "()V" (member Opcode.getstatic "f" "()V" (start .maxStack) .empty) ∧
    ¬ Refused "()V" (member Opcode.getstatic "f" "()V" (start .frames) .empty) := by
  unfold Refused
  decide +kernel

end BlockGraph

end ClassFile
