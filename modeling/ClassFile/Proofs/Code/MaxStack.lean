/-
# The height that is written for a method

The attribute of a method's code begins with a height that bounds the stack of its routine, whether only
heights are recorded or frames (`ClassWriter.Run.maxStack_of_method`).
-/
import ClassFile.Proofs.Code.HandlerTable

namespace ClassFile

/-! ## 1. Methods -/

/-- **The height that is written bounds the stack** of a method, in a class that is being written.  The
events of the method end with its end, each label is placed once, no debug label is used, and each
instruction says how many slots it takes and leaves.  It takes no more than there are, and no height goes
beyond what 32 bits hold.

Where only heights are recorded, the label that ends what a handler covers must come in before any other
label at its place: the blocks that are covered are counted up to the one of this label, the empty ones too.
Where there are frames, inference must have come to an end, as it does if the hierarchy has a root. -/
theorem ClassWriter.Run.maxStack_of_method {options : WriterOptions} {w w₁ : ClassWriter}
    {p p₁ p' : ConstantPool} {m m' : MethodWriter} {info : MethodInfo} {body : List MethodEvent}
    (hrun : Run options w p) (hstart : Returns (w.startMethod info) p (m, w₁) p₁)
    (hcode : .code ∈ body) (hopen : .finish ∉ body)
    (hplaced : (body.filterMap MethodEvent.placed?).Nodup)
    (hused : ∀ e ∈ body, ∀ l ∈ e.used, l.debug = false)
    (huse : ∀ i, .instruction i ∈ body → i.stackUse?.isSome = true)
    (hret : Returns (m.events w₁.context (body ++ [.finish])) p₁ m' p')
    (hcovered : (Routine.of body).Covered) (hheld : (Routine.of body).Below (2 ^ 31 - 1))
    (hsteady : (Routine.of body).Steady)
    (hends : w.context.mode = .maxStack → (Routine.of body).EndsFirst)
    (hended : w.context.mode = .frames →
      options.hierarchy.Rooted ∨ BlockGraph.Finished m'.code.graph.blocks) :
    ∃ code others n,
      m'.table = w.methods.add info.access m.header.name m.header.descriptor (code :: others) ∧
      code.payload.u16At 0 = .ok n ∧ (Routine.of body).FitsIn n := by
  obtain ⟨hp, rfl⟩ := hrun.sound
  obtain ⟨hstart', rfl⟩ := ClassWriter.returns_startMethod.1 hstart
  obtain ⟨slots, hm, hinfo, htable⟩ := MethodWriter.returns_start hstart'
  obtain ⟨hs₁, -⟩ := MethodWriter.leads_start _ _ _ _ _ _ hstart' hp
  have hmeasured : CodeWriter.Measured w.options.hierarchy w.context.mode [] .empty m.code p₁ :=
    hm ▸ CodeWriter.measured_start hs₁ _ slots
  obtain ⟨m₂, p₂, hevents, hfinish⟩ := MethodWriter.returns_events_append.1 hret
  obtain ⟨done, hmeasured₂⟩ := MethodWriter.measured_events hmeasured hopen hplaced
    (fun _ _ => List.not_mem_nil) hused huse hevents
  obtain ⟨hheader, htable₂, hhas⟩ := MethodWriter.header_events hopen hevents
  obtain ⟨m₃, p₃, hend, hnil⟩ := MethodWriter.returns_events_cons.1 hfinish
  obtain ⟨rfl, rfl⟩ := returns_pure.1 hnil
  obtain ⟨attributes, others, p₄, hcodeAttribute, htable₃, -⟩ :=
    MethodWriter.returns_finish (h := w.options.hierarchy) hend
  rcases MethodWriter.returns_codeAttribute hcodeAttribute with ⟨-, code, rfl, hcodeFinish⟩ | ⟨hno, -⟩
  · obtain ⟨n, hn, hfits⟩ := hmeasured₂.finish (Routine.places_sorted body) hends hcovered hheld hsteady
      (fun _ => rfl) hcodeFinish hended
    refine ⟨code, others, n, ?_, hn, hfits⟩
    rw [htable₃, htable₂, htable, hheader, hinfo]
    rfl
  · rw [hhas.2 (.inr hcode)] at hno
    exact nomatch hno

/-! ## 2. A jump to a handler -/

/-- A jump to a handler that throws again what it gets, from what it covers. -/
def jumpedBody : List MethodEvent :=
  [.code, .handler ⟨0, false⟩ ⟨1, false⟩ ⟨1, false⟩ none, .label ⟨0, false⟩,
    .instruction (.simple Opcode.aconstNull), .instruction (.jump Opcode.goto ⟨1, false⟩),
    .label ⟨1, false⟩, .instruction (.simple Opcode.athrow)]

/-- Control gets to each place with one height, if it does so in a list of all that it gets to. -/
theorem Routine.steady_of_mem {r : Routine} {heights : List (Nat × Int)}
    (hr : ∀ k x, r.Reaches k x → (k, x) ∈ heights)
    (hone : ∀ p ∈ heights, ∀ q ∈ heights, p.1 = q.1 → p.2 = q.2) : r.Steady :=
  fun k x y _ hx hy => hone _ (hr k x hx) _ (hr k y hy) rfl

section Heights

variable {k : Nat} {x : Int} {i : Instruction Label} {u : StackUse}

theorem place_jumped (hk : (⟨1, false⟩, k) ∈ (Routine.of jumpedBody).places) : k = 2 := by
  have hk : ((⟨1, false⟩ : Label), k) ∈ [((⟨0, false⟩ : Label), 0), (⟨1, false⟩, 2)] := hk
  simpa using hk

theorem heights_jumped (hk : (Routine.of jumpedBody).Reaches k x) :
    (k, x) ∈ [(0, (0 : Int)), (1, 1), (2, 1)] := by
  induction hk with
  | entry => decide
  | @next k x i u _ hi hu hfalls ih =>
    simp only [List.mem_cons, Prod.mk.injEq, List.not_mem_nil, or_false] at ih
    obtain ⟨rfl, rfl⟩ | ⟨rfl, rfl⟩ | ⟨rfl, rfl⟩ := ih
    · cases hi; cases hu; decide
    · cases hi; exact nomatch hfalls
    · cases hi; exact nomatch hfalls
  | @jump k t x i u l _ hi hu hl ht ih =>
    simp only [List.mem_cons, Prod.mk.injEq, List.not_mem_nil, or_false] at ih
    obtain ⟨rfl, rfl⟩ | ⟨rfl, rfl⟩ | ⟨rfl, rfl⟩ := ih
    · cases hi; exact absurd hl List.not_mem_nil
    · cases hi; cases hu
      obtain rfl := List.mem_singleton.1 hl
      obtain rfl := place_jumped ht
      decide
    · cases hi; exact absurd hl List.not_mem_nil
  | @throw k a b t x s _ hs _ _ _ _ ht _ =>
    obtain rfl := List.mem_singleton.1 hs
    obtain rfl := place_jumped ht
    decide

theorem heights_rethrown (hk : (Routine.of rethrownBody).Reaches k x) :
    (k, x) ∈ [(0, (0 : Int)), (1, 1), (2, 0), (3, 1)] := by
  induction hk with
  | entry => decide
  | @next k x i u _ hi hu hfalls ih =>
    simp only [List.mem_cons, Prod.mk.injEq, List.not_mem_nil, or_false] at ih
    obtain ⟨rfl, rfl⟩ | ⟨rfl, rfl⟩ | ⟨rfl, rfl⟩ | ⟨rfl, rfl⟩ := ih
    · cases hi; cases hu; decide
    · cases hi; cases hu; decide
    · cases hi; exact nomatch hfalls
    · cases hi; exact nomatch hfalls
  | @jump k t x i u l _ hi hu hl ht ih =>
    simp only [List.mem_cons, Prod.mk.injEq, List.not_mem_nil, or_false] at ih
    obtain ⟨rfl, rfl⟩ | ⟨rfl, rfl⟩ | ⟨rfl, rfl⟩ | ⟨rfl, rfl⟩ := ih <;> cases hi <;>
      exact absurd hl List.not_mem_nil
  | @throw k a b t x s _ hs _ _ _ _ ht _ =>
    obtain rfl := List.mem_singleton.1 hs
    have ht : ((⟨1, false⟩ : Label), t) ∈ [((⟨0, false⟩ : Label), 0), (⟨1, false⟩, 3)] := ht
    obtain rfl : t = 3 := by simpa using ht
    decide

/-- What the instructions take of the stack. -/
theorem uses_jumped (hk : (Routine.of jumpedBody).Reaches k x)
    (hi : (Routine.of jumpedBody).code[k]? = some i) (hu : i.stackUse? = some u) :
    (u.taken : Int) ≤ x ∧ x ≤ 1 ∧ x + u.net ≤ 1 := by
  have hx := heights_jumped hk
  simp only [List.mem_cons, Prod.mk.injEq, List.not_mem_nil, or_false] at hx
  obtain ⟨rfl, rfl⟩ | ⟨rfl, rfl⟩ | ⟨rfl, rfl⟩ := hx <;> cases hi <;> cases hu <;> decide

theorem uses_rethrown (hk : (Routine.of rethrownBody).Reaches k x)
    (hi : (Routine.of rethrownBody).code[k]? = some i) (hu : i.stackUse? = some u) :
    (u.taken : Int) ≤ x ∧ x ≤ 1 ∧ x + u.net ≤ 1 := by
  have hx := heights_rethrown hk
  simp only [List.mem_cons, Prod.mk.injEq, List.not_mem_nil, or_false] at hx
  obtain ⟨rfl, rfl⟩ | ⟨rfl, rfl⟩ | ⟨rfl, rfl⟩ | ⟨rfl, rfl⟩ := hx <;> cases hi <;> cases hu <;> decide

end Heights

/-- The label in front of the end of what the handler covers has another place. -/
theorem endsFirst_jumped : (Routine.of jumpedBody).EndsFirst := by
  intro s hs front behind b hplaces q hq
  obtain rfl := List.mem_singleton.1 hs
  have hplaces : [((⟨0, false⟩ : Label), 0), (⟨1, false⟩, 2)] = front ++ (⟨1, false⟩, b) :: behind := hplaces
  rcases front with _ | ⟨x, _ | ⟨y, front⟩⟩
  · exact absurd hq List.not_mem_nil
  · obtain rfl := List.mem_singleton.1 hq
    cases hplaces
    decide
  · simp at hplaces

/-- Labels that are mentioned are placed, and no debug label is used. -/
theorem placed_jumped : ∀ e ∈ jumpedBody.tail, ∀ l ∈ e.branches ++ e.noted, .label l ∈ jumpedBody.tail := by
  have hlabels : ∀ l ∈ [⟨0, false⟩, ⟨1, false⟩], .label l ∈ jumpedBody.tail := by simp [jumpedBody]
  have hmentions : ∀ e ∈ jumpedBody.tail, ∀ l ∈ e.branches ++ e.noted, l ∈ [⟨0, false⟩, ⟨1, false⟩] := by
    decide
  exact fun e he l hl => hlabels l (hmentions e he l hl)

theorem plain_jumped : ∀ e ∈ jumpedBody.tail, e.Plain := by
  simp only [jumpedBody, List.tail_cons, List.forall_mem_cons, MethodEvent.Plain, true_and]
  exact ⟨by decide, by decide +kernel, by decide, fun _ he => absurd he List.not_mem_nil⟩

/-- The height that is written where only heights are recorded, for a jump to a handler, and the one that is
written with frames, for a handler that throws again what it catches. -/
theorem ClassWriter.Run.maxStack_of_method_jumped :
    (∃ name descriptor p m' p',
      Returns ((ClassWriter.start ⟨.maxStack, .empty⟩).startMethod staticInfo) .empty
        (staticWriter name descriptor false (.start .maxStack 0), ClassWriter.start ⟨.maxStack, .empty⟩) p ∧
      Returns (MethodWriter.events (ClassWriter.start ⟨.maxStack, .empty⟩).context
        (staticWriter name descriptor false (.start .maxStack 0)) (jumpedBody ++ [.finish])) p m' p' ∧
      ∃ code others n, m'.table = MemberTable.empty.add 8 name descriptor (code :: others) ∧
        code.payload.u16At 0 = .ok n ∧ (Routine.of jumpedBody).FitsIn n) ∧
    ∃ name descriptor p m' p',
      Returns ((ClassWriter.start ⟨.frames, .empty⟩).startMethod staticInfo) .empty
        (staticWriter name descriptor false (.start .frames 0), ClassWriter.start ⟨.frames, .empty⟩) p ∧
      Returns (MethodWriter.events (ClassWriter.start ⟨.frames, .empty⟩).context
        (staticWriter name descriptor false (.start .frames 0)) (rethrownBody ++ [.finish])) p m' p' ∧
      ∃ code others n, m'.table = MemberTable.empty.add 8 name descriptor (code :: others) ∧
        code.payload.u16At 0 = .ok n ∧ (Routine.of rethrownBody).FitsIn n := by
  constructor
  · obtain ⟨name, descriptor, p, m', p', hstart, hret⟩ :=
      MethodWriter.written_plain plain_jumped (by decide) placed_jumped (by decide)
    have hopen : .finish ∉ jumpedBody := by simp [jumpedBody]
    have hused : ∀ e ∈ jumpedBody, ∀ l ∈ e.used, l.debug = false := by
      simp [jumpedBody, MethodEvent.used, Instruction.targets]
    have huse : ∀ i, .instruction i ∈ jumpedBody → i.stackUse?.isSome = true := by
      intro i hi
      simp only [jumpedBody, List.mem_cons, List.not_mem_nil, or_false, reduceCtorEq,
        MethodEvent.instruction.injEq, false_or] at hi
      obtain rfl | rfl | rfl := hi <;> rfl
    have hmax := ClassWriter.Run.maxStack_of_method .fresh hstart List.mem_cons_self hopen (by decide) hused
      huse hret (fun _ _ _ _ hk hi hu => (uses_jumped hk hi hu).1)
      (fun _ _ _ _ hk hi hu => by have := uses_jumped hk hi hu; omega)
      (Routine.steady_of_mem (fun _ _ => heights_jumped) (by decide)) (fun _ => endsFirst_jumped)
      fun h => absurd h (by decide)
    exact ⟨name, descriptor, p, m', p', hstart, hret, hmax⟩
  · obtain ⟨name, descriptor, p, labels, a, i, m', p', hstart, hret, -⟩ := written_rethrown
    have hopen : .finish ∉ rethrownBody := by simp [rethrownBody]
    have huse : ∀ i, .instruction i ∈ rethrownBody → i.stackUse?.isSome = true := by
      intro i hi
      simp only [rethrownBody, List.mem_cons, List.not_mem_nil, or_false, reduceCtorEq,
        MethodEvent.instruction.injEq, false_or] at hi
      obtain rfl | rfl | rfl | rfl := hi <;> rfl
    have hmax := ClassWriter.Run.maxStack_of_method .fresh hstart List.mem_cons_self hopen (by decide)
      used_rethrown huse hret (fun _ _ _ _ hk hi hu => (uses_rethrown hk hi hu).1)
      (fun _ _ _ _ hk hi hu => by have := uses_rethrown hk hi hu; omega)
      (Routine.steady_of_mem (fun _ _ => heights_rethrown) (by decide))
      (fun h => absurd h (by decide))
      fun _ => .inl Hierarchy.rooted_empty
    exact ⟨name, descriptor, p, m', p', hstart, hret, hmax⟩

end ClassFile
