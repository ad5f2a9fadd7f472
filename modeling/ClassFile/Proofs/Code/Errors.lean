/-
# What goes wrong while code is written

In a graph that records only heights, an event that places no label fails for its content only
(`raisesAt_instruction`, `raisesAt_handler`, `raisesAt_localVariable`), and one that places a label fails
only if room that waits for it is too short (`fails_label`).

If the pool has room, and the analysis does not fail, the attribute is refused if room still waits, if the
code is too long, or if a table mentions a label that has no place, in this order (`fails_finish`,
`placed_of_finish`).  The analysis of heights fails for the content only (`raisesAt_analyse`).
-/
import ClassFile.Proofs.Code.Growth

namespace ClassFile

/-! ## 1. Assembling -/

namespace Assembler

theorem raises_append (f : Bytes → Bytes) (a : Assembler) :
    Raises Error.Content ((do append f; return false : AssembleM Bool) a) :=
  (Raises.modify_above _).bind_above fun _ _ => .pure_above _

/-- **Encoding knows nothing of where labels will be.** -/
theorem raises_encode (i : Instruction Label) (a : Assembler) :
    Raises Error.Content (encode i a) := by
  cases i with
  | simple | int | var | increment => exact raises_append _ a
  | type op name =>
    exact (ConstantPool.raises_classRef name).lift_above.bind_above fun _ a => raises_append _ a
  | field op owner name descriptor =>
    exact (ConstantPool.raises_fieldRef owner name descriptor).lift_above.bind_above
      fun _ a => raises_append _ a
  | method op owner name descriptor interface =>
    refine Raises.bind_above ?_ fun _ _ => .pure_above _
    refine (ConstantPool.raises_methodRef owner name descriptor interface).lift_above.bind_above
      fun _ _ => (Raises.modify_above _).bind_above fun _ a => ?_
    split
    · exact (Raises.lift fun _ => Descriptor.content_orMalformed).lift_above.bind_above
        fun _ _ => .modify_above _
    · exact .pure_above _
  | invokeDynamic name descriptor bootstrap arguments =>
    exact (ConstantPool.raises_bootstrapMethod bootstrap arguments).lift_above.bind_above
      fun entry _ => (ConstantPool.raises_invokeDynamic name descriptor entry).lift_above.bind_above
        fun _ a => raises_append _ a
  | jump op goal => exact .pure _
  | constant value =>
    exact (ConstantPool.raises_loadable value).lift_above.bind_above fun _ a => raises_append _ a
  | tableSwitch => exact (Raises.modify_above _).bind_above fun _ _ => .pure_above _
  | lookupSwitch default keys targets =>
    rw [encode]
    dsimp only
    split
    · exact Raises.bind_above (Raises.throw id) fun _ _ =>
        (Raises.modify_above _).bind_above fun _ _ => .pure_above _
    · exact (Raises.modify_above _).bind_above fun _ _ => .pure_above _
  | multiArray descriptor dimensions =>
    exact (ConstantPool.raises_classRef descriptor).lift_above.bind_above fun _ a => raises_append _ a

end Assembler

namespace CodeWriter

variable {w w' : CodeWriter} {p p' : ConstantPool} {l : Label} {e : Error}

/-! ## 2. Events -/

theorem fails_onAssembler {α : Type} {f : AssembleM α} :
    Fails (onAssembler f w) p e p' ↔ Fails (f w.assembler) p e p' := by
  obtain ⟨assembler, graph, handlers, lines, locals, usedLocals, givenStack, givenLocals⟩ := w
  refine fails_bind.trans ⟨fun h => h.resolve_right ?_, .inl⟩
  rintro ⟨_, _, -, h⟩
  cases h

/-- An operation on the graph fails for the reasons that it has itself. -/
theorem error_of_onGraph {α : Type} {f : GraphM α} (h : Fails (onGraph f w) p e p') :
    (f w.graph p.types).1.1 = .error e := by
  obtain ⟨assembler, graph, handlers, lines, locals, usedLocals, givenStack, givenLocals⟩ := w
  obtain ⟨records, lookup, bootstrap, types⟩ := p
  rcases fails_bind.1 h with h | ⟨_, _, -, h⟩
  · rcases hf : (f graph types : (Except Error α × BlockGraph) × TypeTable) with ⟨⟨e' | a, g⟩, T⟩
    · simp only [Fails, ConstantPool.onTypes, hf, Except.map] at h
      cases h
      rfl
    · simp only [Fails, ConstantPool.onTypes, hf, Except.map] at h
      cases h
  · cases h

theorem raisesAt_onGraph {α : Type} {f : GraphM α}
    (hf : ∀ e, (f w.graph p.types).1.1 = .error e → e.Content) :
    RaisesAt Error.Content (onGraph f w) p := fun e _ h => hf e (error_of_onGraph h)

theorem raises_modifyGraph (f : BlockGraph → BlockGraph) (w : CodeWriter) :
    Raises Error.Content (onGraph (modify f) w) := fun _ => raisesAt_onGraph fun _ h => nomatch h

/-- **An instruction** does not fail because of where code lies. -/
theorem raisesAt_instruction (hw : w.graph.Frameless) (i : Instruction Label) (p : ConstantPool) :
    RaisesAt Error.Content (instruction i w) p := by
  have hassemble : Raises Error.Content (onAssembler (Assembler.encode i) w) := fun _ _ _ h =>
    Assembler.raises_encode i w.assembler _ _ _ (fails_onAssembler.1 h)
  have hnoted : ∀ a : Assembler, (noteLocals i { w with assembler := a }).graph = w.graph := by
    intro a
    cases i <;> rfl
  intro e p' h
  rcases fails_bind_above.1 h with h | ⟨_, w₁, p₁, hget, h⟩
  · cases h
  obtain ⟨rfl, rfl, rfl⟩ := returns_get_above.1 hget
  rcases fails_bind_above.1 h with h | ⟨around, w₂, p₂, hencode, h⟩
  · exact hassemble p e p' h
  obtain ⟨a, -, rfl⟩ := returns_onAssembler.1 hencode
  rcases fails_bind_above.1 h with h | ⟨_, w₃, p₃, hmodify, h⟩
  · cases h
  obtain ⟨rfl, rfl⟩ := returns_modify_above.1 hmodify
  rcases fails_bind_above.1 h with h | ⟨_, w₄, p₄, hget, h⟩
  · cases h
  obtain ⟨rfl, rfl, rfl⟩ := returns_get_above.1 hget
  -- from here on, there is only the graph, which is still without frames
  rcases fails_bind_above.1 h with h | ⟨_, w₅, p₅, -, h⟩
  · refine (BlockGraph.quiet_step _ _ around (reported i) _ p₂.types ?_).2.2 e (error_of_onGraph h)
    rw [hnoted]
    exact hw
  rcases fails_bind_above.1 h with h | ⟨_, w₆, p₆, -, h⟩
  · cases h
  split at h
  · exact raises_modifyGraph _ _ _ _ _ h
  · cases h

/-- **A label** fails only if it cannot be placed. -/
theorem fails_label : Fails (label l w) p e p' ↔ w.assembler.placeLabel l = .error e ∧ p = p' := by
  have hplace : Fails (onAssembler (fun a => do return ((), ← a.placeLabel l)) w) p e p' ↔
      w.assembler.placeLabel l = .error e ∧ p = p' := by
    refine fails_onAssembler.trans (fails_bind.trans ⟨fun h => ?_, fun h => .inl (fails_lift.2 h)⟩)
    rcases h with h | ⟨_, _, -, h⟩
    · exact fails_lift.1 h
    · cases h
  refine fails_bind_above.trans ⟨fun h => ?_, fun h => .inr ?_⟩
  · rcases h with h | ⟨_, w₁, p₁, hget, h⟩
    · cases h
    obtain ⟨rfl, rfl, rfl⟩ := returns_get_above.1 hget
    rcases fails_bind_above.1 h with h | ⟨_, w₂, p₂, -, h⟩
    · exact hplace.1 h
    · split at h
      · cases h
      · exact nomatch error_of_onGraph h
  · exact ⟨w, w, p, returns_get_above.2 ⟨rfl, rfl, rfl⟩, fails_bind_above.2 (.inl (hplace.2 h))⟩

/-- **A handler** does not fail because of where code lies. -/
theorem raises_handler (start stop target : Label) (caught : Option String) (w : CodeWriter) :
    Raises Error.Content (handler start stop target caught w) := by
  refine Raises.bind_above ?_ fun index w => Raises.bind_above (.modify_above _) fun _ w =>
    raises_modifyGraph _ w
  cases caught with
  | none => exact .pure_above _
  | some name =>
    refine show Raises Error.Content ((do
        let i ← liftM (ConstantPool.classRef name)
        return some i : CodeM (Option ConstantIndex)) w) from ?_
    exact Raises.bind_above (ConstantPool.raises_classRef name).lift_above fun _ _ => .pure_above _

/-- **A local variable** does not fail because of where code lies. -/
theorem raises_localVariable (name descriptor : String) (start stop : Label) (index : UInt16)
    (w : CodeWriter) : Raises Error.Content (localVariable name descriptor start stop index w) :=
  Raises.bind_above (.modify_above _) fun _ _ =>
    Raises.bind_above (ConstantPool.raises_utf8 name).lift_above fun _ _ =>
    Raises.bind_above (ConstantPool.raises_utf8 descriptor).lift_above fun _ _ => .modify_above _

/-! ## 3. Tables -/

/-- The labels that the tables of code mention. -/
def noted (w : CodeWriter) : List Label :=
  w.handlers.toList.flatMap (fun h => [h.start, h.stop, h.handler]) ++
    (w.lines.toList.map (·.1) ++ w.locals.toList.flatMap fun v => [v.start, v.stop])

/-- The error about a label of a table that has no place. -/
def Unresolved (w : CodeWriter) (ls : List Label) (e : Error) : Prop :=
  ∃ l ∈ ls, w.assembler.place? l = none ∧ e = .unresolvedLabel l

theorem Unresolved.mono {ls ls' : List Label} (h : w.Unresolved ls e) (hls : ∀ l ∈ ls, l ∈ ls') :
    w.Unresolved ls' e := by
  obtain ⟨l, hl, hplace, he⟩ := h
  exact ⟨l, hls l hl, hplace, he⟩

theorem unresolved_of_resolved (h : w.resolved l = .error e) : w.Unresolved [l] e := by
  unfold resolved at h
  cases hplace : w.assembler.place? l with
  | some place =>
    rw [hplace] at h
    exact nomatch h
  | none =>
    rw [hplace] at h
    cases h
    exact ⟨l, List.mem_singleton.2 rfl, hplace, rfl⟩

theorem placed_of_resolved {place : Nat} (h : w.resolved l = .ok place) :
    w.assembler.place? l = some place := by
  unfold resolved at h
  split at h
  · rename_i found
    cases h
    exact found
  · exact nomatch h

theorem unresolved_of_handlerTable (h : w.handlerTable = .error e) : w.Unresolved w.noted e := by
  unfold handlerTable at h
  rw [← Array.foldlM_toList] at h
  obtain ⟨r, hr, ⟨count, b⟩, h⟩ := of_foldlM_eq_error h
  have hrow : w.Unresolved [r.start, r.stop, r.handler] e := by
    rcases bind_eq_error_iff.1 h with h | ⟨start, -, h⟩
    · exact (unresolved_of_resolved h).mono (by simp)
    rcases bind_eq_error_iff.1 h with h | ⟨stop, -, h⟩
    · exact (unresolved_of_resolved h).mono (by simp)
    rcases bind_eq_error_iff.1 h with h | ⟨handler, -, h⟩
    · exact (unresolved_of_resolved h).mono (by simp)
    split at h <;> exact nomatch h
  exact hrow.mono fun l hl => List.mem_append_left _ (List.mem_flatMap.2 ⟨r, hr, hl⟩)

theorem unresolved_of_lineEntries (h : w.lineEntries = .error e) : w.Unresolved w.noted e := by
  obtain ⟨entry, hentry, h⟩ := of_mapM_eq_error h
  rcases bind_eq_error_iff.1 h with h | ⟨start, -, h⟩
  · refine (unresolved_of_resolved h).mono fun l hl => ?_
    rw [List.mem_singleton.1 hl]
    exact List.mem_append_right _ (List.mem_append_left _ (List.mem_map.2 ⟨entry, hentry, rfl⟩))
  · exact nomatch h

theorem unresolved_of_localEntries (h : w.localEntries = .error e) : w.Unresolved w.noted e := by
  obtain ⟨v, hv, h⟩ := of_mapM_eq_error h
  have hrow : w.Unresolved [v.start, v.stop] e := by
    rcases bind_eq_error_iff.1 h with h | ⟨start, -, h⟩
    · exact (unresolved_of_resolved h).mono (by simp)
    rcases bind_eq_error_iff.1 h with h | ⟨stop, -, h⟩
    · exact (unresolved_of_resolved h).mono (by simp)
    exact nomatch h
  exact hrow.mono fun l hl =>
    List.mem_append_right _ (List.mem_append_right _ (List.mem_flatMap.2 ⟨v, hv, hl⟩))

/-- **When all tables can be made**, all labels that they mention have been placed. -/
theorem noted_placed {table : UInt16 × Bytes} {lines : List LineEntry} {locals : List LocalEntry}
    (htable : w.handlerTable = .ok table) (hlines : w.lineEntries = .ok lines)
    (hlocals : w.localEntries = .ok locals) :
    ∀ l ∈ w.noted, (w.assembler.place? l).isSome = true := by
  have hsome : ∀ {l place}, w.resolved l = .ok place → (w.assembler.place? l).isSome = true :=
    fun h => by rw [placed_of_resolved h]; rfl
  intro l hl
  rcases List.mem_append.1 hl with hl | hl
  · obtain ⟨r, hr, hl⟩ := List.mem_flatMap.1 hl
    exact placed_of_handlerTable htable r (Array.mem_toList_iff.1 hr) l hl
  rcases List.mem_append.1 hl with hl | hl
  · obtain ⟨entry, hentry, rfl⟩ := List.mem_map.1 hl
    obtain ⟨row, hrow⟩ := of_mapM_eq_ok hlines entry hentry
    obtain ⟨place, hplace, -⟩ := bind_eq_ok_iff.1 hrow
    exact hsome hplace
  · obtain ⟨v, hv, hl⟩ := List.mem_flatMap.1 hl
    obtain ⟨row, hrow⟩ := of_mapM_eq_ok hlocals v hv
    obtain ⟨start, hstart, hrow⟩ := bind_eq_ok_iff.1 hrow
    obtain ⟨stop, hstop, -⟩ := bind_eq_ok_iff.1 hrow
    simp only [List.mem_cons, List.not_mem_nil, or_false] at hl
    rcases hl with rfl | rfl
    · exact hsome hstart
    · exact hsome hstop

/-! ## 4. The attribute -/

theorem overflows_table {α : Type} {E : Error → Prop} (hE : ∀ c n, E (.constantPoolOverflow c n))
    (content : List α → Attribute) (entries : List α) : Raises E (table content entries) := by
  unfold table
  split
  · exact .pure _
  · exact (ConstantPool.overflows_named hE _).bind fun _ => .pure _

/-- The analysis of heights does not fail because of where code lies. -/
theorem raisesAt_analyse (hw : w.graph.Frameless) (context : MethodContext) (p : ConstantPool) :
    RaisesAt Error.Content (analyse context w) p := by
  intro e p' h
  rcases fails_bind_above.1 h with h | ⟨_, w₁, p₁, hget, h⟩
  · cases h
  obtain ⟨rfl, rfl, rfl⟩ := returns_get_above.1 hget
  rw [hw.mode] at h
  rcases fails_bind_above.1 h with h | ⟨computed, w₂, p₂, -, h⟩
  · exact (BlockGraph.quiet_computeMaxStack hw p.types).2 e (error_of_onGraph h)
  · cases h

/-- **Why the attribute is refused**, if not because the pool is full, and not in the analysis. -/
theorem fails_finish {E : Error → Prop} (hE : ∀ c n, E (.constantPoolOverflow c n))
    {context : UInt16 → MethodContext}
    (hanalyse : RaisesAt E (analyse (context (max w.usedLocals w.givenLocals)) w) p)
    (h : Fails (finish context w) p e p') :
    E e ∨ w.check = .error e ∨ w.check = .ok () ∧ w.Unresolved w.noted e := by
  rcases fails_bind_above.1 h with h | ⟨_, w₁, p₁, hget, h⟩
  · cases h
  obtain ⟨rfl, rfl, rfl⟩ := returns_get_above.1 hget
  rcases fails_bind_above.1 h with h | ⟨u, w₂, p₂, hlift, h⟩
  · exact .inr (.inl (fails_except_above.1 h).1)
  obtain ⟨hcheck, rfl, rfl⟩ := returns_except_above.1 hlift
  rcases fails_bind_above.1 h with h | ⟨_, w₃, p₃, hget, h⟩
  · cases h
  obtain ⟨rfl, rfl, rfl⟩ := returns_get_above.1 hget
  rcases fails_bind_above.1 h with h | ⟨_, w₄, p₄, hget, h⟩
  · cases h
  obtain ⟨rfl, rfl, rfl⟩ := returns_get_above.1 hget
  rcases fails_bind_above.1 h with h | ⟨⟨maxStack, frames⟩, w₅, p₅, hret, h⟩
  · exact .inl (hanalyse e p' h)
  obtain ⟨⟨g, rfl⟩, -⟩ := graph_of_analyse hret
  rcases fails_bind_above.1 h with h | ⟨_, w₆, p₆, hget, h⟩
  · cases h
  obtain ⟨rfl, rfl, rfl⟩ := returns_get_above.1 hget
  -- the graph has no part in the tables, so what is missing was missing before
  rcases fails_bind_above.1 h with h | ⟨handlers, w₇, p₇, -, h⟩
  · exact .inr (.inr ⟨hcheck, unresolved_of_handlerTable (fails_except_above.1 h).1⟩)
  rcases fails_bind_above.1 h with h | ⟨lineEntries, w₈, p₈, -, h⟩
  · exact .inr (.inr ⟨hcheck, unresolved_of_lineEntries (fails_except_above.1 h).1⟩)
  rcases fails_bind_above.1 h with h | ⟨lines, w₉, p₉, -, h⟩
  · exact .inl (overflows_table hE _ _ _ _ _ (fails_lift_above.1 h))
  rcases fails_bind_above.1 h with h | ⟨localEntries, w₁₀, p₁₀, -, h⟩
  · exact .inr (.inr ⟨hcheck, unresolved_of_localEntries (fails_except_above.1 h).1⟩)
  rcases fails_bind_above.1 h with h | ⟨locals, w₁₁, p₁₁, -, h⟩
  · exact .inl (overflows_table hE _ _ _ _ _ (fails_lift_above.1 h))
  rcases fails_bind_above.1 h with h | ⟨map, w₁₂, p₁₂, -, h⟩
  · exact .inl (overflows_table hE _ _ _ _ _ (fails_lift_above.1 h))
  rcases fails_bind_above.1 h with h | ⟨index, w₁₃, p₁₃, -, h⟩
  · exact .inl (ConstantPool.overflows_intern hE _ _ _ _ (fails_lift_above.1 h))
  · cases h

/-- **When there is an attribute**, nothing was missing. -/
theorem placed_of_finish {context : UInt16 → MethodContext}
    {code : RawAttribute} (hret : Returns (finish context w) p (code, w') p') :
    w.check = .ok () ∧ w'.assembler = w.assembler ∧
      ∀ l ∈ w.noted, (w.assembler.place? l).isSome = true := by
  obtain ⟨hcheck, maxStack, frames, handlers, lineEntries, localEntries, lines, locals, map, p₁, p₂,
    p₃, p₄, hanalyse, hhandlers, hlines, hlocals, -⟩ := returns_finish hret
  obtain ⟨⟨g, rfl⟩, -⟩ := graph_of_analyse hanalyse
  exact ⟨hcheck, rfl, noted_placed hhandlers hlines hlocals⟩

end CodeWriter

end ClassFile
