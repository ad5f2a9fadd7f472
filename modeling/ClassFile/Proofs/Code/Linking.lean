/-
# Methods that cannot be written

A method whose labels are placed once, and of which nothing else is wrong, is refused just for the places
of its labels (`fails_exactly`).  A label is refused if a jump in its short form is too far before it.
The end is refused if a jump or a switch leads to a label without a place, if the code is too long, or if
a table mentions a label without a place, in this order.  Otherwise the method is written, and each of
its operands holds the distance to its label.

Events are followed one by one (`follows_event`), and all of them by induction (`linked_events`): what an
event says about labels and operands depends on the code that it comes upon, so `Meets` speaks of an event
together with that code.
-/
import ClassFile.Proofs.ClassBytes.Assembled
import ClassFile.Proofs.Code.Errors
import ClassFile.Proofs.Code.Operands
import ClassFile.Proofs.Code.StackHeight

namespace ClassFile

/-! ## 1. Labels of events -/

namespace MethodEvent

/-- The labels that a jump or a switch leads to. -/
def branches : MethodEvent → List Label
  | .instruction i => i.targets
  | _ => []

/-- The labels that a row of a table mentions. -/
def noted : MethodEvent → List Label
  | .handler start stop target _ => [start, stop, target]
  | .line _ start => [start]
  | .localVariable _ _ start stop _ => [start, stop]
  | _ => []

/-- The operands that an event writes behind some code. -/
def operands (a : Assembler) : MethodEvent → List (Label × Reference)
  | .instruction i => a.operands i
  | _ => []

theorem placed?_eq_some_iff {e : MethodEvent} {l : Label} : e.placed? = some l ↔ e = .label l := by
  cases e <;> simp [placed?]

theorem mem_placed_iff {es : List MethodEvent} {l : Label} :
    l ∈ es.filterMap placed? ↔ .label l ∈ es := by
  simp [placed?_eq_some_iff]

theorem of_mem_operands {a : Assembler} {e : MethodEvent} {x : Label × Reference}
    (hx : x ∈ e.operands a) : ∃ i, e = .instruction i ∧ x ∈ a.operands i := by
  cases e
  case instruction i => exact ⟨i, rfl, hx⟩
  all_goals exact absurd hx List.not_mem_nil

/-- Events that take nothing of the pool, and that come in wherever only heights are recorded. -/
def Plain : MethodEvent → Prop
  | .code | .label _ => True
  | .handler _ _ _ caught => caught = none
  | .instruction (.simple op) => op.stackUse?.isSome = true
  | .instruction (.var op _) => (Instruction.localUse? op).isSome = true
  | .instruction (.jump op _) => (Assembler.shortForm op).1.stackDelta?.isSome = true
  | _ => False

end MethodEvent

/-! ## 2. One event -/

namespace CodeWriter

variable {w w' : CodeWriter} {p p' : ConstantPool} {e : MethodEvent}

/-- **What an event does to code** that records only heights: operands are written, a label is placed,
and labels are noted. -/
structure Follows (e : MethodEvent) (w w' : CodeWriter) : Prop where
  frameless : w.graph.Frameless → w'.graph.Frameless
  noted : ∀ l, l ∈ w'.noted ↔ l ∈ w.noted ∨ l ∈ e.noted
  place : ∀ l, w'.assembler.place? l = if e.placed? = some l then some w.size
    else w.assembler.place? l
  laid : ∀ ops, (∀ l, e.placed? = some l → w.assembler.place? l = none) → w.assembler.Laid ops →
    w'.assembler.Laid (ops ++ e.operands w.assembler)

/-- An event that is no part of the code. -/
theorem Follows.of_assembler (he : e.branches = []) (hplaced : e.placed? = none)
    (hassembler : w'.assembler = w.assembler) (hgraph : w.graph.Frameless → w'.graph.Frameless)
    (hnoted : ∀ l, l ∈ w'.noted ↔ l ∈ w.noted ∨ l ∈ e.noted) : Follows e w w' where
  frameless := hgraph
  noted := hnoted
  place l := by
    rw [hplaced, if_neg (nomatch ·), hassembler]
  laid ops _ hops := by
    have hnone : e.operands w.assembler = [] := by
      refine List.eq_nil_iff_forall_not_mem.2 fun x hx => ?_
      obtain ⟨i, rfl, hx⟩ := MethodEvent.of_mem_operands hx
      have hl := (Assembler.of_mem_operands hx).1
      rw [show i.targets = [] from he] at hl
      exact List.not_mem_nil hl
    rw [hnone, List.append_nil, hassembler]
    exact hops

theorem Follows.refl (he : e.branches = []) (hplaced : e.placed? = none) (hnoted : e.noted = []) :
    Follows e w w :=
  .of_assembler he hplaced rfl id fun l => by
    rw [hnoted]
    exact ⟨.inl, fun h => h.resolve_right List.not_mem_nil⟩

theorem follows_instruction {i : Instruction Label} {u : Unit}
    (hret : Returns (instruction i w) p (u, w') p') : Follows (.instruction i) w w' := by
  obtain ⟨around, a, p₁, g, T, hencode, hstep, -, rfl, ⟨hhandlers, hlines, hlocals⟩, hgraph⟩ :=
    returns_instruction hret
  refine ⟨fun hw => ?_, fun l => ?_, fun l => ?_, fun ops _ hops => hops.encode hencode⟩
  · have hquiet := BlockGraph.quiet_step w.size w'.assembler.code.size around (reported i) w.graph
      p₁.types hw
    rw [hstep] at hquiet
    rcases hgraph with ⟨hgraph, -⟩ | ⟨-, hgraph⟩
    · exact hgraph ▸ hquiet.1
    · exact hgraph ▸ hquiet.1.newBlock.startBlock _ _
  · unfold CodeWriter.noted
    rw [hhandlers, hlines, hlocals]
    exact ⟨.inl, fun h => h.resolve_right List.not_mem_nil⟩
  · exact (Assembler.writes_encode hencode).place? l

theorem follows_label {l : Label} {u : Unit} (hret : Returns (label l w) p (u, w') p') :
    Follows (.label l) w w' := by
  obtain ⟨a, hplace, rfl, rfl⟩ := returns_label hret
  refine ⟨fun hw => ?_, fun k => ⟨.inl, fun h => h.resolve_right List.not_mem_nil⟩, fun k => ?_,
    fun ops hnew hops => ?_⟩
  · dsimp only
    split
    · exact hw
    · exact hw.label l _
  · obtain ⟨-, hget, -⟩ := Assembler.placeLabel_ok hplace
    refine (hget k).trans (if_congr ?_ rfl rfl)
    exact ⟨fun h => congrArg some (eq_of_beq h), fun h => beq_iff_eq.2 (Option.some.inj h)⟩
  · rw [show (MethodEvent.label l).operands w.assembler = [] from rfl, List.append_nil]
    exact hops.placeLabel (hnew l rfl) hplace

theorem follows_handler {start stop target : Label} {caught : Option String} {u : Unit}
    (hret : Returns (handler start stop target caught w) p (u, w') p') :
    Follows (.handler start stop target caught) w w' := by
  obtain ⟨index, rfl, -⟩ := returns_handler_parts hret
  refine .of_assembler rfl rfl rfl (fun hw => hw.addHandler _) fun l => ?_
  simp only [CodeWriter.noted, MethodEvent.noted, Array.toList_push, List.flatMap_append,
    List.flatMap_singleton, List.mem_append]
  rw [or_right_comm]

theorem follows_localVariable {name descriptor : String} {start stop : Label} {index : UInt16}
    {u : Unit} (hret : Returns (localVariable name descriptor start stop index w) p (u, w') p') :
    Follows (.localVariable name descriptor start stop index) w w' := by
  obtain ⟨i, j, p₁, -, -, rfl⟩ := returns_localVariable_parts hret
  refine .of_assembler rfl rfl rfl id fun l => ?_
  simp only [CodeWriter.noted, useLocal, MethodEvent.noted, Array.toList_push, List.flatMap_append,
    List.flatMap_singleton, List.mem_append, or_assoc]

/-- **An instruction is written** where only heights are recorded, if it can be encoded and the graph takes
it. -/
theorem exists_instruction (hw : w.graph.Frameless) {i : Instruction Label} {around : Bool}
    {a : Assembler} (hencode : Returns (Assembler.encode i w.assembler) p (around, a) p)
    (hstep : ∃ g, BlockGraph.step w.size a.code.size around (reported i) w.graph p.types =
      ((.ok (), g), p.types)) :
    ∃ w', Returns (instruction i w) p ((), w') p ∧ w'.assembler = a ∧ w'.lines = w.lines ∧
      w'.locals = w.locals := by
  obtain ⟨g, hstep⟩ := hstep
  have hmode := (BlockGraph.quiet_step w.size a.code.size around (reported i) w.graph p.types hw).1.mode
  rw [hstep] at hmode
  have hnoted : (noteLocals i { w with assembler := a }).assembler = a ∧
      (noteLocals i { w with assembler := a }).graph = w.graph ∧
      (noteLocals i { w with assembler := a }).lines = w.lines ∧
      (noteLocals i { w with assembler := a }).locals = w.locals := by
    cases i <;> exact ⟨rfl, rfl, rfl, rfl⟩
  have hends : ∀ w₁ : CodeWriter, endsProtected i { w₁ with graph := g } = false := by
    intro w₁
    unfold endsProtected
    split
    · rw [show g.mode = .maxStack from hmode]
      rfl
    · rfl
  refine ⟨{ noteLocals i { w with assembler := a } with graph := g }, ?_, hnoted.1, hnoted.2.2⟩
  refine returns_bind_above.2 ⟨w, w, p, returns_get_above.2 ⟨rfl, rfl, rfl⟩, ?_⟩
  refine returns_bind_above.2 ⟨around, _, p, returns_onAssembler.2 ⟨a, hencode, rfl⟩, ?_⟩
  refine returns_bind_above.2 ⟨(), _, p, returns_modify_above.2 ⟨rfl, rfl⟩, ?_⟩
  generalize noteLocals i { w with assembler := a } = w₁ at hnoted ⊢
  obtain ⟨rfl, hgraph, -⟩ := hnoted
  refine returns_bind_above.2 ⟨w₁, w₁, p, returns_get_above.2 ⟨rfl, rfl, rfl⟩, ?_⟩
  refine returns_bind_above.2 ⟨(), _, p, returns_onGraph.2 ⟨g, p.types, hgraph ▸ hstep, rfl, rfl⟩, ?_⟩
  refine returns_bind_above.2 ⟨_, _, p, returns_get_above.2 ⟨rfl, rfl, rfl⟩, ?_⟩
  rw [if_neg (by rw [hends]; exact Bool.false_ne_true)]
  exact returns_pure_above.2 ⟨rfl, rfl, rfl⟩

end CodeWriter

namespace MethodWriter

variable {m m' m₁ : MethodWriter} {c : ClassContext} {p p' p₁ : ConstantPool}

/-- **One event**, other than the end. -/
theorem follows_event {e : MethodEvent} (he : e ≠ .finish) (hret : Returns (m.event c e) p m' p') :
    CodeWriter.Follows e m.code m'.code := by
  cases e with
  | default | annotated | parameterAnnotated =>
    obtain ⟨_, _, -, hdone⟩ := returns_bind.1 hret
    obtain ⟨rfl, -⟩ := returns_pure.1 hdone
    exact .refl rfl rfl rfl
  | code =>
    obtain ⟨rfl, -⟩ := returns_pure.1 hret
    exact .refl rfl rfl rfl
  | handler start stop target caught =>
    obtain ⟨code, hrun, rfl⟩ := returns_onCode.1 hret
    exact CodeWriter.follows_handler hrun
  | instruction i =>
    obtain ⟨code, hrun, rfl⟩ := returns_onCode.1 hret
    exact CodeWriter.follows_instruction hrun
  | label l =>
    obtain ⟨code, hrun, rfl⟩ := returns_onCode.1 hret
    exact CodeWriter.follows_label hrun
  | line number start =>
    obtain ⟨code, hrun, rfl⟩ := returns_onCode.1 hret
    obtain ⟨rfl, -⟩ := returns_modify_above.1 hrun
    refine .of_assembler rfl rfl rfl id fun l => ?_
    simp only [CodeWriter.noted, CodeWriter.line, MethodEvent.noted, Array.toList_push,
      List.map_append, List.map_cons, List.map_nil, List.mem_append]
    rw [or_right_comm, or_assoc, or_assoc, or_assoc]
  | localVariable name descriptor start stop index =>
    obtain ⟨code, hrun, rfl⟩ := returns_onCode.1 hret
    exact CodeWriter.follows_localVariable hrun
  | sizes stack locals =>
    obtain ⟨code, hrun, rfl⟩ := returns_onCode.1 hret
    obtain ⟨rfl, -⟩ := returns_modify_above.1 hrun
    exact .of_assembler rfl rfl rfl id fun l =>
      ⟨.inl, fun h => h.resolve_right List.not_mem_nil⟩
  | finish => exact absurd rfl he

theorem fails_onCode {f : CodeM Unit} {e : Error} :
    Fails (m.onCode f) p e p' ↔ Fails (f m.code) p e p' := by
  obtain ⟨header, attributes, default, annotations, parameters, hasCode, code, table⟩ := m
  refine fails_bind.trans ⟨fun h => h.resolve_right ?_, .inl⟩
  rintro ⟨_, _, -, h⟩
  cases h

/-- **An event that places no label** does not fail because of where code lies. -/
theorem raisesAt_event (hm : m.code.graph.Frameless) {e : MethodEvent} (he : e ≠ .finish)
    (hplaced : e.placed? = none) : RaisesAt Error.Content (m.event c e) p := by
  have hcode : ∀ {f : CodeM Unit}, RaisesAt Error.Content (f m.code) p →
      RaisesAt Error.Content (m.onCode f) p := fun hf e p' h => hf e p' (fails_onCode.1 h)
  cases e with
  | default values =>
    exact Raises.bind (Raises.bind (AnnotationWriter.raises_all _ values _) fun _ => .pure _)
      (fun _ => .pure _) p
  | annotated a =>
    refine Raises.bind ?_ (fun _ => .pure _) p
    unfold DeclaredAnnotations.add
    split
    · exact (AnnotationSet.raises_add _ _ _).bind fun _ => .pure _
    · exact (AnnotationSet.raises_add _ _ _).bind fun _ => .pure _
  | parameterAnnotated parameter a =>
    have hadd : ∀ sets, Raises Error.Content (ParameterAnnotations.addTo sets parameter.toNat a) :=
      fun sets => (AnnotationSet.raises_add _ _ _).bind fun _ => .pure _
    refine Raises.bind ?_ (fun _ => .pure _) p
    unfold ParameterAnnotations.add
    split
    · exact (hadd _).bind fun _ => .pure _
    · exact (hadd _).bind fun _ => .pure _
  | code => exact Raises.pure _ p
  | handler start stop target caught =>
    exact hcode (CodeWriter.raises_handler start stop target caught m.code p)
  | instruction i => exact hcode (CodeWriter.raisesAt_instruction hm i p)
  | label l => exact nomatch hplaced
  | line | sizes => exact hcode (Raises.modify_above _ p)
  | localVariable name descriptor start stop index =>
    exact hcode (CodeWriter.raises_localVariable name descriptor start stop index m.code p)
  | finish => exact absurd rfl he

/-- **A label fails** just if it cannot be placed. -/
theorem fails_event_label {l : Label} {e : Error} :
    Fails (m.event c (.label l)) p e p' ↔
      m.code.assembler.placeLabel l = .error e ∧ p = p' :=
  fails_onCode.trans CodeWriter.fails_label

/-! ## 3. Events together with the code that they come upon -/

/-- One of the events is related like this to the code that it comes upon. -/
def Meets (c : ClassContext) (m : MethodWriter) (p : ConstantPool) (es : List MethodEvent)
    (Q : MethodEvent → CodeWriter → Prop) : Prop :=
  ∃ before e after m₁ p₁, es = before ++ e :: after ∧ Returns (m.events c before) p m₁ p₁ ∧ Q e m₁.code

/-- An operand of the method. -/
def HasOperand (c : ClassContext) (m : MethodWriter) (p : ConstantPool) (es : List MethodEvent)
    (x : Label × Reference) : Prop :=
  Meets c m p es fun e w => x ∈ e.operands w.assembler

/-- A label and its place in the method. -/
def HasPlace (c : ClassContext) (m : MethodWriter) (p : ConstantPool) (es : List MethodEvent)
    (l : Label) (place : Nat) : Prop :=
  Meets c m p es fun e w => e = .label l ∧ w.size = place

/-- **A jump that was written in its short form** ends up too far before its label. -/
def Overreaches (c : ClassContext) (m : MethodWriter) (p : ConstantPool) (es : List MethodEvent) :
    Prop :=
  ∃ before op goal between after m₁ p₁ m₂ p₂,
    es = before ++ .instruction (.jump op goal) :: (between ++ .label goal :: after) ∧
      op ≠ Opcode.gotoW ∧ op ≠ Opcode.jsrW ∧ Returns (m.events c before) p m₁ p₁ ∧
      Returns (m.events c (before ++ .instruction (.jump op goal) :: between)) p m₂ p₂ ∧
      m₁.code.size + 32767 < m₂.code.size

variable {es : List MethodEvent} {e : MethodEvent} {Q : MethodEvent → CodeWriter → Prop}

theorem meets_nil : ¬ Meets c m p [] Q := by
  rintro ⟨before, e, after, -, -, h, -⟩
  exact List.append_ne_nil_of_right_ne_nil before (List.cons_ne_nil e after) h.symm

/-- The last event, or one before it. -/
theorem meets_snoc (hret : Returns (m.events c es) p m₁ p₁) :
    Meets c m p (es ++ [e]) Q ↔ Meets c m p es Q ∨ Q e m₁.code := by
  constructor
  · rintro ⟨before, x, after, m₂, p₂, hsplit, hbefore, hQ⟩
    rcases List.eq_nil_or_concat after with rfl | ⟨after, y, rfl⟩
    · obtain ⟨rfl, hlast⟩ := List.append_inj' hsplit rfl
      cases hlast
      cases hbefore.symm.trans hret
      exact .inr hQ
    · have hsplit' : es ++ [e] = (before ++ x :: after) ++ [y] := by
        rw [hsplit, List.concat_eq_append, List.append_assoc, List.cons_append]
      obtain ⟨rfl, -⟩ := List.append_inj' hsplit' rfl
      exact .inl ⟨before, x, after, m₂, p₂, rfl, hbefore, hQ⟩
  · rintro (⟨before, x, after, m₂, p₂, rfl, hbefore, hQ⟩ | hQ)
    · exact ⟨before, x, after ++ [e], m₂, p₂, by rw [List.append_assoc, List.cons_append], hbefore, hQ⟩
    · exact ⟨es, e, [], m₁, p₁, rfl, hret, hQ⟩

/-- **What events leave of code**: it has their operands, with their labels placed. -/
structure Laying (c : ClassContext) (m : MethodWriter) (p : ConstantPool) (es : List MethodEvent)
    (w : CodeWriter) : Prop where
  place : ∀ l k, w.assembler.place? l = some k ↔ HasPlace c m p es l k
  laid : ∃ ops, w.assembler.Laid ops ∧ ∀ x, x ∈ ops ↔ HasOperand c m p es x

/-- **What events leave** of code that records only heights: labels are noted as well. -/
structure Linked (c : ClassContext) (m : MethodWriter) (p : ConstantPool) (es : List MethodEvent)
    (w : CodeWriter) : Prop extends Laying c m p es w where
  frameless : w.graph.Frameless
  noted : ∀ l, l ∈ w.noted ↔ ∃ e ∈ es, l ∈ e.noted

theorem mem_of_hasPlace {l : Label} {k : Nat} (h : HasPlace c m p es l k) : .label l ∈ es := by
  obtain ⟨before, e, after, -, -, rfl, -, rfl, -⟩ := h
  exact List.mem_append_right _ List.mem_cons_self

theorem Laying.snoc {w' : CodeWriter} (h : Laying c m p es m₁.code)
    (hret : Returns (m.events c es) p m₁ p₁) (hfollows : CodeWriter.Follows e m₁.code w')
    (hnew : ∀ l, e.placed? = some l → .label l ∉ es) : Laying c m p (es ++ [e]) w' where
  place l k := by
    rw [hfollows.place, HasPlace, meets_snoc hret, ← HasPlace, ← h.place]
    by_cases hl : e.placed? = some l
    · have hnone : m₁.code.assembler.place? l ≠ some k := fun hk =>
        hnew l hl (mem_of_hasPlace ((h.place l k).1 hk))
      rw [if_pos hl, or_iff_right hnone, Option.some.injEq, MethodEvent.placed?_eq_some_iff.1 hl]
      exact ⟨fun hk => ⟨rfl, hk⟩, fun hk => hk.2⟩
    · rw [if_neg hl, MethodEvent.placed?_eq_some_iff] at *
      exact ⟨.inl, fun hk => hk.resolve_right fun hk => hl hk.1⟩
  laid := by
    obtain ⟨ops, hops, hmem⟩ := h.laid
    refine ⟨ops ++ e.operands m₁.code.assembler, hfollows.laid ops (fun l hl => ?_) hops,
      fun x => ?_⟩
    · refine Option.eq_none_iff_forall_ne_some.2 fun k hk => hnew l hl ?_
      exact mem_of_hasPlace ((h.place l k).1 hk)
    · rw [List.mem_append, hmem, HasOperand, HasOperand, meets_snoc hret]

theorem Linked.snoc {w' : CodeWriter} (h : Linked c m p es m₁.code)
    (hret : Returns (m.events c es) p m₁ p₁) (hfollows : CodeWriter.Follows e m₁.code w')
    (hnew : ∀ l, e.placed? = some l → .label l ∉ es) : Linked c m p (es ++ [e]) w' where
  toLaying := h.toLaying.snoc hret hfollows hnew
  frameless := hfollows.frameless h.frameless
  noted l := by
    rw [hfollows.noted, h.noted]
    simp only [List.mem_append, List.mem_singleton, or_and_right, exists_or, exists_eq_left]

/-- **One event after the other**, none of them the end, and each label placed once. -/
theorem of_events {Q : List MethodEvent → CodeWriter → ConstantPool → Prop} (hnil : Q [] m.code p)
    (hsnoc : ∀ {es e m₁ p₁ m₂ p₂}, Returns (m.events c es) p m₁ p₁ → Returns (m₁.event c e) p₁ m₂ p₂ →
      e ≠ .finish → (∀ l, e.placed? = some l → .label l ∉ es) → Q es m₁.code p₁ →
      Q (es ++ [e]) m₂.code p₂)
    (hopen : .finish ∉ es) (honce : (es.filterMap MethodEvent.placed?).Nodup)
    (hret : Returns (m.events c es) p m' p') : Q es m'.code p' := by
  induction es using List.reverseRecOn generalizing m' p' with
  | nil =>
    obtain ⟨rfl, rfl⟩ := returns_pure.1 hret
    exact hnil
  | append_singleton es e ih =>
    obtain ⟨m₁, p₁, hes, hlast⟩ := returns_events_append.1 hret
    obtain ⟨m₂, p₂, he, hnil⟩ := returns_events_cons.1 hlast
    obtain ⟨rfl, rfl⟩ := returns_pure.1 hnil
    rw [List.mem_append, not_or, List.mem_singleton] at hopen
    rw [List.filterMap_append] at honce
    obtain ⟨honce, -, hapart⟩ := List.nodup_append.1 honce
    refine hsnoc hes he (Ne.symm hopen.2) (fun l hl hmem => ?_) (ih hopen.1 honce hes)
    exact hapart l (MethodEvent.mem_placed_iff.2 hmem) l
      (List.mem_filterMap.2 ⟨e, List.mem_singleton.2 rfl, hl⟩) rfl

theorem laying_start {mode : ComputeMode} {slots : UInt16} (hm : m.code = .start mode slots) :
    Laying c m p [] m.code := by
  rw [hm]
  refine ⟨fun l k => iff_of_false (fun h => ?_) meets_nil, [], Assembler.laid_empty,
    fun x => iff_of_false List.not_mem_nil meets_nil⟩
  simp [CodeWriter.start, Assembler.empty, Assembler.place?] at h

/-- **Events without an end**, in a method that places each label once. -/
theorem laying_events {mode : ComputeMode} {slots : UInt16} (hm : m.code = .start mode slots)
    (hopen : .finish ∉ es) (honce : (es.filterMap MethodEvent.placed?).Nodup)
    (hret : Returns (m.events c es) p m' p') : Laying c m p es m'.code :=
  of_events (Q := fun es w _ => Laying c m p es w) (laying_start hm)
    (fun hes he hne hnew h => h.snoc hes (follows_event hne he) hnew) hopen honce hret

/-- **Events without an end**, in a method that records only heights and places each label once. -/
theorem linked_events {slots : UInt16} (hm : m.code = .start .maxStack slots) (hopen : .finish ∉ es)
    (honce : (es.filterMap MethodEvent.placed?).Nodup) (hret : Returns (m.events c es) p m' p') :
    Linked c m p es m'.code := by
  refine of_events (Q := fun es w _ => Linked c m p es w)
    ⟨laying_start hm, hm ▸ BlockGraph.frameless_start, fun l => ?_⟩
    (fun hes he hne hnew h => h.snoc hes (follows_event hne he) hnew) hopen honce hret
  simp [hm, CodeWriter.noted, CodeWriter.start]

/-- Events in front of others. -/
theorem linked_front {front back : List MethodEvent} {slots : UInt16}
    (hm : m.code = .start .maxStack slots) (hopen : .finish ∉ front ++ back)
    (honce : ((front ++ back).filterMap MethodEvent.placed?).Nodup)
    (hret : Returns (m.events c front) p m' p') : Linked c m p front m'.code := by
  rw [List.filterMap_append] at honce
  exact linked_events hm (fun h => hopen (List.mem_append_left _ h)) (List.nodup_append.1 honce).1 hret

/-- A label that has been placed comes upon some code. -/
theorem meets_of_mem (hret : Returns (m.events c es) p m' p') (he : e ∈ es) :
    ∃ before after m₁ p₁, es = before ++ e :: after ∧ Returns (m.events c before) p m₁ p₁ := by
  obtain ⟨before, after, rfl⟩ := List.append_of_mem he
  obtain ⟨m₁, p₁, hbefore, -⟩ := returns_events_append.1 hret
  exact ⟨before, after, m₁, p₁, rfl, hbefore⟩

variable {w : CodeWriter} {l : Label}

theorem Laying.place_eq_none_iff (h : Laying c m p es w) (hret : Returns (m.events c es) p m' p') :
    w.assembler.place? l = none ↔ .label l ∉ es := by
  rw [Option.eq_none_iff_forall_ne_some]
  refine ⟨fun hnone hl => ?_, fun hl k hk => hl (mem_of_hasPlace ((h.place l k).1 hk))⟩
  obtain ⟨before, after, m₁, p₁, hsplit, hbefore⟩ := meets_of_mem hret hl
  exact hnone _ ((h.place l _).2 ⟨before, _, after, m₁, p₁, hsplit, hbefore, rfl, rfl⟩)

/-! ## 4. Labels -/

/-- **A label fails** just if a jump in its short form is too far before it. -/
theorem fails_label_iff {front back : List MethodEvent} {slots : UInt16}
    (hm : m.code = .start .maxStack slots) (hopen : .finish ∉ front ++ .label l :: back)
    (honce : ((front ++ .label l :: back).filterMap MethodEvent.placed?).Nodup)
    (hret : Returns (m.events c front) p m₁ p₁) :
    (∃ x p₂, Fails (m₁.event c (.label l)) p₁ x p₂) ↔
      ∃ before op between m₀ p₀, front = before ++ .instruction (.jump op l) :: between ∧
        op ≠ Opcode.gotoW ∧ op ≠ Opcode.jsrW ∧ Returns (m.events c before) p m₀ p₀ ∧
        m₀.code.size + 32767 < m₁.code.size := by
  have hlinked := linked_front hm hopen honce hret
  have hnew : .label l ∉ front := fun hl => by
    rw [List.filterMap_append] at honce
    exact (List.nodup_append.1 honce).2.2 l (MethodEvent.mem_placed_iff.2 hl) l
      (MethodEvent.mem_placed_iff.2 List.mem_cons_self) rfl
  have hnone := (hlinked.place_eq_none_iff hret).2 hnew
  obtain ⟨ops, hops, hmem⟩ := hlinked.laid
  have hplace : (∃ x p₂, Fails (m₁.event c (.label l)) p₁ x p₂) ↔
      ∃ r : Reference, (l, r) ∈ ops ∧ r.isLong = false ∧ r.source + 32767 < m₁.code.size := by
    simp only [fails_event_label, exists_and_left, exists_eq', and_true]
    exact hops.placeLabel_fails_iff hnone
  rw [hplace]
  constructor
  · rintro ⟨r, hr, hshort, hfar⟩
    obtain ⟨before, e, between, m₀, p₀, hsplit, hbefore, hx⟩ := (hmem _).1 hr
    obtain ⟨i, rfl, hx⟩ := MethodEvent.of_mem_operands hx
    obtain ⟨hsource, op, rfl, hgotoW, hjsrW⟩ := Assembler.short_operand hx hshort
    exact ⟨before, op, between, m₀, p₀, hsplit, hgotoW, hjsrW, hbefore,
      show m₀.code.assembler.code.size + 32767 < _ from hsource ▸ hfar⟩
  · rintro ⟨before, op, between, m₀, p₀, rfl, hgotoW, hjsrW, hbefore, hfar⟩
    -- the label has no place yet where the jump is written, so room is reserved
    have hearly : m₀.code.assembler.place? l = none := by
      rw [List.append_assoc] at hopen honce
      refine ((linked_front hm hopen honce hbefore).place_eq_none_iff hbefore).2 fun hl => hnew ?_
      exact List.mem_append_left _ hl
    have hform : (Assembler.shortForm op).2 = false :=
      Assembler.shortForm_snd_iff.2 ⟨hgotoW, hjsrW⟩
    refine ⟨⟨m₀.code.size, m₀.code.size + 1, false⟩, (hmem _).2 ?_, rfl, hfar⟩
    refine ⟨before, _, between, m₀, p₀, rfl, hbefore, ?_⟩
    show _ ∈ m₀.code.assembler.operands (.jump op l)
    rw [Assembler.operands_jump_waiting hearly, hform]
    exact List.mem_singleton.2 rfl

/-- **A label is placed**, as long as the code is no longer than any jump. -/
theorem exists_label {front back : List MethodEvent} {slots : UInt16}
    (hm : m.code = .start .maxStack slots) (hopen : .finish ∉ front ++ .label l :: back)
    (honce : ((front ++ .label l :: back).filterMap MethodEvent.placed?).Nodup)
    (hret : Returns (m.events c front) p m₁ p₁) (hnear : m₁.code.size ≤ 32767) :
    ∃ w, Returns (CodeWriter.label l m₁.code) p₁ ((), w) p₁ ∧ w.size = m₁.code.size ∧
      w.lines = m₁.code.lines ∧ w.locals = m₁.code.locals := by
  obtain ⟨m₂, p₂, hlabel⟩ : ∃ m₂ p₂, Returns (m₁.event c (.label l)) p₁ m₂ p₂ := by
    refine (returns_or_fails _ p₁).resolve_right fun hfails => ?_
    obtain ⟨before, op, between, m₀, p₀, -, -, -, -, hfar⟩ := (fails_label_iff hm hopen honce hret).1 hfails
    omega
  obtain ⟨w, hw, -⟩ := returns_onCode.1
    (show Returns (m₁.onCode (CodeWriter.label l)) p₁ m₂ p₂ from hlabel)
  obtain ⟨a, hplace, rfl, hsame⟩ := CodeWriter.returns_label hw
  refine ⟨w, hw, ?_, ?_, ?_⟩ <;> rw [hsame]
  exact (Assembler.placeLabel_ok hplace).1

/-- What fails to place a label is about a jump. -/
theorem overflow_of_label {x : Error} (h : Fails (m.event c (.label l)) p x p') :
    ∃ source target, x = .jumpOffsetOverflow source target := by
  obtain ⟨hplace, -⟩ := fails_event_label.1 h
  obtain ⟨r, -, -, he⟩ := Assembler.placeLabel_error hplace
  exact ⟨_, _, he⟩

/-- Events fail where one of them does. -/
theorem fails_events {x : Error} :
    Fails (m.events c es) p x p' ↔ ∃ before e after m₁ p₁, es = before ++ e :: after ∧
      Returns (m.events c before) p m₁ p₁ ∧ Fails (m₁.event c e) p₁ x p' := by
  induction es generalizing m p with
  | nil =>
    refine ⟨fun h => (nomatch (Prod.ext_iff.1 h).1), ?_⟩
    rintro ⟨before, e, after, -, -, h, -⟩
    exact absurd h.symm (List.append_ne_nil_of_right_ne_nil before (List.cons_ne_nil e after))
  | cons e es ih =>
    have hcons : Fails (m.events c (e :: es)) p x p' ↔ Fails (m.event c e) p x p' ∨
        ∃ m₁ p₁, Returns (m.event c e) p m₁ p₁ ∧ Fails (m₁.events c es) p₁ x p' := by
      unfold events
      rw [List.foldlM_cons]
      exact fails_bind
    rw [hcons]
    constructor
    · rintro (h | ⟨m₁, p₁, he, h⟩)
      · exact ⟨[], e, es, m, p, rfl, returns_pure.2 ⟨rfl, rfl⟩, h⟩
      · obtain ⟨before, e', after, m₂, p₂, rfl, hbefore, h⟩ := ih.1 h
        exact ⟨e :: before, e', after, m₂, p₂, rfl, returns_events_cons.2 ⟨m₁, p₁, he, hbefore⟩, h⟩
    · rintro ⟨before, e', after, m₂, p₂, hsplit, hbefore, h⟩
      cases before with
      | nil =>
        cases hsplit
        obtain ⟨rfl, rfl⟩ := returns_pure.1 hbefore
        exact .inl h
      | cons e₀ before =>
        cases hsplit
        obtain ⟨m₁, p₁, he, hbefore⟩ := returns_events_cons.1 hbefore
        exact .inr ⟨m₁, p₁, he, ih.2 ⟨before, e', after, m₂, p₂, rfl, hbefore, h⟩⟩

/-! ## 5. The end -/

/-- A label that some event mentions and none places. -/
def Missing (labels : MethodEvent → List Label) (es : List MethodEvent) (l : Label) : Prop :=
  (∃ e ∈ es, l ∈ labels e) ∧ .label l ∉ es

/-- Each label that a jump or a switch leads to has an operand. -/
theorem hasOperand_of_branch (hret : Returns (m.events c es) p m' p') (he : e ∈ es)
    (hl : l ∈ e.branches) : ∃ r, HasOperand c m p es (l, r) := by
  obtain ⟨before, after, m₁, p₁, hsplit, hbefore⟩ := meets_of_mem hret he
  cases e
  case instruction i =>
    obtain ⟨r, hr⟩ := Assembler.exists_mem_operands hl m₁.code.assembler
    exact ⟨r, before, _, after, m₁, p₁, hsplit, hbefore, hr⟩
  all_goals exact absurd hl List.not_mem_nil

/-- **What waits at the end** is what jumps and switches lead to in vain. -/
theorem Laying.waits_iff (h : Laying c m p es w) (hret : Returns (m.events c es) p m' p') :
    w.assembler.Waits l ↔ Missing MethodEvent.branches es l := by
  obtain ⟨ops, hops, hmem⟩ := h.laid
  have hroom : w.assembler.Waits l ↔ ∃ r, r ∈ w.assembler.room l := by
    unfold Assembler.Waits Assembler.room
    rw [Std.HashMap.getD_eq_getD_getElem?]
    constructor
    · rintro ⟨r, rs, hl⟩
      exact ⟨r, by rw [hl]; exact List.mem_cons_self⟩
    · rintro ⟨r, hr⟩
      cases hl : w.assembler.waiting[l]? with
      | none =>
        rw [hl] at hr
        exact absurd hr List.not_mem_nil
      | some rs =>
        rw [hl] at hr
        obtain ⟨r', rs', rfl⟩ := List.exists_cons_of_ne_nil (List.ne_nil_of_mem hr)
        exact ⟨r', rs', rfl⟩
  rw [hroom, Missing, ← h.place_eq_none_iff hret]
  constructor
  · rintro ⟨r, hr⟩
    obtain ⟨hx, hnone⟩ := hops.waiting l r hr
    obtain ⟨before, e, after, m₁, p₁, rfl, -, hx⟩ := (hmem _).1 hx
    obtain ⟨i, rfl, hx⟩ := MethodEvent.of_mem_operands hx
    exact ⟨⟨_, List.mem_append_right _ List.mem_cons_self, (Assembler.of_mem_operands hx).1⟩, hnone⟩
  · rintro ⟨⟨e, he, hl⟩, hnone⟩
    obtain ⟨r, hr⟩ := hasOperand_of_branch hret he hl
    exact ⟨r, (hops.settled _ ((hmem (l, r)).2 hr)).waits hnone⟩

/-- Code can be ended if what it leads to has been placed, and it is short enough. -/
theorem Laying.check (h : Laying c m p es w)
    (hret : Returns (m.events c es) p m' p') (hbranches : ∀ l, ¬ Missing MethodEvent.branches es l)
    (hsize : w.size ≤ 65535) : w.check = .ok () := by
  rw [CodeWriter.check_eq_ok_iff]
  refine ⟨?_, hsize⟩
  cases hfirst : w.assembler.firstWaiting? with
  | none => rfl
  | some l => exact absurd ((h.waits_iff hret).1 (Assembler.waits_of_firstWaiting? hfirst)) (hbranches l)

/-- **What tables mention in vain.** -/
theorem Linked.noted_iff (h : Linked c m p es w) (hret : Returns (m.events c es) p m' p') :
    l ∈ w.noted ∧ w.assembler.place? l = none ↔ Missing MethodEvent.noted es l := by
  rw [h.noted, h.place_eq_none_iff hret, Missing]

section Overflow

variable {E : Error → Prop} (hE : ∀ c n, E (.constantPoolOverflow c n))
include hE

theorem overflows_attributes (d : DeclaredAnnotations) : Raises E d.attributes :=
  (AnnotationSet.overflows_attribute? hE _ _).bind fun _ =>
    (AnnotationSet.overflows_attribute? hE _ _).bind fun _ => .pure _

theorem overflows_parameterAttributes (annotations : ParameterAnnotations) (parameters : Nat) :
    Raises E (annotations.attributes parameters) :=
  (AnnotationSet.overflows_parametersAttribute? hE _ _ _).bind fun _ =>
    (AnnotationSet.overflows_parametersAttribute? hE _ _ _).bind fun _ => .pure _

theorem overflows_defaultAttribute (default : Option Bytes) : Raises E (defaultAttribute default) := by
  unfold defaultAttribute
  split
  · exact (ConstantPool.overflows_intern hE _).bind fun _ => .pure _
  · exact .pure _

/-- **Why the end fails**, if not because the pool is full, and not in the analysis. -/
theorem fails_finish (hanalyse : ∀ context : MethodContext, context.hierarchy = c.hierarchy →
      RaisesAt E (CodeWriter.analyse context m.code) p) {x : Error}
    (h : Fails (m.finish c) p x p') : E x ∨ m.code.check = .error x ∨
      m.code.check = .ok () ∧ m.code.Unresolved m.code.noted x := by
  rcases fails_bind.1 h with h | ⟨_, p₁, -, h⟩
  · unfold codeAttribute at h
    split at h
    · rcases fails_bind.1 h with h | ⟨_, _, -, h⟩
      · exact CodeWriter.fails_finish hE (hanalyse _ rfl) h
      · cases h
    · cases h
  rcases fails_bind.1 h with h | ⟨_, p₂, -, h⟩
  · exact .inl (overflows_defaultAttribute hE _ _ _ _ h)
  rcases fails_bind.1 h with h | ⟨_, p₃, -, h⟩
  · exact .inl (overflows_attributes hE _ _ _ _ h)
  rcases fails_bind.1 h with h | ⟨_, p₄, -, h⟩
  · exact .inl (overflows_parameterAttributes hE _ _ _ _ _ h)
  · cases h

end Overflow

/-- The parts of the attribute of code. -/
theorem toList_putAll_head (w : CodeWriter) (maxStack maxLocals : UInt16) (handlers : UInt16 × Bytes)
    (attributes : List RawAttribute) :
    (RawAttribute.putAll (w.head maxStack maxLocals handlers) attributes).toList =
      wordBytes 2 maxStack.toNat ++ (wordBytes 2 maxLocals.toNat ++
        (wordBytes 4 (UInt32.ofNat w.size).toNat ++ (w.assembler.code.toList ++
          ((wordBytes 2 handlers.1.toNat ++ handlers.2.toList) ++
            RawAttribute.allEncoded attributes)))) := by
  rw [RawAttribute.toList_putAll, CodeWriter.head]
  simp only [Bytes.toList_putBytes, Bytes.toList_putU16, Bytes.toList_putU32, List.append_assoc]
  rfl

/-- The code in its attribute, behind its length. -/
theorem has_code (w : CodeWriter) (maxStack maxLocals : UInt16) (handlers : UInt16 × Bytes)
    (attributes : List RawAttribute) :
    (RawAttribute.putAll (w.head maxStack maxLocals handlers) attributes).Has 4
      (wordBytes 4 (UInt32.ofNat w.size).toNat ++ w.assembler.code.toList) := by
  refine ⟨wordBytes 2 maxStack.toNat ++ wordBytes 2 maxLocals.toNat,
    (wordBytes 2 handlers.1.toNat ++ handlers.2.toList) ++ RawAttribute.allEncoded attributes, ?_, ?_⟩
  · rw [toList_putAll_head]
    simp only [List.append_assoc]
  · simp only [List.length_append, length_wordBytes]

/-- **What the end writes**, if it does not fail: the code stands in its attribute. -/
theorem code_of_finish (hcode : m.hasCode = true) (hret : Returns (m.finish c) p m' p') :
    m.code.check = .ok () ∧
      ∃ code others, m'.table = m.table.add m.header.info.access m.header.name m.header.descriptor
        (code :: others) ∧
        code.payload.Has 4 (wordBytes 4 (UInt32.ofNat m.code.size).toNat ++
          m.code.assembler.code.toList) := by
  obtain ⟨attributes, others, p₁, hattribute, htable, -⟩ :=
    MethodWriter.returns_finish (h := c.hierarchy) hret
  rcases returns_codeAttribute hattribute with ⟨-, code, rfl, hfinish⟩ | ⟨hno, -⟩
  · obtain ⟨hcheck, maxStack, frames, handlers, -, -, lines, locals, map, p₂, -, -, -, hanalyse, -, -, -,
      -, -, -, -, hpayload⟩ := CodeWriter.returns_finish hfinish
    refine ⟨hcheck, code, others, htable, ?_⟩
    have hsame : m'.code.assembler = m.code.assembler := by
      obtain ⟨⟨g, hgraph⟩, -⟩ := CodeWriter.graph_of_analyse hanalyse
      rw [hgraph]
    have hhas := has_code m'.code maxStack
      (context c m.header.info (max m.code.usedLocals m.code.givenLocals)).maxLocals handlers
      (lines ++ locals ++ map)
    rw [hpayload]
    rwa [CodeWriter.size, hsame] at hhas
  · exact absurd (hno.symm.trans hcode) Bool.false_ne_true

/-- All labels that are noted have been placed then. -/
theorem written_of_finish (hcode : m.hasCode = true) (hret : Returns (m.finish c) p m' p') :
    m.code.check = .ok () ∧ (∀ l ∈ m.code.noted, (m.code.assembler.place? l).isSome = true) ∧
      ∃ code others, m'.table = m.table.add m.header.info.access m.header.name m.header.descriptor
        (code :: others) ∧ code.payload.Has 8 m.code.assembler.code.toList := by
  obtain ⟨hcheck, code, others, htable, hhas⟩ := code_of_finish hcode hret
  obtain ⟨attributes, -, p₁, hattribute, -⟩ := MethodWriter.returns_finish (h := c.hierarchy) hret
  rcases returns_codeAttribute hattribute with ⟨-, _, -, hfinish⟩ | ⟨hno, -⟩
  · obtain ⟨-, -, hplaced⟩ := CodeWriter.placed_of_finish hfinish
    exact ⟨hcheck, hplaced, code, others, htable, hhas.right⟩
  · rw [hcode] at hno
    exact nomatch hno

/-- **Each operand of code that has been written** holds the distance to its label. -/
theorem Laying.holds (h : Laying c m p es w) (hret : Returns (m.events c es) p m' p')
    (hcheck : w.check = .ok ()) {x : Label × Reference} (hx : HasOperand c m p es x) :
    ∃ place, w.assembler.place? x.1 = some place ∧ x.2.Holds place w.assembler.code ∧
      x.2.source ≤ 65535 ∧ place ≤ w.size ∧ w.size ≤ 65535 := by
  obtain ⟨hfirst, hsize⟩ := CodeWriter.check_eq_ok_iff.1 hcheck
  obtain ⟨ops, hops, hmem⟩ := h.laid
  have hmem' := (hmem x).2 hx
  cases hplace : w.assembler.place? x.1 with
  | none =>
    obtain ⟨before, e, after, m₁, p₁, rfl, -, hx'⟩ := hx
    obtain ⟨i, rfl, hx'⟩ := MethodEvent.of_mem_operands hx'
    refine absurd ((h.waits_iff hret).2 ⟨⟨_, List.mem_append_right _ List.mem_cons_self,
      (Assembler.of_mem_operands hx').1⟩, (h.place_eq_none_iff hret).1 hplace⟩) ?_
    exact Assembler.not_waits_of_firstWaiting? hfirst x.1
  | some place =>
    exact ⟨place, rfl, (hops.settled x hmem').holds place hplace,
      Nat.le_trans (Nat.le_of_lt (hops.source_lt hmem')) hsize, hops.reached _ _ hplace, hsize⟩

/-- It is read back as that. -/
theorem Laying.read (h : Laying c m p es w) (hret : Returns (m.events c es) p m' p')
    (hcheck : w.check = .ok ()) {x : Label × Reference} (hx : HasOperand c m p es x) :
    ∃ place, HasPlace c m p es x.1 place ∧
      x.2.read w.assembler.code = .ok (x.2.distance place) := by
  obtain ⟨place, hplace, hholds, hsource, hle, hsize⟩ := h.holds hret hcheck hx
  exact ⟨place, (h.place _ _).1 hplace, hholds.read hsource (Nat.le_trans hle hsize)⟩

/-- **How a method ends**: what it leads to in vain, its length, and what its tables mention in vain are
looked at in this order. -/
structure Ends (c : ClassContext) (body : List MethodEvent) (m : MethodWriter) (p : ConstantPool) :
    Prop where
  branch : (∃ l, Missing MethodEvent.branches body l) →
    ∃ l p', Missing MethodEvent.branches body l ∧ Fails (m.event c .finish) p (.unresolvedLabel l) p'
  long : (∀ l, ¬ Missing MethodEvent.branches body l) → 65535 < m.code.size →
    ∃ p', Fails (m.event c .finish) p (.methodCodeOverflow m.code.size) p'
  table : (∀ l, ¬ Missing MethodEvent.branches body l) → m.code.size ≤ 65535 →
    (∃ l, Missing MethodEvent.noted body l) →
    ∃ l p', Missing MethodEvent.noted body l ∧ Fails (m.event c .finish) p (.unresolvedLabel l) p'
  written : (∀ l, ¬ Missing MethodEvent.branches body l) → m.code.size ≤ 65535 →
    (∀ l, ¬ Missing MethodEvent.noted body l) → ∃ m' p', Returns (m.event c .finish) p m' p'

variable {body : List MethodEvent}

theorem Linked.ends (h : Linked c m p body m₁.code) (hret : Returns (m.events c body) p m₁ p₁)
    (hcode : m₁.hasCode = true) (hother : RaisesAt Error.Layout (m₁.event c .finish) p₁) :
    Ends c body m₁ p₁ := by
  have hnone : m₁.code.assembler.firstWaiting? = none → ∀ l, ¬ Missing MethodEvent.branches body l :=
    fun hfirst l hl => Assembler.not_waits_of_firstWaiting? hfirst l ((h.waits_iff hret).2 hl)
  rcases returns_or_fails (m₁.event c .finish) p₁ with ⟨m₂, p₂, hfinish⟩ | ⟨x, p₂, hfails⟩
  · obtain ⟨hcheck, hplaced, -⟩ := written_of_finish hcode hfinish
    obtain ⟨hfirst, hsize⟩ := CodeWriter.check_eq_ok_iff.1 hcheck
    refine ⟨fun ⟨l, hl⟩ => absurd hl (hnone hfirst l), fun _ hlong => ?_, fun _ _ ⟨l, hl⟩ => ?_,
      fun _ _ _ => ⟨m₂, p₂, hfinish⟩⟩
    · exact absurd hsize (Nat.not_le.2 hlong)
    · obtain ⟨hnoted, hunplaced⟩ := (h.noted_iff hret).2 hl
      have := hplaced l hnoted
      rw [hunplaced] at this
      exact nomatch this
  rcases fails_finish (fun _ _ => id) (fun context _ => CodeWriter.raisesAt_analyse h.frameless context p₁)
    hfails with hcontent | hcheck | ⟨hcheck, l, hl, hplace, rfl⟩
  · exact absurd hcontent (hother x p₂ hfails).not_content
  · rw [CodeWriter.check_eq] at hcheck
    cases hfirst : m₁.code.assembler.firstWaiting? with
    | some l =>
      rw [hfirst] at hcheck
      cases hcheck
      have hl := (h.waits_iff hret).1 (Assembler.waits_of_firstWaiting? hfirst)
      exact ⟨fun _ => ⟨l, p₂, hl, hfails⟩, fun hno => absurd hl (hno l), fun hno => absurd hl (hno l),
        fun hno => absurd hl (hno l)⟩
    | none =>
      rw [hfirst] at hcheck
      dsimp only at hcheck
      split at hcheck
      · rename_i hlong
        cases hcheck
        exact ⟨fun ⟨l, hl⟩ => absurd hl (hnone hfirst l), fun _ _ => ⟨p₂, hfails⟩,
          fun _ hsize => absurd hsize (Nat.not_le.2 hlong),
          fun _ hsize => absurd hsize (Nat.not_le.2 hlong)⟩
      · exact nomatch hcheck
  · obtain ⟨hfirst, hsize⟩ := CodeWriter.check_eq_ok_iff.1 hcheck
    have hmissing := (h.noted_iff hret).1 ⟨hl, hplace⟩
    exact ⟨fun ⟨k, hk⟩ => absurd hk (hnone hfirst k), fun _ hlong => absurd hsize (Nat.not_le.2 hlong),
      fun _ _ _ => ⟨l, p₂, hmissing, hfails⟩, fun _ _ hno => absurd hmissing (hno l)⟩

/-- **If nothing else is wrong, only labels fail** before the end. -/
theorem eq_label_of_fails {slots : UInt16} (hm : m.code = .start .maxStack slots) (hopen : .finish ∉ body)
    (honce : (body.filterMap MethodEvent.placed?).Nodup)
    (hother : RaisesAt Error.Layout (m.events c body) p) {before after : List MethodEvent}
    {e : MethodEvent} (hsplit : body = before ++ e :: after) {x : Error} {p₂ : ConstantPool}
    (hbefore : Returns (m.events c before) p m₁ p₁) (he : Fails (m₁.event c e) p₁ x p₂) :
    ∃ l, e = .label l := by
  subst hsplit
  cases hplaced : e.placed? with
  | some l => exact ⟨l, MethodEvent.placed?_eq_some_iff.1 hplaced⟩
  | none =>
    have hne : e ≠ .finish := fun heq => hopen (heq ▸ List.mem_append_right _ List.mem_cons_self)
    have hlinked := linked_front hm hopen honce hbefore
    have hlayout : x.Layout :=
      hother x p₂ (fails_events.2 ⟨before, e, after, m₁, p₁, rfl, hbefore, he⟩)
    exact absurd (raisesAt_event hlinked.frameless hne hplaced x p₂ he) hlayout.not_content

/-- **A label of the method fails** just if a jump in its short form is too far before it. -/
theorem overflows_iff_overreaches {slots : UInt16} (hm : m.code = .start .maxStack slots)
    (hopen : .finish ∉ body) (honce : (body.filterMap MethodEvent.placed?).Nodup) :
    (∃ before l after m₁ p₁ source target p₂, body = before ++ .label l :: after ∧
        Returns (m.events c before) p m₁ p₁ ∧
        Fails (m₁.event c (.label l)) p₁ (.jumpOffsetOverflow source target) p₂) ↔
      Overreaches c m p body := by
  constructor
  · rintro ⟨front, l, after, m₂, p₂, source, target, p₃, rfl, hfront, hfails⟩
    obtain ⟨before, op, between, m₁, p₁, rfl, hgotoW, hjsrW, hbefore, hfar⟩ :=
      (fails_label_iff hm hopen honce hfront).1 ⟨_, _, hfails⟩
    refine ⟨before, op, l, between, after, m₁, p₁, m₂, p₂, ?_, hgotoW, hjsrW, hbefore, hfront, hfar⟩
    rw [List.append_assoc, List.cons_append]
  · rintro ⟨before, op, l, between, after, m₁, p₁, m₂, p₂, hsplit, hgotoW, hjsrW, hbefore, hfront, hfar⟩
    have hbody : body = (before ++ .instruction (.jump op l) :: between) ++ .label l :: after := by
      rw [hsplit, List.append_assoc, List.cons_append]
    obtain ⟨x, p₃, hfails⟩ := (fails_label_iff hm (hbody ▸ hopen) (hbody ▸ honce) hfront).2
      ⟨before, op, between, m₁, p₁, rfl, hgotoW, hjsrW, hbefore, hfar⟩
    obtain ⟨source, target, rfl⟩ := overflow_of_label hfails
    exact ⟨_, l, after, m₂, p₂, source, target, p₃, hbody, hfront, hfails⟩

/-- **A method that records only heights is refused just for the places of its labels**, if each of them
is placed at most once and nothing else is wrong.

A label fails just if a jump in its short form is too far before it, and nothing else fails before the
end.  The end fails as `Ends` has it.  In what is written, each operand holds the distance to its
label. -/
theorem fails_exactly {info : MethodInfo} {table : MemberTable} {p₀ : ConstantPool}
    (hstart : Returns (start .maxStack info table) p₀ m p) (hcode : .code ∈ body)
    (hopen : .finish ∉ body) (honce : (body.filterMap MethodEvent.placed?).Nodup)
    (hother : RaisesAt Error.Layout (m.events c (body ++ [.finish])) p) :
    ((∃ before l after m₁ p₁ source target p₂, body = before ++ .label l :: after ∧
        Returns (m.events c before) p m₁ p₁ ∧
        Fails (m₁.event c (.label l)) p₁ (.jumpOffsetOverflow source target) p₂) ↔
      Overreaches c m p body) ∧
    (∀ before e after m₁ p₁ x p₂, body = before ++ e :: after →
      Returns (m.events c before) p m₁ p₁ → Fails (m₁.event c e) p₁ x p₂ → ∃ l, e = .label l) ∧
    (¬ Overreaches c m p body →
      ∃ m₁ p₁, Returns (m.events c body) p m₁ p₁ ∧ Ends c body m₁ p₁) ∧
    ∀ m₂ p₂, Returns (m.events c (body ++ [.finish])) p m₂ p₂ →
      ∃ m₁ p₁ code others, Returns (m.events c body) p m₁ p₁ ∧
        m₂.table = table.add info.access m.header.name m.header.descriptor (code :: others) ∧
        code.payload.Has 8 m₁.code.assembler.code.toList ∧
        (∀ e ∈ body, ∀ l ∈ e.branches, ∃ r, HasOperand c m p body (l, r)) ∧
        ∀ x, HasOperand c m p body x → ∃ place, HasPlace c m p body x.1 place ∧
          x.2.read m₁.code.assembler.code = .ok (x.2.distance place) := by
  obtain ⟨slots, hm, hinfo, htable⟩ := returns_start hstart
  have hevents : RaisesAt Error.Layout (m.events c body) p := by
    intro x p' h
    obtain ⟨before, e, after, m₁, p₁, rfl, hbefore, he⟩ := fails_events.1 h
    refine hother x p' (fails_events.2 ⟨before, e, after ++ [.finish], m₁, p₁, ?_, hbefore, he⟩)
    rw [List.append_assoc, List.cons_append]
  have hlabels := overflows_iff_overreaches (c := c) (p := p) hm hopen honce
  have hhas : ∀ {m₁ p₁}, Returns (m.events c body) p m₁ p₁ → m₁.hasCode = true := fun hret =>
    (header_events hopen hret).2.2.2 (.inr hcode)
  refine ⟨hlabels, fun before e after m₁ p₁ x p₂ hsplit hbefore he =>
    eq_label_of_fails hm hopen honce hevents hsplit hbefore he, fun hnear => ?_, fun m₂ p₂ hret => ?_⟩
  · rcases returns_or_fails (m.events c body) p with ⟨m₁, p₁, hret⟩ | ⟨x, p₁, hfails⟩
    · refine ⟨m₁, p₁, hret, (linked_events hm hopen honce hret).ends hret (hhas hret) ?_⟩
      exact fun x p' h => hother x p' (fails_events.2 ⟨body, _, [], m₁, p₁, rfl, hret, h⟩)
    · obtain ⟨before, e, after, m₂, p₂, hsplit, hbefore, he⟩ := fails_events.1 hfails
      obtain ⟨l, rfl⟩ := eq_label_of_fails hm hopen honce hevents hsplit hbefore he
      obtain ⟨source, target, rfl⟩ := overflow_of_label he
      exact absurd (hlabels.1 ⟨before, l, after, m₂, p₂, source, target, p₁, hsplit, hbefore, he⟩) hnear
  · obtain ⟨m₁, p₁, hbody, hlast⟩ := returns_events_append.1 hret
    obtain ⟨m₃, p₃, hfinish, hnil⟩ := returns_events_cons.1 hlast
    obtain ⟨rfl, rfl⟩ := returns_pure.1 hnil
    have hlinked := linked_events hm hopen honce hbody
    obtain ⟨hcheck, -, code, others, hadded, hbytes⟩ :=
      written_of_finish (hhas hbody) hfinish
    obtain ⟨hheader, hsame, -⟩ := header_events hopen hbody
    refine ⟨m₁, p₁, code, others, hbody, ?_, hbytes, fun e he l hl => hasOperand_of_branch hbody he hl,
      fun x hx => hlinked.read hbody hcheck hx⟩
    rw [hadded, hsame, htable, hheader, hinfo]

/-- **A plain event comes in**, if it is no label that cannot be placed, and adds few bytes. -/
theorem exists_event (name descriptor : ConstantIndex) {w : CodeWriter} (hw : w.graph.Frameless)
    (he : e.Plain)
    (hlabel : ∀ l, e = .label l → ∃ w', Returns (CodeWriter.label l w) p ((), w') p ∧ w'.size = w.size ∧
      w'.lines = w.lines ∧ w'.locals = w.locals) :
    ∃ w', Returns ((staticWriter name descriptor true w).event c e) p
        (staticWriter name descriptor true w') p ∧
      w'.size ≤ w.size + 8 ∧ w'.lines = w.lines ∧ w'.locals = w.locals := by
  cases e with
  | code => exact ⟨w, rfl, Nat.le_add_right _ _, rfl, rfl⟩
  | label l =>
    obtain ⟨w', hret, hsize, htables⟩ := hlabel l rfl
    exact ⟨w', onCode_static hret, hsize ▸ Nat.le_add_right _ _, htables⟩
  | handler start stop target caught =>
    obtain rfl : caught = none := he
    exact ⟨{ w with handlers := w.handlers.push ⟨start, stop, target, none⟩
                    graph := w.graph.addHandler ⟨start, stop, target, none⟩ },
      onCode_static rfl, Nat.le_add_right _ _, rfl, rfl⟩
  | instruction i =>
    cases i with
    | simple op =>
      obtain ⟨u, hu⟩ := Option.isSome_iff_exists.1 he
      obtain ⟨w', hret, ha, htables⟩ := CodeWriter.exists_instruction hw (p := p) (i := .simple op) rfl
        (BlockGraph.step_simple_heights hw.mode hu _ _ _ _)
      refine ⟨w', onCode_static hret, ?_, htables⟩
      rw [CodeWriter.size, ha, Assembler.size_put, Bytes.size_putU8]
      exact Nat.add_le_add_left (by decide) _
    | var op index =>
      obtain ⟨u, hu⟩ := Option.isSome_iff_exists.1 he
      obtain ⟨w', hret, ha, htables⟩ := CodeWriter.exists_instruction hw (p := p) (i := .var op index) rfl
        (BlockGraph.step_var_heights hw.mode hu _ _ _ _ _)
      refine ⟨w', onCode_static hret, ?_, htables⟩
      have hsize := Assembler.size_putLocal_le op index w.assembler.code
      rw [CodeWriter.size, ha, Assembler.size_put]
      exact hsize.trans (Nat.add_le_add_left (by decide) _)
    | jump op goal =>
      obtain ⟨slots, hop⟩ := Option.isSome_iff_exists.1 he
      obtain ⟨around, a, hencode⟩ : ∃ around a, Assembler.putJump op goal w.assembler = (around, a) :=
        ⟨_, _, rfl⟩
      obtain ⟨w', hret, ha, htables⟩ := CodeWriter.exists_instruction hw (p := p) (i := .jump op goal)
        (returns_pure.2 ⟨hencode, rfl⟩)
        (BlockGraph.step_jump_heights hw.mode hop _ _ _ _ _)
      refine ⟨w', onCode_static hret, ?_, htables⟩
      have hsize := Assembler.size_putJump_le op goal w.assembler
      rwa [hencode, ← ha] at hsize
    | _ => exact he.elim
  | _ => exact he.elim

/-- **Plain events come in** one after the other, as long as there are not too many. -/
theorem exists_events (name descriptor : ConstantIndex) (c : ClassContext) (p : ConstantPool)
    (hplain : ∀ e ∈ es, e.Plain) (honce : (es.filterMap MethodEvent.placed?).Nodup)
    (hshort : 8 * es.length ≤ 32767) :
    ∃ w, Returns (events c (staticWriter name descriptor false (.start .maxStack 0)) (.code :: es)) p
        (staticWriter name descriptor true w) p ∧
      w.size ≤ 8 * es.length ∧ w.lines = #[] ∧ w.locals = #[] := by
  have hopen : .finish ∉ .code :: es := fun h => by
    rcases List.mem_cons.1 h with h | h
    · exact nomatch h
    · exact (hplain _ h).elim
  induction es using List.reverseRecOn with
  | nil => exact ⟨.start .maxStack 0, rfl, Nat.le_refl _, rfl, rfl⟩
  | append_singleton es e ih =>
    rw [List.length_append, List.length_singleton] at hshort ⊢
    have hfront : (es.filterMap MethodEvent.placed?).Nodup := by
      rw [List.filterMap_append] at honce
      exact (List.nodup_append.1 honce).1
    have hm : (staticWriter name descriptor false (.start .maxStack 0)).code = .start .maxStack 0 := rfl
    rw [← List.cons_append] at hopen ⊢
    have hbefore : .finish ∉ .code :: es := fun h => hopen (List.mem_append_left _ h)
    obtain ⟨w, hret, hsize, hlines, hlocals⟩ := ih
      (fun e he => hplain e (List.mem_append_left _ he)) hfront (by omega) hbefore
    have hw : w.graph.Frameless := (linked_events hm hbefore hfront hret).frameless
    have hlabel : ∀ l, e = .label l → ∃ w', Returns (CodeWriter.label l w) p ((), w') p ∧
        w'.size = w.size ∧ w'.lines = w.lines ∧ w'.locals = w.locals := by
      rintro l rfl
      have hnear : w.size ≤ 32767 := by omega
      have hplaced := exists_label hm hopen honce hret hnear
      exact hplaced
    obtain ⟨w', he, hsize', hlines', hlocals'⟩ := exists_event (c := c) name descriptor hw
      (hplain e (List.mem_append_right _ (List.mem_singleton.2 rfl))) hlabel
    exact ⟨w', returns_events_append.2 ⟨_, p, hret, returns_events_singleton.2 he⟩, by omega,
      hlines'.trans hlines, hlocals'.trans hlocals⟩

/-- A jump to a label that is never placed. -/
def lostBody : List MethodEvent := [.code, .instruction (.jump Opcode.goto ⟨0, false⟩)]

theorem events_lost (name descriptor : ConstantIndex) (c : ClassContext) (p : ConstantPool) :
    ∃ w, Returns (events c (staticWriter name descriptor false (.start .maxStack 0)) lostBody) p
      (staticWriter name descriptor true w) p ∧ ∃ l, w.check = .error (.unresolvedLabel l) := by
  have hplain : ∀ e ∈ lostBody.tail, e.Plain := by
    intro e he
    obtain rfl := List.mem_singleton.1 he
    exact (by decide +kernel : Opcode.goto.stackDelta?.isSome = true)
  have honce : (lostBody.filterMap MethodEvent.placed?).Nodup := List.nodup_nil
  obtain ⟨w, hret, -⟩ := exists_events name descriptor c p hplain honce (by decide)
  refine ⟨w, hret, ?_⟩
  have hlinked := linked_events rfl (by simp [lostBody]) honce hret
  have hmissing : Missing MethodEvent.branches lostBody ⟨0, false⟩ := by
    simp [Missing, lostBody, MethodEvent.branches, Instruction.targets]
  have hwaits : w.assembler.Waits ⟨0, false⟩ := (hlinked.waits_iff hret).2 hmissing
  rw [CodeWriter.check_eq]
  cases hfirst : w.assembler.firstWaiting? with
  | some l => exact ⟨l, rfl⟩
  | none => exact absurd hwaits (Assembler.not_waits_of_firstWaiting? hfirst _)

theorem fails_finish_of_check {x : Error} (hcode : m.hasCode = true) (hcheck : m.code.check = .error x) :
    Fails (m.finish c) p x p := by
  refine fails_bind.2 (.inl ?_)
  unfold codeAttribute
  rw [hcode, if_pos rfl]
  refine fails_bind.2 (.inl ?_)
  exact fails_bind_above.2 (.inr ⟨_, _, _, returns_get_above.2 ⟨rfl, rfl, rfl⟩,
    fails_bind_above.2 (.inl (fails_except_above.2 ⟨hcheck, rfl⟩))⟩)

/-- The end of a method that jumps to a label that is never placed. -/
theorem fails_exactly_lost : ∃ m p l m₁ p₁ p₂,
    Returns (start .maxStack staticInfo .empty) .empty m p ∧ MethodEvent.code ∈ lostBody ∧
      .finish ∉ lostBody ∧ (lostBody.filterMap MethodEvent.placed?).Nodup ∧
      RaisesAt Error.Layout
        (m.events (ClassWriter.start ⟨.maxStack, .empty⟩).context (lostBody ++ [.finish])) p ∧
      Returns (m.events (ClassWriter.start ⟨.maxStack, .empty⟩).context lostBody) p m₁ p₁ ∧
      Missing MethodEvent.branches lostBody l ∧
      Fails (m₁.event (ClassWriter.start ⟨.maxStack, .empty⟩).context .finish) p₁
        (.unresolvedLabel l) p₂ := by
  obtain ⟨name, descriptor, p, hstarts, -⟩ := starts_static ⟨.maxStack, .empty⟩
  obtain ⟨hstart, -⟩ := ClassWriter.returns_startMethod.1 hstarts
  obtain ⟨w, hret, l, hcheck⟩ := events_lost name descriptor
    (ClassWriter.start ⟨.maxStack, .empty⟩).context p
  have hcode : .code ∈ lostBody := List.mem_cons_self
  have hopen : .finish ∉ lostBody := by simp [lostBody]
  have honce : (lostBody.filterMap MethodEvent.placed?).Nodup := List.nodup_nil
  have hother : RaisesAt Error.Layout (events (ClassWriter.start ⟨.maxStack, .empty⟩).context
      (staticWriter name descriptor false (.start .maxStack 0)) (lostBody ++ [.finish])) p := by
    have hfinish := fails_finish_of_check (c := (ClassWriter.start ⟨.maxStack, .empty⟩).context)
      (m := staticWriter name descriptor true w) (p := p) rfl hcheck
    exact (fails_events.2 ⟨lostBody, .finish, [], _, p, rfl, hret, hfinish⟩).raisesAt trivial
  have hnear : ¬ Overreaches (ClassWriter.start ⟨.maxStack, .empty⟩).context
      (staticWriter name descriptor false (.start .maxStack 0)) p lostBody := by
    rintro ⟨before, op, goal, between, after, -, -, -, -, hsplit, -⟩
    have hgoal : .label goal ∈ lostBody := by
      rw [hsplit]
      simp
    simp [lostBody] at hgoal
  have hmissing : Missing MethodEvent.branches lostBody ⟨0, false⟩ := by
    simp [Missing, lostBody, MethodEvent.branches, Instruction.targets]
  obtain ⟨-, -, hends, -⟩ := fails_exactly hstart hcode hopen honce hother
  obtain ⟨m₁, p₁, hbody, hend⟩ := hends hnear
  obtain ⟨k, p₂, hk, hfails⟩ := hend.branch ⟨_, hmissing⟩
  exact ⟨_, p, k, m₁, p₁, p₂, hstart, hcode, hopen, honce, hother, hbody, hk, hfails⟩

end MethodWriter

end ClassFile
