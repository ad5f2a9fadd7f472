/-
# The types that a method refers to

All methods of a class share one table of types, in which equal entries have one number.  So a method may
come upon an entry for a `new` instruction of another one, which is at the same offset and makes the same
class.  Nevertheless the frames of a method refer to its own `new` instructions only (`InMethod`): each
event keeps that, and so does the end (`CodeWriter.InMethod.analyse`).

Two things are asked of the class.  What its table remembers of merges are classes, which is so from the
start on, whatever its methods have been (`ClassWriter.Run.joined`).  And the pool is sound.  Then the
analysis of a method and the writing of its frames never ask for a type that is not there, and what is
written as uninitialized is at a `new` instruction (`ClassWriter.Run.frames_refer_to_types`).
-/
import ClassFile.Proofs.Code.Modes
import ClassFile.Proofs.Code.Switches
import ClassFile.Proofs.StackMap.Made

namespace ClassFile

variable {h : Hierarchy} {made : Nat → Bool} {mode : ComputeMode} {p p' : ConstantPool}

/-! ## 1. Events of code -/

namespace CodeWriter

variable {w w' : CodeWriter}

/-- **Code on the way**, in a method that makes something at the offsets `made` only. -/
structure InMethod (h : Hierarchy) (made : Nat → Bool) (mode : ComputeMode) (w : CodeWriter)
    (p : ConstantPool) : Prop where
  kept : Kept h w p
  joined : p.types.Joined
  graph : mode = .frames ∧ w.graph.WellBuilt (p.types.within made) ∨
    mode = .maxStack ∧ w.graph.Frameless

theorem inMethod_start (hp : p.Sound h) (hjoined : p.types.Joined) (mode : ComputeMode)
    (slots : UInt16) : InMethod h made mode (start mode slots) p := by
  refine ⟨kept_start hp mode slots, hjoined, ?_⟩
  cases mode with
  | frames => exact .inl ⟨rfl, BlockGraph.wellBuilt_start⟩
  | maxStack => exact .inr ⟨rfl, BlockGraph.frameless_start⟩

namespace InMethod

/-- Types stay as they are, and so does the graph. -/
theorem later (hw : InMethod h made mode w p) (hp : p'.Sound h) (hle : p ≤ p')
    (htypes : p'.types = p.types) (hgraph : w'.graph = w.graph) : InMethod h made mode w' p' := by
  refine ⟨(hw.kept.later hp hle hgraph).1, htypes ▸ hw.joined, ?_⟩
  rw [hgraph, htypes]
  exact hw.graph

/-- **A `new` instruction makes something** at the end of what has been written. -/
theorem instruction (hw : InMethod h made mode w p) {i : Instruction Label}
    (hnew : i.makesObject = true → made w.size = true) {u : Unit}
    (hret : Returns (CodeWriter.instruction i w) p (u, w') p') : InMethod h made mode w' p' := by
  obtain ⟨hkept, -⟩ := hw.kept.instruction hret
  obtain ⟨around, a, p₁, g, T, hencode, hstep, rfl, -, -, hgraph⟩ := returns_instruction hret
  have htypes : p₁.types = p.types := (Assembler.interning_encode i w.assembler).types_eq hencode
  rw [htypes] at hstep
  have hreported : (reported i).makesObject = i.makesObject := by
    cases i <;> rfl
  have hstepped : T.Joined ∧ (mode = .frames ∧ g.WellBuilt (T.within made) ∨
      mode = .maxStack ∧ g.Frameless) := by
    rcases hw.graph with ⟨hmode, hg⟩ | ⟨hmode, hg⟩
    · have hin := hg.step_inMethod hw.kept.sound.types a.code.size around (hreported ▸ hnew) hstep
      exact ⟨hw.joined.later hin.grown hin.merges_eq, .inl ⟨hmode, hin.wellBuilt⟩⟩
    · have hquiet := BlockGraph.quiet_step w.size a.code.size around (reported i) w.graph p.types hg
      rw [hstep] at hquiet
      obtain ⟨hg', rfl, -⟩ := hquiet
      exact ⟨hw.joined, .inr ⟨hmode, hg'⟩⟩
  obtain ⟨hjoined, hg⟩ := hstepped
  refine ⟨hkept, hjoined, ?_⟩
  rcases hgraph with ⟨hgraph, -⟩ | ⟨-, hgraph⟩ <;> rw [hgraph]
  · exact hg
  · exact hg.imp (And.imp_right fun hg => hg.splitAt _)
      (And.imp_right fun hg => hg.newBlock.startBlock _ _)

theorem label (hw : InMethod h made mode w p) {l : Label} {u : Unit}
    (hret : Returns (CodeWriter.label l w) p (u, w') p') : InMethod h made mode w' p' := by
  obtain ⟨hkept, -⟩ := hw.kept.label hret
  obtain ⟨a, -, rfl, rfl⟩ := returns_label hret
  refine ⟨hkept, hw.joined, ?_⟩
  dsimp only
  split
  · exact hw.graph
  · exact hw.graph.imp (And.imp_right fun hg => hg.label l _) (And.imp_right fun hg => hg.label l _)

theorem handler (hw : InMethod h made mode w p) {start stop target : Label} {caught : Option String}
    {u : Unit} (hret : Returns (CodeWriter.handler start stop target caught w) p (u, w') p') :
    InMethod h made mode w' p' := by
  obtain ⟨hkept, -⟩ := hw.kept.handler hret
  obtain ⟨index, rfl, hpool⟩ := returns_handler_parts hret
  have htypes : p'.types = p.types := by
    rcases hpool with ⟨-, -, rfl⟩ | ⟨name, i, -, -, hclass⟩
    · rfl
    · exact (ConstantPool.interning_classRef name).types_eq hclass
  refine ⟨hkept, htypes ▸ hw.joined, ?_⟩
  rw [htypes]
  exact hw.graph.imp (And.imp_right fun hg => hg.addHandler _)
    (And.imp_right fun hg => hg.addHandler _)

/-- In a graph with frames, nothing leads outside, neither as the table is nor as the method sees it. -/
theorem wellBuilt (hw : InMethod h made .frames w p) :
    w.graph.WellBuilt p.types ∧ w.graph.WellBuilt (p.types.within made) := by
  obtain ⟨-, hg⟩ := hw.graph.resolve_right fun h => nomatch h.1
  exact ⟨hw.kept.graph.resolve_right fun h => (nomatch hg.mode.symm.trans h.mode), hg⟩

theorem frameless (hw : InMethod h made .maxStack w p) : w.graph.Frameless :=
  (hw.graph.resolve_left fun h => nomatch h.1).2

theorem whole (hw : InMethod h made mode w p) : p.types.Whole h := ⟨hw.kept.sound.types, hw.joined⟩

/-! ## 2. The analysis -/

variable {context : MethodContext}

/-- **The analysis asks for no type that is not there**, neither while frames are inferred nor while they
are written. -/
theorem raisesAt_analyse (hw : InMethod h made .frames w p) (hcontext : context.hierarchy = h) :
    RaisesAt Error.NotAboutTypes (analyse context w) p := by
  intro e p' hfails
  obtain ⟨hg, hg'⟩ := hw.wellBuilt
  have hT : p.types.Whole context.hierarchy := hcontext ▸ hw.whole
  rcases fails_bind_above.1 hfails with hfails | ⟨_, w₁, p₁, hget, hfails⟩
  · cases hfails
  obtain ⟨rfl, rfl, rfl⟩ := returns_get_above.1 hget
  rw [hg.mode] at hfails
  rcases fails_bind_above.1 hfails with hfails | ⟨⟨n, entry⟩, w₂, p₂, hinfer, hfails⟩
  · rcases hrun : BlockGraph.infer context w.graph p.types with ⟨⟨r, g⟩, T⟩
    have herror := error_of_onGraph hfails
    rw [hrun] at herror
    obtain rfl : r = .error e := herror
    exact hg.safe_infer hT hg' hrun
  obtain ⟨g, T, hrun, rfl, rfl⟩ := returns_onGraph.1 hinfer
  obtain ⟨hT', hknown, hentry⟩ := hg.safe_infer hT hg' hrun
  obtain ⟨-, hle, -⟩ := hg.infer_returns hT.sound hrun
  obtain ⟨hs, -⟩ := hw.kept.sound.withTypes (hcontext ▸ hT'.sound) hle
  rcases fails_bind_above.1 hfails with hfails | ⟨_, w₃, p₃, hget, hfails⟩
  · cases hfails
  obtain ⟨rfl, rfl, rfl⟩ := returns_get_above.1 hget
  rcases fails_bind_above.1 hfails with hfails | ⟨frames, w₄, p₄, -, hfails⟩
  · exact BlockGraph.raisesAt_stackMap hs hentry hknown e p' (fails_lift_above.1 hfails)
  · cases hfails

/-- **What the analysis leaves**: all types of the frames are known, and the offsets that are written with
them are those where the method makes something. -/
theorem analyse (hw : InMethod h made mode w p) (hcontext : context.hierarchy = h) {maxStack : UInt16}
    {frames : List MapFrame}
    (hret : Returns (CodeWriter.analyse context w) p ((maxStack, frames), w') p') :
    p'.types.Joined ∧ (mode = .frames →
      BlockGraph.AllKnown (fun o => made o = true) p'.types w'.graph.blocks) ∧
    ∀ f ∈ frames, ∀ offset, .uninitialized offset ∈ f.types →
      ∃ n, made n = true ∧ offset = UInt16.ofNat n := by
  cases mode with
  | maxStack =>
    obtain ⟨-, hnone⟩ := graph_of_analyse hret
    obtain ⟨-, -, -, -, -, rfl⟩ := returns_analyse_heights hw.frameless hret
    rw [hnone hw.frameless.mode]
    exact ⟨hw.joined, (nomatch ·), fun _ hf => absurd hf List.not_mem_nil⟩
  | frames =>
    obtain ⟨hg, hg'⟩ := hw.wellBuilt
    have hT : p.types.Whole context.hierarchy := hcontext ▸ hw.whole
    obtain ⟨entry, g, T, hrun, rfl, hmap⟩ := returns_analyse_frames hg.mode hret
    obtain ⟨hT', hknown, -⟩ := hg.safe_infer hT hg' hrun
    obtain ⟨-, hle, -⟩ := hg.infer_returns hT.sound hrun
    obtain ⟨hs, -⟩ := hw.kept.sound.withTypes (hcontext ▸ hT'.sound) hle
    have htypes : p'.types = T := ConstantPool.sameTypes_stackMap _ _ _ _ _ hmap
    rw [htypes]
    exact ⟨hT'.joined, fun _ => hknown, fun f hf offset hv =>
      BlockGraph.made_of_stackMap hs hknown hmap hf hv⟩

end InMethod

/-- What is refused before the analysis is not refused for a type. -/
theorem notAboutTypes_of_check {e : Error} (hcheck : w.check = .error e) : e.NotAboutTypes := by
  rw [check_eq] at hcheck
  split at hcheck
  · cases hcheck
    exact fun _ => nofun
  · split at hcheck
    · cases hcheck
      exact fun _ => nofun
    · exact nomatch hcheck

theorem eq_of_mem_optional {α : Type} {content : List α → Attribute} {entries : List α} {a : Attribute}
    (ha : a ∈ optional content entries) : a = content entries := by
  unfold optional at ha
  split at ha
  · exact absurd ha List.not_mem_nil
  · exact List.mem_singleton.1 ha

/-- The stack map is the only table that has frames. -/
theorem frames_of_mem {lines : List LineEntry} {locals : List LocalEntry} {frames frames' : List MapFrame}
    (hmem : Attribute.stackMapTable frames' ∈ optional .lineNumberTable lines ++
      optional .localVariableTable locals ++ optional .stackMapTable frames) : frames' = frames := by
  rcases List.mem_append.1 hmem with hmem | hmem
  · rcases List.mem_append.1 hmem with hmem | hmem
    · exact nomatch eq_of_mem_optional hmem
    · exact nomatch eq_of_mem_optional hmem
  · exact Attribute.stackMapTable.inj (eq_of_mem_optional hmem)

end CodeWriter

/-! ## 3. Methods -/

/-- What makes an object is a `new` instruction. -/
theorem Instruction.exists_name_of_makesObject {τ : Type} {i : Instruction τ}
    (hi : i.makesObject = true) : ∃ name, i = .type Opcode.new name := by
  cases i
  case type op name =>
    obtain rfl : op = Opcode.new := eq_of_beq hi
    exact ⟨name, rfl⟩
  all_goals exact nomatch hi

namespace MethodWriter

variable {c : ClassContext} {m m' m₁ : MethodWriter} {p₁ : ConstantPool} {e : MethodEvent}
  {es : List MethodEvent} {Q : MethodEvent → CodeWriter → Prop}

/-- What the first event comes upon is the code that was there. -/
theorem Meets.head (hQ : Q e m.code) : Meets c m p (e :: es) Q :=
  ⟨[], e, es, m, p, rfl, returns_pure.2 ⟨rfl, rfl⟩, hQ⟩

theorem Meets.tail (he : Returns (m.event c e) p m₁ p₁) (hes : Meets c m₁ p₁ es Q) :
    Meets c m p (e :: es) Q := by
  obtain ⟨before, e', after, m₂, p₂, rfl, hbefore, hQ⟩ := hes
  exact ⟨e :: before, e', after, m₂, p₂, rfl, returns_events_cons.2 ⟨m₁, p₁, he, hbefore⟩, hQ⟩

/-- **A `new` instruction of the method** begins at this offset. -/
def MakesAt (c : ClassContext) (m : MethodWriter) (p : ConstantPool) (es : List MethodEvent)
    (offset : Nat) : Prop :=
  Meets c m p es fun e w => (∃ name, e = .instruction (.type Opcode.new name)) ∧ w.size = offset

/-- It begins before the end of the code. -/
theorem MakesAt.le_size {offset : Nat} (h : MakesAt c m p es offset) (hopen : .finish ∉ es)
    (hret : Returns (m.events c es) p m' p') : offset ≤ m'.code.size := by
  obtain ⟨before, e, after, m₁, p₁, rfl, hbefore, -, rfl⟩ := h
  obtain ⟨m₂, p₂, hbefore', hafter⟩ := returns_events_append.1 hret
  cases hbefore.symm.trans hbefore'
  exact size_events_le (fun hmem => hopen (List.mem_append_right _ hmem)) hafter

/-- **An event** refers to what the method has made. -/
theorem inMethod_event (hm : CodeWriter.InMethod h made mode m.code p) (he : e ≠ .finish)
    (hnew : ∀ name, e = .instruction (.type Opcode.new name) → made m.code.size = true)
    (hret : Returns (m.event c e) p m' p') : CodeWriter.InMethod h made mode m'.code p' := by
  rcases returns_event he hm.kept.sound hret with ⟨hs, hle, -, hgraph, -, hother⟩ |
    ⟨_, _, _, _, rfl, hrun⟩ | ⟨i, rfl, hrun⟩ | ⟨l, rfl, hrun⟩
  · exact hm.later hs hle ((interning_event hother he).types_eq hret) hgraph
  · exact hm.handler hrun
  · refine hm.instruction (fun hi => ?_) hrun
    obtain ⟨name, rfl⟩ := i.exists_name_of_makesObject hi
    exact hnew name rfl
  · exact hm.label hrun

/-- **All events**, by induction. -/
theorem inMethod_events (hm : CodeWriter.InMethod h made mode m.code p) (hopen : .finish ∉ es)
    (hmade : ∀ offset, MakesAt c m p es offset → made offset = true)
    (hret : Returns (m.events c es) p m' p') : CodeWriter.InMethod h made mode m'.code p' := by
  induction es generalizing m p with
  | nil =>
    obtain ⟨rfl, rfl⟩ := returns_pure.1 hret
    exact hm
  | cons e es ih =>
    obtain ⟨m₁, p₁, he, hrest⟩ := returns_events_cons.1 hret
    rw [List.mem_cons, not_or] at hopen
    refine ih (inMethod_event hm (Ne.symm hopen.1) ?_ he) hopen.2 ?_ hrest
    · intro name hname
      exact hmade _ (Meets.head ⟨⟨name, hname⟩, rfl⟩)
    · intro offset hoffset
      exact hmade offset (Meets.tail he hoffset)

/-- **The attribute of code** refers to what the method has made: with all types that have been inferred,
and with all offsets in its stack map. -/
structure Refers (made : Nat → Bool) (m : MethodWriter) (p : ConstantPool) (code : RawAttribute) :
    Prop where
  short : m.code.size ≤ 65535
  written : ∃ x : CodeContent, x.Written (fun i name => p.text? i = some name) code ∧
    ∀ frames, .stackMapTable frames ∈ x.tables → ∀ f ∈ frames, ∀ offset,
      .uninitialized offset ∈ f.types → ∃ n, made n = true ∧ offset = UInt16.ofNat n

/-- Behind the code, nothing changes types. -/
theorem types_of_finish (hret : Returns (m.finish c) p m' p') {attributes : List RawAttribute}
    (hcode : Returns (m.codeAttribute c) p (attributes, m'.code) p₁) : p'.types = p₁.types := by
  obtain ⟨_, default, annotations, parameters, _, p₂, p₃, hcode', hdefault, hannotations, hparameters,
    -⟩ := returns_finish_parts hret
  cases hcode.symm.trans hcode'
  exact ((ParameterAnnotations.interning_attributes _ _).types_eq hparameters).trans
    (((DeclaredAnnotations.interning_attributes _).types_eq hannotations).trans
      ((interning_defaultAttribute _).types_eq hdefault))

/-- **The end of a method**: the types are in order for the next one. -/
theorem inMethod_finish (hm : CodeWriter.InMethod c.hierarchy made mode m.code p)
    (hret : Returns (m.finish c) p m' p') : p'.types.Joined ∧
      (mode = .frames →
        BlockGraph.AllKnown (fun o => made o = true) p'.types m'.code.graph.blocks) ∧
      ∃ attributes others, m'.table = m.table.add m.header.info.access m.header.name
        m.header.descriptor (attributes ++ others) ∧
        (m.hasCode = false ∧ attributes = [] ∨
          m.hasCode = true ∧ ∃ code, attributes = [code] ∧ Refers made m p' code) := by
  obtain ⟨attributes, others, p₁, hcode, htable, hlater⟩ := returns_finish (h := c.hierarchy) hret
  have htypes := types_of_finish hret hcode
  rcases returns_codeAttribute hcode with ⟨hyes, a, rfl, hfinish⟩ | ⟨hno, rfl, hsame, rfl⟩
  · obtain ⟨maxStack, handlers, lines, locals, frames, -, -, -, ⟨p₂, hanalyse, hsame⟩, hwritten⟩ :=
      CodeWriter.content_of_finish (h := c.hierarchy) (fun _ => rfl) (fun _ => rfl) hfinish
    obtain ⟨hjoined, hknown, hoffsets⟩ := hm.analyse rfl hanalyse
    rw [← htypes.trans hsame] at hjoined hknown
    obtain ⟨hcheck, -⟩ := CodeWriter.returns_finish hfinish
    obtain ⟨hs₁, -⟩ := hm.kept.finish (fun _ => rfl) hfinish
    have hwritten' := hwritten.mono fun i text hi =>
      ConstantPool.text?_later (hlater hs₁).2 (hi hm.kept)
    refine ⟨hjoined, hknown, [a], others, htable, .inr ⟨hyes, a, rfl, ?_, _, hwritten', ?_⟩⟩
    · exact (CodeWriter.check_eq_ok_iff.1 hcheck).2
    · intro frames' hmem
      obtain rfl := CodeWriter.frames_of_mem hmem
      exact hoffsets
  · refine ⟨htypes ▸ hm.joined, ?_, [], others, htable, .inl ⟨hno, rfl⟩⟩
    rintro rfl
    obtain ⟨hg, hg'⟩ := hm.wellBuilt
    rw [htypes, hsame]
    exact hg.known hg'

/-- Types stay in order while a method is written, with its end or without. -/
theorem joined_events (hm : CodeWriter.InMethod c.hierarchy (fun _ => true) mode m.code p) (hes : Closed es)
    (hret : Returns (m.events c es) p m' p') : p'.types.Joined := by
  rcases es.eq_nil_or_concat' with rfl | ⟨before, e, rfl⟩
  · obtain ⟨-, rfl⟩ := returns_pure.1 hret
    exact hm.joined
  rw [Closed, List.dropLast_concat] at hes
  obtain ⟨m₁, p₁, hbefore, hlast⟩ := returns_events_append.1 hret
  have hm₁ := inMethod_events hm hes (fun _ _ => rfl) hbefore
  have he := returns_events_singleton.1 hlast
  by_cases hfinish : e = .finish
  · obtain ⟨hjoined, -⟩ := inMethod_finish hm₁ (hfinish ▸ he)
    exact hjoined
  · exact (inMethod_event hm₁ hfinish (fun _ _ => rfl) he).joined

end MethodWriter

/-! ## 4. Classes -/

namespace ClassWriter

variable {options : WriterOptions} {w w' : ClassWriter}

theorem joined_event (hp : p.Sound w.options.hierarchy) (hjoined : p.types.Joined) {e : ClassEvent}
    (he : e.Closed) (hret : Returns (w.event e) p w' p') : p'.types.Joined := by
  cases e with
  | header version access name info =>
    obtain ⟨header, p₁, hof, hret₁⟩ := returns_bind.1 hret
    obtain ⟨-, rfl⟩ := returns_pure.1 hret₁
    exact (ClassHeader.interning_of _ _ _ _).types_eq hof ▸ hjoined
  | annotated a =>
    obtain ⟨annotations, p₁, hadd, hret₁⟩ := returns_bind.1 hret
    obtain ⟨-, rfl⟩ := returns_pure.1 hret₁
    exact (DeclaredAnnotations.interning_add _ _).types_eq hadd ▸ hjoined
  | innerClass c =>
    obtain ⟨table, p₁, hadd, hret₁⟩ := returns_bind.1 hret
    obtain ⟨-, rfl⟩ := returns_pure.1 hret₁
    exact (InnerClassTable.interning_add _ _).types_eq hadd ▸ hjoined
  | field info es => exact (interning_field info es w).types_eq hret ▸ hjoined
  | method info es =>
    obtain ⟨⟨m, w₁⟩, p₁, hstart, hret₁⟩ := returns_bind.1 hret
    obtain ⟨hstart', rfl⟩ := returns_startMethod.1 hstart
    obtain ⟨m', p₂, hevents, hret₂⟩ := returns_bind.1 hret₁
    obtain ⟨-, rfl⟩ := returns_pure.1 hret₂
    obtain ⟨hs₁, -⟩ := MethodWriter.leads_start _ _ _ _ _ _ hstart' hp
    obtain ⟨slots, hcode, -, -⟩ := MethodWriter.returns_start hstart'
    have hjoined₁ := (MethodWriter.interning_start _ _ _).types_eq hstart' ▸ hjoined
    exact MethodWriter.joined_events (hcode ▸ CodeWriter.inMethod_start hs₁ hjoined₁ _ slots) he hevents
  | finish =>
    obtain ⟨-, rfl⟩ := returns_pure.1 hret
    exact hjoined

/-- **What has been merged in a class** are classes, whatever its methods have been and whatever the
hierarchy is like. -/
theorem Run.joined (hrun : Run options w p) : p.types.Joined := by
  induction hrun with
  | fresh => exact TypeTable.joined_empty
  | copied hcopy => exact (ConstantPool.sound_copyOf hcopy).types.joined Hierarchy.rooted_empty
  | event hrun he hret ih =>
    obtain ⟨hp, rfl⟩ := hrun.sound
    exact joined_event hp ih he hret

/-- **The frames of a method refer to types that are there**, in a class that is being written.  Any
methods may have been written before, into the same table of types, and classes may go round in a cycle.

Whatever the events of the method are, all types in its frames are known: an object has the number of a
class, and what is uninitialized has the number of an entry for a `new` instruction of this method.  The
end of the method does not fail for a type that is not there.  If the method is written, all types that
have been inferred are known as well, and each offset in its stack map is that of one of its `new`
instructions. -/
theorem Run.frames_refer_to_types {w₁ : ClassWriter} {p₁ p₂ : ConstantPool} {m m₂ : MethodWriter}
    {info : MethodInfo} {body : List MethodEvent} (hrun : Run options w p)
    (hmode : w.context.mode = .frames) (hstart : Returns (w.startMethod info) p (m, w₁) p₁)
    (hopen : .finish ∉ body) (hevents : Returns (m.events w₁.context body) p₁ m₂ p₂) :
    BlockGraph.AllKnown (m.MakesAt w₁.context p₁ body) p₂.types m₂.code.graph.blocks ∧
    RaisesAt Error.NotAboutTypes (m₂.event w₁.context .finish) p₂ ∧
    ∀ m' p', Returns (m₂.event w₁.context .finish) p₂ m' p' →
      BlockGraph.AllKnown (m.MakesAt w₁.context p₁ body) p'.types m'.code.graph.blocks ∧
      ∃ attributes others, m'.table = w.methods.add info.access m.header.name m.header.descriptor
        (attributes ++ others) ∧
        (.code ∉ body ∧ attributes = [] ∨ .code ∈ body ∧ ∃ code x, attributes = [code] ∧
          CodeContent.Written (fun i name => p'.text? i = some name) x code ∧
          ∀ frames, .stackMapTable frames ∈ x.tables → ∀ f ∈ frames, ∀ offset,
            .uninitialized offset ∈ f.types → m.MakesAt w₁.context p₁ body offset.toNat) := by
  obtain ⟨made, hmade⟩ : ∃ made : Nat → Bool,
      ∀ o, made o = true ↔ m.MakesAt w₁.context p₁ body o := by
    classical exact ⟨fun o => decide (m.MakesAt w₁.context p₁ body o), fun _ => decide_eq_true_iff⟩
  have hsame : (fun o => made o = true) = m.MakesAt w₁.context p₁ body :=
    funext fun o => propext (hmade o)
  obtain ⟨hp, rfl⟩ := hrun.sound
  obtain ⟨hstart', rfl⟩ := returns_startMethod.1 hstart
  obtain ⟨slots, hcode, hinfo, htable⟩ := MethodWriter.returns_start hstart'
  obtain ⟨hs₁, -⟩ := MethodWriter.leads_start _ _ _ _ _ _ hstart' hp
  have hjoined : p₁.types.Joined :=
    (MethodWriter.interning_start _ _ _).types_eq hstart' ▸ hrun.joined
  have hm : CodeWriter.InMethod w.options.hierarchy made .frames m.code p₁ := by
    rw [hcode, show w.header.mode w.options = .frames from hmode]
    exact CodeWriter.inMethod_start hs₁ hjoined .frames slots
  have hm₂ := MethodWriter.inMethod_events hm hopen (fun o => (hmade o).2) hevents
  obtain ⟨hg, hg'⟩ := hm₂.wellBuilt
  obtain ⟨hheader, htable₂, hhas⟩ := MethodWriter.header_events hopen hevents
  refine ⟨hsame ▸ hg.known hg', ?_, fun m' p' hret => ?_⟩
  · intro e q hfails
    rcases MethodWriter.fails_finish (fun _ _ _ => nofun)
      (fun context hcontext => hm₂.raisesAt_analyse hcontext) hfails with
      htypes | hcheck | ⟨-, l, -, -, rfl⟩
    · exact htypes
    · exact CodeWriter.notAboutTypes_of_check hcheck
    · exact fun _ => nofun
  · obtain ⟨-, hknown, attributes, others, hadded, hattributes⟩ := MethodWriter.inMethod_finish hm₂ hret
    rw [htable₂, htable, hheader, hinfo] at hadded
    rw [MethodWriter.hasCode_start hstart'] at hhas
    refine ⟨hsame ▸ hknown rfl, attributes, others, hadded, ?_⟩
    rcases hattributes with ⟨hno, hnone⟩ | ⟨hyes, code, hone, hshort, x, hwritten, hoffsets⟩
    · exact .inl ⟨fun hmem => by simp [hhas.2 (.inr hmem)] at hno, hnone⟩
    refine .inr ⟨(hhas.1 hyes).resolve_left Bool.false_ne_true, code, x, hone, hwritten, ?_⟩
    intro frames hframes f hf offset hv
    obtain ⟨n, hn, rfl⟩ := hoffsets frames hframes f hf offset hv
    have hmakes := (hmade n).1 hn
    -- the method is short, so the two bytes of an offset are enough
    have hsize := hmakes.le_size hopen hevents
    rwa [UInt16.toNat_ofNat_of_lt' (show n < 65536 by omega)]

/-- The body of a method that makes an object. -/
def madeBody : List MethodEvent :=
  [.code, .instruction (.type Opcode.new "A"), .instruction (.simple Opcode.return_)]

/-- The graph behind the instruction that makes it. -/
def madeGraph (i : TypeIndex) : BlockGraph :=
  (BlockGraph.start .frames).onBlock 0 fun b =>
    { b with frame := some (Frame.empty.push (.scalar (.uninitialized i))) }

theorem step_new_made {T T' : TypeTable} {i : TypeIndex}
    (hmakes : Returns (TypeTable.uninitialized "A" 0) T i T') :
    BlockGraph.step 0 3 false (.type Opcode.new "A") (BlockGraph.start .frames) T =
      ((.ok (), madeGraph i), T') := by
  have hact : BlockGraph.frameStep 0 (.type Opcode.new "A") Frame.empty T =
      ((.ok (), Frame.empty.push (.scalar (.uninitialized i))), T') :=
    returns₂_bind.2 ⟨i, _, T', Frame.returns₂_onTypes.2 ⟨hmakes, rfl⟩, rfl⟩
  rw [BlockGraph.step_apply rfl, BlockGraph.onFrame_current rfl rfl rfl hact]
  rfl

theorem events_made (name descriptor : ConstantIndex) (c : ClassContext) (hp : p.Sound h)
    (hroom : p.records.nextOffset ≤ 3) : ∃ w p',
    Returns (MethodWriter.events c (staticWriter name descriptor false (.start .frames 0)) madeBody) p
      (staticWriter name descriptor true w) p' := by
  obtain ⟨index, p₁, hclass, -⟩ : ∃ i q, Returns (ConstantPool.classRef "A") p i q ∧
      ConstantPool.Within 2 p q :=
    ConstantPool.takes_classRef (by decide) (by omega)
  obtain ⟨hp₁, -⟩ := ConstantPool.leads_classRef _ _ _ _ hclass hp
  obtain ⟨i, T, hmakes, -⟩ := hp₁.types.intern (.uninitialized "A" 0)
  have hencode : Returns (Assembler.encode (.type Opcode.new "A") .empty) p
      (false, Assembler.empty.put fun b => b.put12 Opcode.new index) p₁ :=
    returns_bind_above.2 ⟨index, _, p₁, returns_lift_above.2 ⟨hclass, rfl⟩, rfl⟩
  have hnew : Returns (CodeWriter.instruction (.type Opcode.new "A") (.start .frames 0)) p
      ((), { CodeWriter.start .frames 0 with
        assembler := Assembler.empty.put fun b => b.put12 Opcode.new index
        graph := madeGraph i }) { p₁ with types := T } := by
    refine returns_bind_above.2 ⟨_, _, p, returns_get_above.2 ⟨rfl, rfl, rfl⟩, ?_⟩
    refine returns_bind_above.2 ⟨false, _, p₁, CodeWriter.returns_onAssembler.2 ⟨_, hencode, rfl⟩, ?_⟩
    refine returns_bind_above.2 ⟨(), _, p₁, rfl, ?_⟩
    refine returns_bind_above.2 ⟨_, _, p₁, returns_get_above.2 ⟨rfl, rfl, rfl⟩, ?_⟩
    exact returns_bind_above.2 ⟨(), _, _, CodeWriter.returns_onGraph.2 ⟨_, T, step_new_made hmakes, rfl, rfl⟩,
      rfl⟩
  exact ⟨_, _, MethodWriter.returns_events_cons.2 ⟨_, p, rfl, MethodWriter.returns_events_cons.2
    ⟨_, _, onCode_static hnew, rfl⟩⟩⟩

theorem makesAt_made (name descriptor : ConstantIndex) (c : ClassContext) (p : ConstantPool) {offset : Nat} :
    MethodWriter.MakesAt c (staticWriter name descriptor false (.start .frames 0)) p madeBody offset ↔
      offset = 0 := by
  constructor
  · rintro ⟨before, e, after, m, q, hbody, hbefore, ⟨name', rfl⟩, rfl⟩
    rcases before with _ | ⟨b₁, _ | ⟨b₂, _ | ⟨b₃, before⟩⟩⟩ <;> simp [madeBody] at hbody
    obtain ⟨rfl, -⟩ := hbody
    cases hbefore
    rfl
  · rintro rfl
    exact ⟨[.code], _, _, _, p, rfl, rfl, ⟨"A", rfl⟩, rfl⟩

/-- A method that makes an object refers to nothing but that. -/
theorem Run.frames_refer_to_types_made : ∃ name descriptor p₁ w₂ p₂,
    Returns ((start ⟨.frames, .empty⟩).startMethod staticInfo) .empty
      (staticWriter name descriptor false (.start .frames 0), start ⟨.frames, .empty⟩) p₁ ∧
    .finish ∉ madeBody ∧
    Returns (MethodWriter.events (start ⟨.frames, .empty⟩).context
      (staticWriter name descriptor false (.start .frames 0)) madeBody) p₁
      (staticWriter name descriptor true w₂) p₂ ∧
    BlockGraph.AllKnown (· = 0) p₂.types w₂.graph.blocks ∧
    RaisesAt Error.NotAboutTypes ((staticWriter name descriptor true w₂).event
      (start ⟨.frames, .empty⟩).context .finish) p₂ := by
  obtain ⟨name, descriptor, p₁, hstart, hroom⟩ := starts_early ⟨.frames, .empty⟩
  have hsound : p₁.Sound .empty := by
    obtain ⟨hstart', -⟩ := returns_startMethod.1 hstart
    exact (MethodWriter.leads_start _ _ _ _ _ _ hstart' (ConstantPool.sound_empty _)).1
  obtain ⟨w₂, p₂, hevents⟩ := events_made name descriptor (start ⟨.frames, .empty⟩).context hsound hroom
  have hopen : .finish ∉ madeBody := by simp [madeBody]
  obtain ⟨hknown, hraises, -⟩ := Run.frames_refer_to_types .fresh rfl hstart hopen hevents
  have honly : MethodWriter.MakesAt (start ⟨.frames, .empty⟩).context
      (staticWriter name descriptor false (.start .frames 0)) p₁ madeBody = (· = 0) :=
    funext fun _ => propext (makesAt_made name descriptor _ p₁)
  exact ⟨name, descriptor, p₁, w₂, p₂, hstart, hopen, hevents, honly ▸ hknown, hraises⟩

end ClassWriter

end ClassFile
