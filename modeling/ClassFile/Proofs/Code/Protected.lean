/-
# Handlers take in the code that they protect

While the events of a method come in, its graph grows, and labels are placed only where the code ends
(`CodeWriter.Later`).  If all handlers come before the instructions, a block ends behind each store.  So
where instructions can still come, only such locals have been set as hold an `int` all the time
(`MethodWriter.ahead_events`).

When types have been inferred, the entry of a handler therefore takes in the locals in front of each
instruction that it protects (`ClassWriter.Run.handlers_take_in`).  A handler that throws again what it
catches is followed through step by step.
-/
import ClassFile.Proofs.BlockGraph.Guarded
import ClassFile.Proofs.ClassWriter
import ClassFile.Proofs.Code.StackHeight

namespace ClassFile

open BlockGraph (Grown Onward Ahead OnlyCaught frameAt entryAt nextAt Reaches)

/-- What is handled, if an event is that of a handler. -/
def MethodEvent.handled? : MethodEvent → Option HandlerRange
  | .handler start stop target caught => some ⟨start, stop, target, caught⟩
  | _ => none

/-- What holds of frames of blocks, and is kept where no local is set. -/
structure Sparing (S : BlockId → Frame → Prop) : Prop where
  empty : ∀ i, S i .empty
  spares : ∀ i f f', f.Spares f' → S i f → S i f'

namespace CodeWriter

variable {h : Hierarchy} {w w' w'' : CodeWriter} {p p' : ConstantPool} {done : List Label} {l : Label}
  {S : BlockId → Frame → Prop} {u : Unit}

/-! ## 1. Code that grows -/

/-- **More code**: the graph has grown, and labels have been placed only behind the code from before. -/
structure Later (w w' : CodeWriter) : Prop where
  graph : Grown w.graph w'.graph
  size_le : w.size ≤ w'.size
  places : ∀ l q, w'.assembler.place? l = some q → w.assembler.place? l = some q ∨ w.size ≤ q

theorem Later.refl (w : CodeWriter) : Later w w := ⟨.refl _, Nat.le_refl _, fun _ _ => .inl⟩

theorem Later.trans (h : Later w w') (h' : Later w' w'') : Later w w'' := by
  refine ⟨h.graph.trans h'.graph, Nat.le_trans h.size_le h'.size_le, fun l q hq => ?_⟩
  rcases h'.places l q hq with hq | hq
  · exact h.places l q hq
  · exact .inr (Nat.le_trans h.size_le hq)

/-- Code in which nothing has been placed. -/
theorem Later.of_grown (hgraph : Grown w.graph w'.graph) (hassembler : w'.assembler = w.assembler) :
    Later w w' := by
  refine ⟨hgraph, ?_, fun l q hq => .inl ?_⟩
  · rw [size, size, hassembler]
  · rwa [hassembler] at hq

/-- The labels that start blocks stand in the graph where they stand in the code. -/
def Located (w : CodeWriter) : Prop :=
  ∀ l q, l.debug = false → w.assembler.place? l = some q → ∃ k, w.graph.Sited l k q

theorem located_start (slots : UInt16) : (start .frames slots).Located :=
  fun l q _ hq => by simp [start, Assembler.empty, Assembler.place?] at hq

/-- No label has been placed, and those that stand in the graph still stand there. -/
theorem Located.mono (hw : w.Located)
    (hsited : ∀ {l k q}, w.graph.Sited l k q → w'.graph.Sited l k q)
    (hplace : w'.assembler.place? = w.assembler.place?) : w'.Located := by
  intro l q hdebug hq
  obtain ⟨k, hk⟩ := hw l q hdebug (hplace ▸ hq)
  exact ⟨k, hsited hk⟩

/-- **An instruction** lets code grow. -/
theorem Tracked.later_instruction (hw : Tracked h done w p) {i : Instruction Label}
    (hi : ∀ l ∈ i.targets, l.debug = false)
    (hret : Returns (CodeWriter.instruction i w) p (u, w') p') :
    w.Later w' ∧ w.size < w'.size ∧ w'.assembler.place? = w.assembler.place? := by
  obtain ⟨hplace, -, -⟩ := names_instruction hret
  obtain ⟨around, p₁, g, T, hs₁, hle₁, hstep, -, -, -, hlt, hg, hcharted, hgraph⟩ :=
    hw.stepped hi hret
  have hgrown := hw.charted.grown_step hs₁.types (hw.wellBuilt.later hle₁.types) hstep
  refine ⟨⟨?_, Nat.le_of_lt hlt, fun l q hq => .inl (hplace ▸ hq)⟩, hlt, hplace⟩
  rcases hgraph with ⟨hgraph, -⟩ | ⟨-, hgraph⟩ <;> rw [hgraph]
  · exact hgrown
  · exact hgrown.trans (hg.onward_splitAt hcharted.led _).1.toGrown

/-- **What holds of frames ahead is kept by an instruction** in code with handlers, unless it adds to a
local: behind a store, the block ends. -/
theorem Tracked.ahead_instruction (hw : Tracked h done w p) {i : Instruction Label}
    (hi : ∀ l ∈ i.targets, l.debug = false)
    (hret : Returns (CodeWriter.instruction i w) p (u, w') p')
    (hS : Sparing S) {r : HandlerRange} (hr : r ∈ w.graph.handlers)
    (hadds : ∀ index amount c f, i = .increment index amount → w.graph.current = some c →
      frameAt w.graph.blocks c = some f → S c f → S c (f.setLocal index .int))
    (hahead : w.graph.Ahead S) : w'.graph.Ahead S := by
  obtain ⟨around, p₁, g, T, hs₁, hle₁, hstep, -, -, -, hlt, hg, hcharted, hgraph⟩ :=
    hw.stepped hi hret
  have hgw := hw.wellBuilt.later hle₁.types
  have hrest : g.Ahead S → w'.graph.Ahead S := by
    intro hgS
    rcases hgraph with ⟨hgraph, -⟩ | ⟨-, hgraph⟩ <;> rw [hgraph]
    · exact hgS
    · exact (hg.onward_splitAt hcharted.led _).1.keeps hS.empty hgS
  rcases Frame.spares_frameStep w.size (reported i) with hspares | ⟨index, amount, hadd⟩ |
    ⟨op, index, hstore, hop, -⟩
  · exact hrest (hw.charted.ahead_step hs₁.types hgw hstep hS.empty hahead
      fun c f f' _ _ hf hact => hS.spares c f f' (hspares _ _ _ _ _ hact) hf)
  · obtain rfl : i = .increment index amount := by
      cases i <;> first | exact hadd | exact nomatch hadd
    refine hrest (hw.charted.ahead_step hs₁.types hgw hstep hS.empty hahead
      fun c f f' hc hcf hf hact => ?_)
    obtain ⟨rfl, -⟩ := returns₂_modify.1 hact
    exact hadds index amount c f rfl hc hcf hf
  · obtain rfl : i = .var op index := by
      cases i <;> first | exact hstore | exact nomatch hstore
    -- the block ends, so what holds of the current block need not hold any more
    have hends : endsProtected (.var op index) { w with graph := g } = true := by
      have hr' : r ∈ g.handlers := (hw.charted.grown_step hs₁.types hgw hstep).handlers r hr
      have hhandlers : g.hasHandlers = true := by
        rw [BlockGraph.hasHandlers, Bool.not_eq_true', Array.isEmpty_eq_false_iff]
        exact fun hnil => Array.not_mem_empty r (hnil ▸ hr')
      simp only [endsProtected, hg.mode, hop, hhandlers, beq_self_eq_true, Bool.and_self]
    rcases hgraph with ⟨-, hstays⟩ | ⟨-, hgraph⟩
    · exact nomatch hends.symm.trans hstays
    obtain ⟨hshape, hlast⟩ := hgw.sameShape_step_var hs₁.types hstep
    rw [hgraph]
    refine hg.ahead_splitAt hcharted.led ?_ hS.empty ?_
    · rw [hlast, hshape.positionOf_eq]
      exact Nat.ne_of_lt (Nat.lt_of_le_of_lt hw.charted.behind hlt)
    · rw [hlast]
      exact hw.charted.ahead_step hs₁.types hgw hstep (fun j => .inr (hS.empty j))
        (fun j f hf hn => .inr (hahead j f hf hn))
        fun c f f' hc _ _ _ => .inl (hw.charted.led.current c hc)

/-- **A label** that has not been placed before. -/
theorem Tracked.later_label (hw : Tracked h done w p) (hl : l ∉ done)
    (hret : Returns (CodeWriter.label l w) p (u, w') p') :
    w.Later w' ∧ Onward w.graph w'.graph ∧ (w.Located → w'.Located) := by
  obtain ⟨hknown, hnames⟩ := names_label hret
  have hfresh : ¬ w.Placed l := fun hp => hl (hw.done l hp.2)
  have hnamed : l.debug = false → w'.Named l := fun hdebug =>
    ⟨hdebug, .inl ((hknown l).2 (.inr rfl))⟩
  have hcharted := hw.charted.mono hnames (Nat.le_refl _)
  obtain ⟨a, hok, -, hw'⟩ := returns_label hret
  obtain ⟨hsize, -, -⟩ := Assembler.placeLabel_ok hok
  have hsited : Onward w.graph w'.graph ∧
      (l.debug = false → ∃ k, w'.graph.Sited l k w.size) := by
    cases hdebug : l.debug with
    | true =>
      have hgraph : w'.graph = w.graph := by rw [hw', hdebug, if_pos rfl]
      rw [hgraph]
      exact ⟨.refl _, fun h => nomatch h⟩
    | false =>
      have hgraph : w'.graph = w.graph.label l w.size := by
        rw [hw', hdebug, if_neg Bool.false_ne_true]
      obtain ⟨honward, hk⟩ := hcharted.onward_label hw.wellBuilt (hnamed hdebug) hfresh w.size
      rw [hgraph]
      exact ⟨honward, fun _ => hk⟩
  obtain ⟨honward, hat⟩ := hsited
  refine ⟨⟨honward.toGrown, ?_, fun k q hq => (place_label hret hq).imp id fun h => ?_⟩, honward,
    fun hlocated k q hdebug hq => ?_⟩
  · rw [hw']
    exact Nat.le_of_eq hsize.symm
  · exact Nat.le_of_eq h.2.symm
  · rcases place_label hret hq with hq | ⟨rfl, rfl⟩
    · obtain ⟨i, hi⟩ := hlocated k q hdebug hq
      exact ⟨i, honward.toGrown.sited hi⟩
    · exact hat hdebug

/-- **A handler.** -/
theorem Tracked.later_handler (hw : Tracked h done w p) {start stop target : Label}
    {caught : Option String}
    (hret : Returns (CodeWriter.handler start stop target caught w) p (u, w') p') :
    w'.assembler = w.assembler ∧ Onward w.graph w'.graph ∧
      (⟨start, stop, target, caught⟩ : HandlerRange) ∈ w'.graph.handlers := by
  obtain ⟨index, p₁, -, -, rfl, rfl⟩ := returns_handler hw.sound hret
  exact ⟨rfl, hw.wellBuilt.onward_addHandler ⟨start, stop, target, caught⟩⟩

end CodeWriter

/-! ## 2. Events -/

/-- Events of a method without its end, that place each label once and use no debug labels. -/
structure Orderly (es : List MethodEvent) : Prop where
  unfinished : .finish ∉ es
  placed : (es.filterMap MethodEvent.placed?).Nodup
  used : ∀ e ∈ es, ∀ l ∈ e.used, l.debug = false

theorem Orderly.append {es es' : List MethodEvent} (h : Orderly (es ++ es')) :
    Orderly es ∧ Orderly es' ∧
      ∀ l ∈ es'.filterMap MethodEvent.placed?, l ∉ es.filterMap MethodEvent.placed? := by
  obtain ⟨hfinish, hplaced, hused⟩ := h
  rw [List.mem_append, not_or] at hfinish
  rw [List.filterMap_append] at hplaced
  obtain ⟨hnodup, hnodup', hapart⟩ := List.nodup_append.1 hplaced
  exact ⟨⟨hfinish.1, hnodup, fun e he => hused e (List.mem_append_left _ he)⟩,
    ⟨hfinish.2, hnodup', fun e he => hused e (List.mem_append_right _ he)⟩,
    fun l hl hmem => hapart l hmem l hl rfl⟩

theorem Orderly.of_cons {e : MethodEvent} {es : List MethodEvent} (h : Orderly (e :: es)) :
    Orderly es :=
  (show Orderly ([e] ++ es) from h).append.2.1

namespace MethodWriter

variable {h : Hierarchy} {c : ClassContext} {m m' m₀ : MethodWriter} {p p' p₀ : ConstantPool}
  {done : List Label} {S : BlockId → Frame → Prop} {es before after : List MethodEvent}
  {e : MethodEvent}

/-- **Code between events.** -/
theorem tracked_append (hm : CodeWriter.Tracked h done m.code p) (hes : Orderly (before ++ after))
    (hdone : ∀ l ∈ (before ++ after).filterMap MethodEvent.placed?, l ∉ done)
    (hret : Returns (m.events c (before ++ after)) p m' p') :
    ∃ m₀ p₀ done₀, Returns (m.events c before) p m₀ p₀ ∧ Returns (m₀.events c after) p₀ m' p' ∧
      CodeWriter.Tracked h done₀ m₀.code p₀ ∧
      (∀ l ∈ after.filterMap MethodEvent.placed?, l ∉ done₀) ∧ p₀ ≤ p' := by
  obtain ⟨hbefore, hafter, hapart⟩ := hes.append
  rw [List.filterMap_append] at hdone
  obtain ⟨m₀, p₀, hret₀, hrest⟩ := returns_events_append.1 hret
  obtain ⟨hm₀, -⟩ := tracked_events hm hbefore.unfinished hbefore.placed
    (fun l hl => hdone l (List.mem_append_left _ hl)) hbefore.used hret₀
  have hdone₀ : ∀ l ∈ after.filterMap MethodEvent.placed?,
      l ∉ (before.filterMap MethodEvent.placed?).reverse ++ done := by
    intro l hl hmem
    rcases List.mem_append.1 hmem with hmem | hmem
    · exact hapart l hl (List.mem_reverse.1 hmem)
    · exact hdone l (List.mem_append_right _ hl) hmem
  obtain ⟨-, hle⟩ := tracked_events hm₀ hafter.unfinished hafter.placed hdone₀ hafter.used hrest
  exact ⟨m₀, p₀, _, hret₀, hrest, hm₀, hdone₀, hle⟩

/-- **What an event does to the code**, other than an instruction to frames. -/
theorem code_event (hm : CodeWriter.Tracked h done m.code p) (he : Orderly [e])
    (hdone : ∀ l ∈ [e].filterMap MethodEvent.placed?, l ∉ done)
    (hret : Returns (m.event c e) p m' p') :
    m.code.Later m'.code ∧ (m.code.Located → m'.code.Located) ∧
      (∀ r, e.handled? = some r → r ∈ m'.code.graph.handlers) ∧
      ((∀ i, e ≠ .instruction i) → Onward m.code.graph m'.code.graph) := by
  have hopen : e ≠ .finish := fun heq => he.unfinished (heq ▸ List.mem_cons_self)
  have hused := he.used e List.mem_cons_self
  rcases returns_event hopen hm.sound hret with
    ⟨-, -, hassembler, hgraph, -, hother⟩ | ⟨_, _, _, _, rfl, hrun⟩ | ⟨i, rfl, hrun⟩ |
    ⟨l, rfl, hrun⟩
  · have honward : Onward m.code.graph m'.code.graph := hgraph ▸ .refl _
    refine ⟨.of_grown honward.toGrown hassembler, fun hl => hl.mono honward.toGrown.sited
      (congrArg Assembler.place? hassembler), fun r hr => ?_, fun _ => honward⟩
    cases e
    case handler => exact nomatch hother
    all_goals exact nomatch hr
  · obtain ⟨hassembler, honward, hmem⟩ := hm.later_handler hrun
    refine ⟨.of_grown honward.toGrown hassembler, fun hl => hl.mono honward.toGrown.sited
      (congrArg Assembler.place? hassembler), fun r hr => ?_, fun _ => honward⟩
    exact Option.some.inj hr ▸ hmem
  · obtain ⟨hlater, -, hplace⟩ := hm.later_instruction hused hrun
    exact ⟨hlater, fun hl => hl.mono hlater.graph.sited hplace, fun r hr => (nomatch hr),
      fun hne => absurd rfl (hne i)⟩
  · obtain ⟨hlater, honward, hlocated⟩ := hm.later_label (hdone l List.mem_cons_self) hrun
    exact ⟨hlater, hlocated, fun r hr => (nomatch hr), fun _ => honward⟩

/-- **What events do to the code.** -/
theorem code_events (hm : CodeWriter.Tracked h done m.code p) (hes : Orderly es)
    (hdone : ∀ l ∈ es.filterMap MethodEvent.placed?, l ∉ done)
    (hret : Returns (m.events c es) p m' p') :
    m.code.Later m'.code ∧ (m.code.Located → m'.code.Located) ∧
      ∀ r ∈ es.filterMap MethodEvent.handled?, r ∈ m'.code.graph.handlers := by
  induction es using List.reverseRecOn generalizing m' p' with
  | nil =>
    obtain ⟨rfl, rfl⟩ := returns_pure.1 hret
    exact ⟨.refl _, id, fun r hr => absurd hr List.not_mem_nil⟩
  | append_singleton es e ih =>
    obtain ⟨m₁, p₁, done₁, hbefore, hlast, hm₁, hdone₁, -⟩ := tracked_append hm hes hdone hret
    obtain ⟨hes₁, he, -⟩ := hes.append
    rw [List.filterMap_append] at hdone
    obtain ⟨hlater, hlocated, hhandlers⟩ :=
      ih hes₁ (fun l hl => hdone l (List.mem_append_left _ hl)) hbefore
    obtain ⟨hlater', hlocated', hhandler, -⟩ :=
      code_event hm₁ he hdone₁ (returns_events_singleton.1 hlast)
    refine ⟨hlater.trans hlater', fun hl => hlocated' (hlocated hl), fun r hr => ?_⟩
    rw [List.filterMap_append] at hr
    rcases List.mem_append.1 hr with hr | hr
    · exact hlater'.graph.handlers r (hhandlers r hr)
    · obtain ⟨e', he', hr'⟩ := List.mem_filterMap.1 hr
      obtain rfl := List.mem_singleton.1 he'
      exact hhandler r hr'

theorem returns_event_instruction {i : Instruction Label}
    (hret : Returns (m.event c (.instruction i)) p m' p') :
    Returns (CodeWriter.instruction i m.code) p ((), m'.code) p' := by
  obtain ⟨code, hrun, rfl⟩ := returns_onCode.1 hret
  exact hrun

/-- **What holds of frames ahead is kept by events**, if there is a handler in front of each instruction,
and if what is added to a local keeps it. -/
theorem ahead_events (hS : Sparing S) (hm : CodeWriter.Tracked h done m.code p) (hes : Orderly es)
    (hdone : ∀ l ∈ es.filterMap MethodEvent.placed?, l ∉ done)
    (hhandled : ∀ before i after, es = before ++ .instruction i :: after →
      ∃ r, r ∈ before.filterMap MethodEvent.handled?)
    (hadds : ∀ before index amount after m₀ p₀ k f,
      es = before ++ .instruction (.increment index amount) :: after →
      Returns (m.events c before) p m₀ p₀ → m₀.code.graph.current = some k →
      frameAt m₀.code.graph.blocks k = some f → S k f → S k (f.setLocal index .int))
    (hahead : m.code.graph.Ahead S) (hret : Returns (m.events c es) p m' p') :
    m'.code.graph.Ahead S := by
  induction es using List.reverseRecOn generalizing m' p' with
  | nil =>
    obtain ⟨rfl, rfl⟩ := returns_pure.1 hret
    exact hahead
  | append_singleton es e ih =>
    obtain ⟨m₁, p₁, done₁, hbefore, hlast, hm₁, hdone₁, -⟩ := tracked_append hm hes hdone hret
    obtain ⟨hes₁, he, -⟩ := hes.append
    have hdone' : ∀ l ∈ es.filterMap MethodEvent.placed?, l ∉ done := fun l hl =>
      hdone l (by rw [List.filterMap_append]; exact List.mem_append_left _ hl)
    have hlast' := returns_events_singleton.1 hlast
    have hahead₁ := ih hes₁ hdone' (fun before i after heq => hhandled before i (after ++ [e])
      (by rw [heq, List.append_assoc, List.cons_append])) (fun before index amount after m₀ p₀ k f heq =>
        hadds before index amount (after ++ [e]) m₀ p₀ k f
          (by rw [heq, List.append_assoc, List.cons_append])) hbefore
    by_cases hinstruction : ∃ i, e = .instruction i
    · obtain ⟨i, rfl⟩ := hinstruction
      obtain ⟨r, hr⟩ := hhandled es i [] rfl
      obtain ⟨-, -, hhandlers⟩ := code_events hm hes₁ hdone' hbefore
      refine hm₁.ahead_instruction (he.used _ List.mem_cons_self) (returns_event_instruction hlast') hS
        (hhandlers r hr) (fun index amount k f hi hk hf hSf => ?_) hahead₁
      subst hi
      exact hadds es index amount [] m₁ p₁ k f rfl hbefore hk hf hSf
    · obtain ⟨-, -, -, honward⟩ := code_event hm₁ he hdone₁ hlast'
      exact (honward fun i hi => hinstruction ⟨i, hi⟩).keeps hS.empty hahead₁

/-! ## 3. Types in front of instructions -/

/-- All handlers come before the instructions. -/
def HandlersFirst (es : List MethodEvent) : Prop :=
  es.Pairwise fun e e' => (∃ i, e = .instruction i) → e'.handled? = none

theorem HandlersFirst.handled (hes : HandlersFirst es) {i : Instruction Label}
    (heq : es = before ++ .instruction i :: after) {r : HandlerRange}
    (hr : r ∈ es.filterMap MethodEvent.handled?) : r ∈ before.filterMap MethodEvent.handled? := by
  subst heq
  obtain ⟨e, he, hr⟩ := List.mem_filterMap.1 hr
  refine List.mem_filterMap.2 ⟨e, ?_, hr⟩
  rcases List.mem_append.1 he with he | he
  · exact he
  rcases List.mem_cons.1 he with rfl | he
  · exact nomatch hr
  · obtain ⟨-, hafter, -⟩ := List.pairwise_append.1 hes
    exact nomatch hr.symm.trans ((List.pairwise_cons.1 hafter).1 e he ⟨i, rfl⟩)

/-- **The locals behind some events**, in block `k`: what the slots on entry of the block have become,
by what the block has done until then. -/
def LocalsBehind (c : ClassContext) (m : MethodWriter) (p : ConstantPool) (es : List MethodEvent)
    (blocks : Array Block) (T : TypeTable) (k : BlockId) (locals : List SlotType) (T' : TypeTable) :
    Prop :=
  ∃ m₀ p₀ f entry, Returns (m.events c es) p m₀ p₀ ∧ m₀.code.graph.current = some k ∧
    frameAt m₀.code.graph.blocks k = some f ∧ entryAt blocks k = some entry ∧
    Returns ((f.enteredWith entry).exitLocals c.className) T locals T'

/-- A method and its types, which have been inferred when all events but its end had come in.  Only to
locals that hold an `int` is anything added. -/
structure Typed (c : ClassContext) (info : MethodInfo) (n : UInt16) (m : MethodWriter)
    (p : ConstantPool) (es : List MethodEvent) (m' : MethodWriter) (p' : ConstantPool) (g : BlockGraph)
    (T : TypeTable) : Prop where
  starts : ∃ slots, m.code = .start .frames slots
  sound : p.Sound c.hierarchy
  rooted : c.hierarchy.Rooted
  orderly : Orderly es
  first : HandlersFirst es
  events : Returns (m.events c es) p m' p'
  infers : ∃ answer, BlockGraph.infer (context c info n) m'.code.graph p'.types = ((.ok answer, g), T)
  adds : ∀ before index amount after k locals T',
    es = before ++ .instruction (.increment index amount) :: after → Reaches g.blocks k →
    LocalsBehind c m p before g.blocks T k locals T' → locals[index.toNat]? = some .int

namespace Typed

variable {info : MethodInfo} {n : UInt16} {g : BlockGraph} {T : TypeTable} {i : Instruction Label}
  {k : BlockId} {f : Frame}

theorem tracked (ht : Typed c info n m p es m' p' g T) :
    CodeWriter.Tracked c.hierarchy [] m.code p ∧ m.code.Located ∧
      ∀ S : BlockId → Frame → Prop, (∀ i, S i .empty) → m.code.graph.Ahead S := by
  obtain ⟨slots, hm⟩ := ht.starts
  rw [hm]
  refine ⟨CodeWriter.tracked_start ht.sound slots, CodeWriter.located_start slots,
    fun S hS i f hf _ => ?_⟩
  have hf : frameAt #[{ Block.empty (some Frame.empty) with isPlaced := true }] i = some f := hf
  cases i with
  | zero => exact Option.some.inj hf ▸ hS 0
  | succ i => exact nomatch hf

/-- What is known behind some of the events. -/
theorem behind (ht : Typed c info n m p es m' p' g T) (heq : es = before ++ after)
    (hret : Returns (m.events c before) p m₀ p₀) :
    ∃ done, CodeWriter.Tracked c.hierarchy done m₀.code p₀ ∧ m₀.code.Located ∧ Orderly after ∧
      (∀ l ∈ after.filterMap MethodEvent.placed?, l ∉ done) ∧ Returns (m₀.events c after) p₀ m' p' ∧
      p₀ ≤ p' ∧ ∀ r ∈ before.filterMap MethodEvent.handled?, r ∈ m₀.code.graph.handlers := by
  subst heq
  obtain ⟨hm, hlocated, -⟩ := ht.tracked
  obtain ⟨hbefore, hafter, -⟩ := ht.orderly.append
  obtain ⟨m₁, p₁, done, hret₁, hrest, hm₁, hdone, hle⟩ :=
    tracked_append hm ht.orderly (fun _ _ => List.not_mem_nil) ht.events
  obtain ⟨rfl, rfl⟩ : m₁ = m₀ ∧ p₁ = p₀ := by
    cases hret₁.symm.trans hret
    exact ⟨rfl, rfl⟩
  obtain ⟨-, hkept, hhandlers⟩ := code_events hm hbefore (fun _ _ => List.not_mem_nil) hret₁
  exact ⟨done, hm₁, hkept hlocated, hafter, hdone, hrest, hle, hhandlers⟩

/-- The block that control is in has a frame, which can be looked at from the slots on its entry. -/
theorem current (ht : Typed c info n m p es m' p' g T) (heq : es = before ++ after)
    (hret : Returns (m.events c before) p m₀ p₀) (hk : m₀.code.graph.current = some k) :
    ∃ f, frameAt m₀.code.graph.blocks k = some f ∧ f.Lawful p₀.types none := by
  obtain ⟨done, hm₀, -⟩ := ht.behind heq hret
  have hlt := hm₀.wellBuilt.current_lt k hk
  obtain ⟨f, hf, hlawful⟩ := (hm₀.wellBuilt.blocks _ (Array.getElem_mem hlt)).frame
  exact ⟨f, by rw [frameAt, Array.getElem?_eq_getElem hlt, Option.bind_some, hf], hlawful⟩

/-- **In front of an instruction of a method with handlers**, only such locals have been set in a block
that can be reached as hold an `int` all the time. -/
theorem sets_ints (ht : Typed c info n m p es m' p' g T)
    (heq : es = before ++ .instruction i :: after) (hret : Returns (m.events c before) p m₀ p₀)
    {r : HandlerRange} (hr : r ∈ es.filterMap MethodEvent.handled?) :
    m₀.code.graph.Ahead fun k f => Reaches g.blocks k → ∀ entry, entryAt g.blocks k = some entry →
      f.SetsInts entry.locals := by
  obtain ⟨hm, -, hfresh⟩ := ht.tracked
  obtain ⟨answer, hinfer⟩ := ht.infers
  obtain ⟨done', hm', -⟩ := ht.behind (List.append_nil es).symm ht.events
  have hsparing : Sparing fun k f => Reaches g.blocks k → ∀ entry, entryAt g.blocks k = some entry →
      f.SetsInts entry.locals :=
    ⟨fun _ _ _ _ => Frame.setsInts_empty, fun _ _ _ hs hf hk entry he => (hf hk entry he).spares hs⟩
  refine ahead_events hsparing hm (heq ▸ ht.orderly).append.1 (fun _ _ => List.not_mem_nil) ?_ ?_
    (hfresh _ hsparing.empty) hret
  · rintro before' i' after' rfl
    exact ⟨r, ht.first.handled (heq.trans (List.append_assoc ..)) hr⟩
  · rintro before' index amount after' m₁ p₁ k f rfl hret₁ hk hf hS hreach entry hentry
    have heq' := heq.trans (List.append_assoc ..)
    obtain ⟨-, -, -, -, -, -, hle, -⟩ := ht.behind heq' hret₁
    obtain ⟨f', hf', hlawful⟩ := ht.current heq' hret₁ hk
    obtain rfl := Option.some.inj (hf.symm.trans hf')
    -- what is added to holds an `int` here, so it did on entry
    obtain ⟨hsT, hentered⟩ := hm'.wellBuilt.infer_entered ht.rooted hm'.sound.types hinfer hentry
      (hlawful.later hle.types)
    obtain ⟨locals, T', hlocals, -⟩ :=
      Frame.atExit_returns c.className hsT hentered hentered.meaningful_locals
    have hint := ht.adds before' index amount _ k locals T' heq' hreach
      ⟨m₁, p₁, f, entry, hret₁, hk, hf, hentry, hlocals⟩
    exact (hS hreach entry hentry).setLocal
      (Frame.SetsInts.entry_eq_int hsT hentered (hS hreach entry hentry) hlocals hint)

/-- **A handler covers the blocks of all instructions between its labels.** -/
theorem covers (ht : Typed c info n m p es m' p' g T)
    (heq : es = before ++ .instruction i :: after) (hret : Returns (m.events c before) p m₀ p₀)
    (hk : m₀.code.graph.current = some k) {r : HandlerRange}
    (hr : r ∈ es.filterMap MethodEvent.handled?) {a b : Nat}
    (ha : m'.code.assembler.place? r.start = some a) (hb : m'.code.assembler.place? r.stop = some b)
    (hfrom : a ≤ m₀.code.size) (hto : m₀.code.size < b) :
    m₀.code.Later m'.code ∧ m'.code.graph.Covers r k := by
  obtain ⟨done, hm₀, hlocated₀, hafter, hdone, hrest, -⟩ := ht.behind heq hret
  obtain ⟨done', hm', hlocated', -⟩ := ht.behind (List.append_nil es).symm ht.events
  obtain ⟨hlater, -⟩ := code_events hm₀ hafter hdone hrest
  have hstandard : r.start.debug = false ∧ r.stop.debug = false := by
    obtain ⟨e, he, hr⟩ := List.mem_filterMap.1 hr
    cases e
    case handler start stop target caught =>
      cases hr
      have hused := ht.orderly.used _ he
      exact ⟨hused start List.mem_cons_self, hused stop (List.mem_cons_of_mem _ List.mem_cons_self)⟩
    all_goals exact nomatch hr
  -- no label is placed in front of the instruction once it has come in
  have hstart₀ : m₀.code.assembler.place? r.start = some a := by
    obtain ⟨m₁, p₁, done₁, hone, hrest₁, hm₁, hdone₁, -⟩ :=
      tracked_append hm₀ (show Orderly ([.instruction i] ++ after) from hafter) hdone hrest
    obtain ⟨-, hlt, hplace⟩ := hm₀.later_instruction (hafter.used _ List.mem_cons_self)
      (returns_event_instruction (returns_events_singleton.1 hone))
    obtain ⟨hlater₁, -⟩ :=
      code_events hm₁ hafter.of_cons hdone₁ hrest₁
    rcases hlater₁.places r.start a ha with ha₁ | ha₁
    · rwa [hplace] at ha₁
    · exact absurd hfrom (Nat.not_le.2 (Nat.lt_of_lt_of_le hlt ha₁))
  obtain ⟨j, hj⟩ := hlocated₀ r.start a hstandard.1 hstart₀
  obtain ⟨j', hj'⟩ := hlocated' r.stop b hstandard.2 hb
  -- the instruction is in the last block, which starts behind the first label
  obtain rfl := hm₀.charted.led.current k hk
  obtain ⟨hpassed, hposition⟩ := hlater.graph.passed _ hm₀.charted.led.passed
  refine ⟨hlater, (hm'.charted.covers_iff (hlater.graph.sited hj) hj').2
    ⟨hm'.charted.mem_chain hpassed, ?_, ?_⟩⟩
  · rw [hposition]
    obtain ⟨chain, hchain⟩ := hm₀.charted.chained
    obtain ⟨_, -, hstands⟩ := hj
    exact hstands.position ▸ hchain.le_last (hchain.mem_of_passed hstands.passed)
  · rw [hposition]
    exact Nat.lt_of_le_of_lt hm₀.charted.behind hto

end Typed

end MethodWriter

/-! ## 4. Handlers -/

open MethodWriter in
/-- **Handlers take in the code that they protect**, in a class that is being written with frames and
under a hierarchy with a root.  All handlers of the method come before its instructions, each label is
placed once, no debug label is used, and only to locals that hold an `int` is anything added.

When types have been inferred, take an instruction between the labels of a handler, in a block that
can be reached.  Merging the locals in front of it into the entry of the handler changes nothing, and
neither does merging what is caught into the stack.  If the handler is entered in no other way, there is
nothing else on the stack. -/
theorem ClassWriter.Run.handlers_take_in {options : WriterOptions} {w w₁ : ClassWriter}
    {p p₁ p' : ConstantPool} {m m' : MethodWriter} {info : MethodInfo} {body : List MethodEvent}
    {n : UInt16} {answer : UInt16 × List SlotType} {g : BlockGraph} {T : TypeTable}
    (hrun : Run options w p) (hmode : w.context.mode = .frames) (hrooted : options.hierarchy.Rooted)
    (hstart : Returns (w.startMethod info) p (m, w₁) p₁) (hopen : .finish ∉ body)
    (hplaced : (body.filterMap MethodEvent.placed?).Nodup)
    (hused : ∀ e ∈ body, ∀ l ∈ e.used, l.debug = false) (hfirst : HandlersFirst body)
    (hret : Returns (m.events w₁.context body) p₁ m' p')
    (hinfer : BlockGraph.infer (MethodWriter.context w₁.context info n) m'.code.graph p'.types =
      ((.ok answer, g), T))
    (hadds : ∀ before index amount after k locals T',
      body = before ++ .instruction (.increment index amount) :: after → Reaches g.blocks k →
      LocalsBehind w₁.context m p₁ before g.blocks T k locals T' → locals[index.toNat]? = some .int)
    {before after : List MethodEvent} {i : Instruction Label} {m₀ : MethodWriter} {p₀ : ConstantPool}
    {k : BlockId} (hbody : body = before ++ .instruction i :: after)
    (hbefore : Returns (m.events w₁.context before) p₁ m₀ p₀)
    (hcurrent : m₀.code.graph.current = some k) (hreach : Reaches g.blocks k)
    {r : HandlerRange} {a b : Nat} (hr : r ∈ body.filterMap MethodEvent.handled?)
    (ha : m'.code.assembler.place? r.start = some a) (hb : m'.code.assembler.place? r.stop = some b)
    (hfrom : a ≤ m₀.code.size) (hto : m₀.code.size < b) :
    ∃ entry, entryAt g.blocks (g.firstOf r.handler) = some entry ∧
      (∃ locals T₁ T₂, LocalsBehind w₁.context m p₁ before g.blocks T k locals T₁ ∧
        Returns (Slots.mergeFrom options.hierarchy entry.locals false 0 locals) T₁
          (false, entry.locals) T₂) ∧
      (∃ t T₁ T₂, Returns (SlotType.object (r.caught.getD "java/lang/Throwable")) T t T₁ ∧
        Returns (Slots.mergeFrom options.hierarchy entry.stack false 0 [t]) T₁
          (false, entry.stack) T₂) ∧
      (OnlyCaught g.blocks (g.firstOf r.handler) → entry.stack.size = 1) := by
  obtain ⟨hp, rfl⟩ := hrun.sound
  obtain ⟨hstart', rfl⟩ := ClassWriter.returns_startMethod.1 hstart
  obtain ⟨slots, hm, -⟩ := MethodWriter.returns_start hstart'
  obtain ⟨hs₁, -⟩ := MethodWriter.leads_start _ _ _ _ _ _ hstart' hp
  rw [show w.header.mode w.options = .frames from hmode] at hm
  have ht : Typed _ info n m p₁ body m' p' g T :=
    ⟨⟨slots, hm⟩, hs₁, hrooted, ⟨hopen, hplaced, hused⟩, hfirst, hret, ⟨answer, hinfer⟩, hadds⟩
  obtain ⟨hlater, hcovers⟩ := ht.covers hbody hbefore hcurrent hr ha hb hfrom hto
  obtain ⟨done, hm₀, -, -, -, -, hle, hhandlers⟩ := ht.behind hbody hbefore
  obtain ⟨done', hm', -⟩ := ht.behind (List.append_nil body).symm hret
  -- the block at the time of the instruction, and when all events have come in
  obtain ⟨F, hF, hlawful⟩ := ht.current hbody hbefore hcurrent
  obtain ⟨f, hf, hprolongs⟩ := hlater.graph.frames k F hF
  have hlast : nextAt m₀.code.graph.blocks k = none :=
    hm₀.charted.led.current k hcurrent ▸ hm₀.charted.ends
  have hints := ht.sets_ints hbody hbefore hr k F hF hlast hreach
  obtain ⟨entry, slots, hentry, hslots, ⟨locals, T₁, T₂, hlocals, hmerge⟩, hcaught⟩ :=
    hm'.wellBuilt.infer_takes_in hrooted hm'.sound.types hm'.charted hinfer
      (hlater.graph.handlers r (hhandlers r (hfirst.handled hbody hr))) hcovers hreach hf
      (hlawful.later hle.types) hprolongs hints
  exact ⟨slots, hslots, ⟨locals, T₁, T₂, ⟨m₀, p₀, F, entry, hbefore, hcurrent, hF, hentry, hlocals⟩,
    hmerge⟩, hcaught, fun honly => hm'.wellBuilt.infer_caught hm'.sound.types hinfer honly slots hslots⟩

/-! ## 5. A handler that throws again -/

namespace BlockGraph

variable {g : BlockGraph} {l : Label} {i : BlockId}

/-- A label that has not been mentioned gets a block. -/
theorem blockOf_new (hlinked : g.labels.Linked)
    (hnone : g.labels.get? l = none) : ∃ labels, labels.Linked ∧
      (∀ k, labels.get? k = if k = l then some g.blocks.size else g.labels.get? k) ∧
      g.blockOf l = (g.blocks.size, { g.newBlock.2 with labels := labels }) := by
  refine ⟨_, hlinked.insert l g.blocks.size, fun k => ?_, ?_⟩
  · rw [hlinked.get?_insert, hnone]
    rfl
  · unfold blockOf
    rw [hnone]
    rfl

theorem blockOf_known (hsome : g.labels.get? l = some i) :
    g.blockOf l = (i, g) := by
  unfold blockOf
  rw [hsome]

theorem label_known (hsome : g.labels.get? l = some i)
    (position : Nat) : g.label l position = g.startBlock i position := by
  unfold label
  rw [blockOf_known hsome]

end BlockGraph

theorem Assembler.placeLabel_of_not_waiting {code : Bytes} {places : Std.HashMap Label Nat}
    {waiting : Std.HashMap Label (List Reference)} {l : Label} (hl : waiting.getD l [] = []) :
    placeLabel l ⟨code, places, waiting⟩ =
      .ok ⟨code, places.insert l code.size, waiting.erase l⟩ := by
  unfold placeLabel
  simp only [hl]
  rfl

open MethodWriter

/-- A method that stores a number and returns, and a handler behind it that throws again what is thrown
there. -/
def rethrownBody : List MethodEvent :=
  [.code, .handler ⟨0, false⟩ ⟨1, false⟩ ⟨1, false⟩ none, .label ⟨0, false⟩,
    .instruction (.simple Opcode.iconst0), .instruction (.var Opcode.istore 0),
    .instruction (.simple Opcode.return_), .label ⟨1, false⟩, .instruction (.simple Opcode.athrow)]

/-- The graph behind the handler. -/
def rethrownGraph (labels : InternTable Label BlockId) : BlockGraph :=
  { BlockGraph.start .frames with
    blocks := #[{ Block.empty (some .empty) with isPlaced := true }, .empty (some .empty),
      .empty (some .empty)]
    labels := labels
    handlers := #[⟨⟨0, false⟩, ⟨1, false⟩, ⟨1, false⟩, none⟩] }

theorem addHandler_rethrown : ∃ labels : InternTable Label BlockId,
    labels.get? ⟨0, false⟩ = some 1 ∧ labels.get? ⟨1, false⟩ = some 2 ∧
    (BlockGraph.start .frames).addHandler ⟨⟨0, false⟩, ⟨1, false⟩, ⟨1, false⟩, none⟩ =
      rethrownGraph labels := by
  obtain ⟨t, ht, hget, hblock⟩ := BlockGraph.blockOf_new (g := .start .frames) (l := ⟨0, false⟩)
    InternTable.linked_empty (InternTable.get?_empty _)
  have hnone : t.get? ⟨1, false⟩ = none := by
    rw [hget, if_neg (by decide)]
    exact InternTable.get?_empty _
  obtain ⟨t', ht', hget', hblock'⟩ := BlockGraph.blockOf_new
    (g := { (BlockGraph.start .frames).newBlock.2 with labels := t }) (l := ⟨1, false⟩) ht hnone
  have h₀ : t'.get? ⟨0, false⟩ = some 1 := (hget' _).trans (hget _)
  have h₁ : t'.get? ⟨1, false⟩ = some 2 := hget' _
  refine ⟨t', h₀, h₁, ?_⟩
  unfold BlockGraph.addHandler
  simp only [hblock, hblock']
  rw [BlockGraph.blockOf_known h₁]
  rfl

/-- The code with a graph and so many bytes and locals, in which labels have been placed. -/
def rethrownCode (usedLocals : UInt16) (assembler : Assembler) (graph : BlockGraph) : CodeWriter :=
  { CodeWriter.start .frames 0 with
    assembler, graph, usedLocals, handlers := #[⟨⟨0, false⟩, ⟨1, false⟩, ⟨1, false⟩, none⟩] }

theorem returns_handler_rethrown (p : ConstantPool) {g : BlockGraph}
    (hg : (BlockGraph.start .frames).addHandler ⟨⟨0, false⟩, ⟨1, false⟩, ⟨1, false⟩, none⟩ = g) :
    Returns (CodeWriter.handler ⟨0, false⟩ ⟨1, false⟩ ⟨1, false⟩ none (.start .frames 0)) p
      ((), rethrownCode 0 .empty g) p := by
  subst hg
  rfl

section Rethrown

variable {name descriptor : ConstantIndex} {p : ConstantPool} {n : UInt16} {a : Assembler}
  {g g' : BlockGraph} {labels : InternTable Label BlockId}

theorem label_rethrown (code : Bytes) (places : Std.HashMap Label Nat)
    {waiting : Std.HashMap Label (List Reference)} {l : Label} (p : ConstantPool) (hl : waiting.getD l [] = [])
    (hdebug : l.debug = false) (hg : g.label l code.size = g') :
    Returns (CodeWriter.label l (rethrownCode n ⟨code, places, waiting⟩ g)) p
      ((), rethrownCode n ⟨code, places.insert l code.size, waiting.erase l⟩ g') p := by
  subst hg
  refine returns_bind_above.2 ⟨_, _, _, returns_get_above.2 ⟨rfl, rfl, rfl⟩, ?_⟩
  refine returns_bind_above.2 ⟨_, _, _, CodeWriter.returns_onAssembler.2 ⟨_, returns_bind.2
    ⟨_, _, returns_lift.2 ⟨Assembler.placeLabel_of_not_waiting hl, rfl⟩, returns_pure.2 ⟨rfl, rfl⟩⟩, rfl⟩, ?_⟩
  rw [hdebug]
  rfl

theorem simple_rethrown {op : Opcode}
    (hstep : BlockGraph.step a.code.size (a.code.size + 1) false (.simple op) g p.types =
      ((.ok (), g'), p.types)) :
    Returns (CodeWriter.instruction (.simple op) (rethrownCode n a g)) p
      ((), rethrownCode n ⟨a.code.push op, a.places, a.waiting⟩ g') p :=
  CodeWriter.returns_simple (w := rethrownCode n a g) hstep

/-- A block that has been placed. -/
def rethrownBlock (position : Nat) : Block :=
  { Block.empty (some .empty) with position, isPlaced := true }

/-- The graph behind the first label. -/
def rethrownStarted (labels : InternTable Label BlockId) : BlockGraph :=
  { rethrownGraph labels with
    blocks := #[rethrownBlock 0, { rethrownBlock 0 with sameAs := some 0 }, .empty (some .empty)] }

/-- The graph behind the number. -/
def rethrownPushed (labels : InternTable Label BlockId) : BlockGraph :=
  { rethrownGraph labels with
    blocks := #[{ rethrownBlock 0 with frame := some { Frame.empty with stack := #[.int], peak := 1 } },
      { rethrownBlock 0 with sameAs := some 0 }, .empty (some .empty)] }

/-- The frame of the block that stores the number. -/
def storedFrame : Frame := { Frame.empty with locals := #[some .int], peak := 1 }

/-- The block that stores the number. -/
def storedBlock : Block :=
  { rethrownBlock 0 with frame := some storedFrame, next := some 3, edges := #[⟨.normal, 3⟩] }

/-- The graph behind the store, where another block starts. -/
def rethrownStored (labels : InternTable Label BlockId) : BlockGraph :=
  { rethrownGraph labels with
    blocks := #[storedBlock, { rethrownBlock 0 with sameAs := some 0 }, .empty (some .empty),
      rethrownBlock 2]
    last := 3, current := some 3 }

/-- The graph behind what is protected. -/
def rethrownReturned (labels : InternTable Label BlockId) : BlockGraph :=
  { rethrownGraph labels with
    blocks := #[storedBlock, { rethrownBlock 0 with sameAs := some 0 }, .empty (some .empty),
      { rethrownBlock 2 with next := some 4 }, rethrownBlock 3]
    last := 4, current := none }

/-- The graph behind the second label. -/
def rethrownLabeled (labels : InternTable Label BlockId) : BlockGraph :=
  { rethrownGraph labels with
    blocks := #[storedBlock, { rethrownBlock 0 with sameAs := some 0 },
      { rethrownBlock 3 with sameAs := some 4 }, { rethrownBlock 2 with next := some 4 }, rethrownBlock 3]
    last := 4, current := some 4 }

/-- The graph of the whole method. -/
def rethrownComplete (labels : InternTable Label BlockId) : BlockGraph :=
  { rethrownGraph labels with
    blocks := #[storedBlock, { rethrownBlock 0 with sameAs := some 0 },
      { rethrownBlock 3 with sameAs := some 4 }, { rethrownBlock 2 with next := some 4 },
      { rethrownBlock 3 with frame := some { Frame.empty with taken := 1 }, next := some 5 },
      rethrownBlock 4]
    last := 5, current := none }

theorem step_iconst_rethrown (labels : InternTable Label BlockId) (T : TypeTable) :
    BlockGraph.step 0 1 false (.simple Opcode.iconst0) (rethrownStarted labels) T =
      ((.ok (), rethrownPushed labels), T) := rfl

theorem step_return_rethrown (labels : InternTable Label BlockId) (T : TypeTable) :
    BlockGraph.step 2 3 false (.simple Opcode.return_) (rethrownStored labels) T =
      ((.ok (), rethrownReturned labels), T) := rfl

theorem step_athrow_rethrown (labels : InternTable Label BlockId) (T : TypeTable) :
    BlockGraph.step 3 4 false (.simple Opcode.athrow) (rethrownLabeled labels) T =
      ((.ok (), rethrownComplete labels), T) := rfl

theorem store_rethrown (labels : InternTable Label BlockId) (places : Std.HashMap Label Nat)
    (waiting : Std.HashMap Label (List Reference)) (p : ConstantPool) :
    Returns (CodeWriter.instruction (.var Opcode.istore 0)
        (rethrownCode 0 ⟨#[3], places, waiting⟩ (rethrownPushed labels))) p
      ((), rethrownCode 1 ⟨#[3, 59], places, waiting⟩ (rethrownStored labels)) p := rfl

/-- What comes in up to the store. -/
theorem before_rethrown (name descriptor : ConstantIndex) (c : ClassContext) (p : ConstantPool) :
    ∃ labels, labels.get? ⟨0, false⟩ = some 1 ∧ labels.get? ⟨1, false⟩ = some 2 ∧
      Returns (MethodWriter.events c (staticWriter name descriptor false (.start .frames 0))
        (rethrownBody.take 5)) p
        (staticWriter name descriptor true (rethrownCode 1 ⟨#[3, 59],
          (∅ : Std.HashMap Label Nat).insert ⟨0, false⟩ 0, (∅ : Std.HashMap _ _).erase ⟨0, false⟩⟩
          (rethrownStored labels))) p := by
  obtain ⟨labels, h₀, h₁, hgraph⟩ := addHandler_rethrown
  have hempty : (∅ : Std.HashMap Label (List Reference)).getD ⟨0, false⟩ [] = [] :=
    Std.HashMap.getD_empty
  have hlabel := label_rethrown (n := 0) .empty ∅ p hempty rfl
    ((BlockGraph.label_known h₀ 0).trans
      (show (rethrownGraph labels).startBlock 1 0 = rethrownStarted labels from rfl))
  have hpush := simple_rethrown (n := 0) (a := ⟨.empty, (∅ : Std.HashMap Label Nat).insert ⟨0, false⟩ 0,
    (∅ : Std.HashMap _ _).erase ⟨0, false⟩⟩) (step_iconst_rethrown labels p.types)
  exact ⟨labels, h₀, h₁, returns_events_cons.2 ⟨_, _, rfl, returns_events_cons.2
    ⟨_, _, onCode_static (returns_handler_rethrown p hgraph), returns_events_cons.2
    ⟨_, _, onCode_static hlabel, returns_events_cons.2 ⟨_, _, onCode_static hpush, returns_events_cons.2
    ⟨_, _, onCode_static (store_rethrown labels _ _ p), returns_pure.2 ⟨rfl, rfl⟩⟩⟩⟩⟩⟩⟩

/-- What comes in from the last instruction that is protected on. -/
theorem after_rethrown (name descriptor : ConstantIndex) (c : ClassContext) (p : ConstantPool)
    (h₁ : labels.get? ⟨1, false⟩ = some 2) (places : Std.HashMap Label Nat) : ∃ waiting,
    Returns (MethodWriter.events c (staticWriter name descriptor true
        (rethrownCode 1 ⟨#[3, 59], places, (∅ : Std.HashMap _ _).erase ⟨0, false⟩⟩
          (rethrownStored labels))) (rethrownBody.drop 5)) p
      (staticWriter name descriptor true
        (rethrownCode 1 ⟨#[3, 59, 177, 191], places.insert ⟨1, false⟩ 3, waiting⟩
          (rethrownComplete labels))) p := by
  have hempty : ((∅ : Std.HashMap Label (List Reference)).erase ⟨0, false⟩).getD ⟨1, false⟩ [] = [] := by
    rw [Std.HashMap.getD_erase, Std.HashMap.getD_empty, ite_self]
  have hreturn := simple_rethrown (n := 1) (a := ⟨#[3, 59], places, (∅ : Std.HashMap _ _).erase ⟨0, false⟩⟩)
    (step_return_rethrown labels p.types)
  have hlabel := label_rethrown (n := 1) #[3, 59, 177] places p hempty rfl
    ((BlockGraph.label_known (g := rethrownReturned labels) h₁ 3).trans
      (show (rethrownReturned labels).startBlock 2 3 = rethrownLabeled labels from rfl))
  have hathrow := simple_rethrown (n := 1) (a := ⟨#[3, 59, 177], places.insert ⟨1, false⟩ 3,
    ((∅ : Std.HashMap _ _).erase ⟨0, false⟩).erase ⟨1, false⟩⟩) (step_athrow_rethrown labels p.types)
  exact ⟨_, returns_events_cons.2 ⟨_, _, onCode_static hreturn, returns_events_cons.2
    ⟨_, _, onCode_static hlabel, returns_events_cons.2 ⟨_, _, onCode_static hathrow,
    returns_pure.2 ⟨rfl, rfl⟩⟩⟩⟩⟩

/-- The frame of the handler when it has been entered with this, which it takes. -/
def caughtFrame (t : SlotType) : Frame := { Frame.empty with entry := some ⟨#[.top], #[t]⟩, taken := 1 }

/-- The blocks while entries are inferred: that of the store, the one behind it, and that of the
handler. -/
def rethrownBlocks (t : SlotType) (first second last : Block → Block) : Array Block :=
  #[first { storedBlock with edges := #[⟨.normal, 3⟩, ⟨.caught t, 4⟩] },
    { rethrownBlock 0 with sameAs := some 0 }, { rethrownBlock 3 with sameAs := some 4 },
    second { rethrownBlock 2 with next := some 4, edges := #[⟨.caught t, 4⟩] },
    last { rethrownBlock 3 with isTarget := true, next := some 5 }, rethrownBlock 4]

/-- The blocks when the handler has its edges. -/
def rethrownEdged (t : SlotType) : Array Block :=
  rethrownBlocks t id id fun b => { b with frame := some { Frame.empty with taken := 1 } }

/-- The frame of the first block when the method has been entered. -/
def enteredFrame : Frame := { storedFrame with entry := some ⟨#[.top], #[]⟩ }

/-- The blocks when the method has been entered. -/
def rethrownEntered (t : SlotType) : Array Block :=
  rethrownBlocks t (fun b => { b with frame := some enteredFrame, isPending := true }) id
    fun b => { b with frame := some { Frame.empty with taken := 1 } }

/-- The frame of the second block, which the number has been stored for. -/
def behindFrame : Frame := { Frame.empty with entry := some ⟨#[.int], #[]⟩ }

/-- The blocks when the first one has been followed. -/
def rethrownFirst (t : SlotType) : Array Block :=
  rethrownBlocks t (fun b => { b with frame := some enteredFrame, isReachable := true })
    (fun b => { b with frame := some behindFrame, isPending := true })
    fun b => { b with frame := some (caughtFrame t), isPending := true }

/-- The blocks when the handler has been followed. -/
def rethrownCaught (t : SlotType) : Array Block :=
  rethrownBlocks t (fun b => { b with frame := some enteredFrame, isReachable := true })
    (fun b => { b with frame := some behindFrame, isPending := true })
    fun b => { b with frame := some (caughtFrame t), isReachable := true, isWritten := true }

/-- The blocks when no entry changes any more. -/
def rethrownSettled (t : SlotType) : Array Block :=
  rethrownBlocks t (fun b => { b with frame := some enteredFrame, isReachable := true })
    (fun b => { b with frame := some behindFrame, isReachable := true })
    fun b => { b with frame := some (caughtFrame t), isReachable := true, isWritten := true }

theorem edges_rethrown (h₀ : labels.get? ⟨0, false⟩ = some 1)
    (h₁ : labels.get? ⟨1, false⟩ = some 2) {T : TypeTable} (hT : T.Sound .empty) : ∃ i T',
    T'.entries[i]? = some (.initialized "java/lang/Throwable") ∧
      BlockGraph.addAllHandlerEdges (rethrownComplete labels) T =
      ((.ok (), { rethrownComplete labels with blocks := rethrownEdged (.scalar (.object i)) }), T') := by
  have hfirst₀ : (rethrownComplete labels).firstOf ⟨0, false⟩ = 0 := by
    unfold BlockGraph.firstOf
    rw [show (rethrownComplete labels).labels.get? ⟨0, false⟩ = some 1 from h₀]
    rfl
  have hfirst₁ : (rethrownComplete labels).firstOf ⟨1, false⟩ = 4 := by
    unfold BlockGraph.firstOf
    rw [show (rethrownComplete labels).labels.get? ⟨1, false⟩ = some 2 from h₁]
    rfl
  rcases hrun : BlockGraph.addHandlerEdges ⟨⟨0, false⟩, ⟨1, false⟩, ⟨1, false⟩, none⟩
    (rethrownComplete labels) T with ⟨⟨answer, g⟩, T'⟩
  obtain ⟨rfl, -, -, -, ⟨-, hle⟩ | ⟨-, i, hi, hg⟩⟩ := BlockGraph.addHandlerEdges_cases hT rfl _ hrun
  · rw [hfirst₀, hfirst₁] at hle
    exact absurd (show 3 ≤ 0 from hle) (by decide)
  · rw [hfirst₀, hfirst₁] at hg
    refine ⟨i, T', hi, ?_⟩
    unfold BlockGraph.addAllHandlerEdges
    simp only [bind_pure_unit]
    rw [bind_apply₂]
    show (forIn [(⟨⟨0, false⟩, ⟨1, false⟩, ⟨1, false⟩, none⟩ : HandlerRange)] PUnit.unit
      fun r _ => do
        BlockGraph.addHandlerEdges r
        pure (ForInStep.yield PUnit.unit) : GraphM PUnit) (rethrownComplete labels) T = _
    rw [List.forIn_cons, bind_assoc, bind_apply₂, hrun, hg]
    rfl

theorem merge_normal_rethrown (hierarchy : Hierarchy) (className : String) (T : TypeTable) :
    enteredFrame.mergeInto hierarchy className none .empty T = (.ok (true, behindFrame), T) := rfl

theorem merge_entered_rethrown (hierarchy : Hierarchy) (className : String) (i : Nat) (T : TypeTable) :
    enteredFrame.mergeInto hierarchy className (some (.scalar (.object i))) { Frame.empty with taken := 1 }
        T = (.ok (true, caughtFrame (.scalar (.object i))), T) := rfl

theorem merge_behind_rethrown (hierarchy : Hierarchy) (className : String) (t : SlotType)
    (T : TypeTable) :
    behindFrame.mergeInto hierarchy className (some t) (caughtFrame t) T =
      (.ok (false, caughtFrame t), T) := by
  have hstack : Slots.mergeFrom hierarchy #[t] false 0 [t] = pure (false, #[t]) := by
    simp [Slots.mergeFrom, SlotType.merge_self]
  refine returns_bind.2 ⟨⟨[[.int], [.int]], [t]⟩, T, rfl, ?_⟩
  refine returns_bind.2 ⟨(false, #[.top]), T, rfl, ?_⟩
  exact returns_bind.2 ⟨(false, #[t]), T, hstack ▸ returns_pure.2 ⟨rfl, rfl⟩, rfl⟩

/-- The blocks when the number has been stored, and nothing has been thrown yet. -/
def rethrownBehind (t : SlotType) : Array Block :=
  rethrownBlocks t (fun b => { b with frame := some enteredFrame, isReachable := true })
    (fun b => { b with frame := some behindFrame, isPending := true })
    fun b => { b with frame := some { Frame.empty with taken := 1 } }

theorem follow_normal_rethrown (context : MethodContext) (t : SlotType) (T : TypeTable) :
    BlockGraph.Inference.follow context enteredFrame ⟨.normal, 3⟩
        ⟨rethrownBlocks t (fun b => { b with frame := some enteredFrame, isReachable := true }) id
          fun b => { b with frame := some { Frame.empty with taken := 1 } }, [], 1⟩ T =
      (.ok ⟨rethrownBehind t, [3], 1⟩, T) :=
  returns_bind.2 ⟨_, T, merge_normal_rethrown _ _ T, rfl⟩

theorem follow_caught_rethrown (context : MethodContext) (i : Nat) (T : TypeTable) :
    BlockGraph.Inference.follow context enteredFrame ⟨.caught (.scalar (.object i)), 4⟩
        ⟨rethrownBehind (.scalar (.object i)), [3], 1⟩ T =
      (.ok ⟨rethrownFirst (.scalar (.object i)), [4, 3], 1⟩, T) :=
  returns_bind.2 ⟨_, T, merge_entered_rethrown _ _ i T, rfl⟩

theorem visit_first_rethrown (context : MethodContext) (i : Nat) (T : TypeTable) :
    BlockGraph.Inference.visit context 0 ⟨rethrownEntered (.scalar (.object i)), [], 0⟩ T =
      (.ok ⟨rethrownFirst (.scalar (.object i)), [4, 3], 1⟩, T) :=
  returns_bind.2 ⟨_, T, follow_normal_rethrown context _ T,
    returns_bind.2 ⟨_, T, follow_caught_rethrown context i T, rfl⟩⟩

theorem visit_caught_rethrown (context : MethodContext) (i : Nat) (T : TypeTable) :
    BlockGraph.Inference.visit context 4 ⟨rethrownFirst (.scalar (.object i)), [3], 1⟩ T =
      (.ok ⟨rethrownCaught (.scalar (.object i)), [3], 1⟩, T) := rfl

theorem visit_second_rethrown (context : MethodContext) (i : Nat) (T : TypeTable) :
    BlockGraph.Inference.visit context 3 ⟨rethrownCaught (.scalar (.object i)), [], 1⟩ T =
      (.ok ⟨rethrownSettled (.scalar (.object i)), [], 1⟩, T) :=
  returns_bind.2 ⟨_, T, returns_bind.2 ⟨_, T, merge_behind_rethrown _ _ _ T, rfl⟩, rfl⟩

theorem run_rethrown (context : MethodContext) {limit : Nat} (hlimit : 3 ≤ limit) (i : Nat)
    (T : TypeTable) :
    BlockGraph.Inference.run context limit ⟨rethrownEntered (.scalar (.object i)), [0], 0⟩ T =
      (.ok ⟨rethrownSettled (.scalar (.object i)), [], 1⟩, T) := by
  obtain ⟨limit, rfl⟩ := Nat.exists_eq_add_of_le' hlimit
  refine returns_bind.2 ⟨_, T, visit_first_rethrown context i T, returns_bind.2 ⟨_, T,
    visit_caught_rethrown context i T, returns_bind.2 ⟨_, T, visit_second_rethrown context i T, ?_⟩⟩⟩
  cases limit <;> rfl

/-- What is inferred for the method, with the type of what is caught. -/
theorem settles_rethrown (h₀ : labels.get? ⟨0, false⟩ = some 1)
    (h₁ : labels.get? ⟨1, false⟩ = some 2) {T : TypeTable} (hT : T.Sound .empty) : ∃ i T',
    T'.entries[i]? = some (.initialized "java/lang/Throwable") ∧
    BlockGraph.infer ⟨.empty, "", 8, "m", "()V", 1⟩ (rethrownComplete labels) T =
      ((.ok (1, []),
        { rethrownComplete labels with blocks := rethrownSettled (.scalar (.object i)) }), T') := by
  obtain ⟨i, T', hi, hedges⟩ := edges_rethrown h₀ h₁ hT
  have hlocals : Frame.methodLocals "" 8 "m" "()V" 1 T' = (.ok #[.top], T') := by
    have htype : Descriptor.methodType "()V" = .ok ⟨[], none⟩ := by decide +kernel
    unfold Frame.methodLocals
    rw [htype]
    rfl
  refine ⟨i, T', hi, ?_⟩
  rw [BlockGraph.infer_apply, hedges]
  simp only [hlocals]
  rw [show BlockGraph.entered (rethrownEdged (.scalar (.object i)))
      (((rethrownEdged (.scalar (.object i)))[0]?.bind Block.frame).getD .empty) #[.top] =
    rethrownEntered (.scalar (.object i)) from rfl, run_rethrown _ (Nat.le_of_ble_eq_true rfl)]
  rfl

/-- A handler that throws again what it catches takes in the number that has been stored in front of the
last instruction that is protected. -/
theorem ClassWriter.Run.handlers_take_in_rethrown : ∃ name descriptor p m' g T,
    Returns ((ClassWriter.start ⟨.frames, .empty⟩).startMethod staticInfo) .empty
      (staticWriter name descriptor false (.start .frames 0), ClassWriter.start ⟨.frames, .empty⟩) p ∧
    Returns (MethodWriter.events (ClassWriter.start ⟨.frames, .empty⟩).context
      (staticWriter name descriptor false (.start .frames 0)) rethrownBody) p m' p ∧
    (∃ answer, BlockGraph.infer (MethodWriter.context (ClassWriter.start ⟨.frames, .empty⟩).context
      staticInfo 1) m'.code.graph p.types = ((.ok answer, g), T)) ∧
    ∃ entry, entryAt g.blocks (g.firstOf ⟨1, false⟩) = some entry ∧
      (∃ locals T₁ T₂, LocalsBehind (ClassWriter.start ⟨.frames, .empty⟩).context
          (staticWriter name descriptor false (.start .frames 0)) p (rethrownBody.take 5) g.blocks T 3
          locals T₁ ∧
        Returns (Slots.mergeFrom .empty entry.locals false 0 locals) T₁ (false, entry.locals) T₂) ∧
      (∃ t T₁ T₂, Returns (SlotType.object "java/lang/Throwable") T t T₁ ∧
        Returns (Slots.mergeFrom .empty entry.stack false 0 [t]) T₁ (false, entry.stack) T₂) ∧
      (OnlyCaught g.blocks (g.firstOf ⟨1, false⟩) → entry.stack.size = 1) := by
  obtain ⟨name, descriptor, p, hstart, -⟩ := starts_static ⟨.frames, .empty⟩
  have hsound : p.Sound .empty := by
    obtain ⟨hstart', -⟩ := ClassWriter.returns_startMethod.1 hstart
    exact (MethodWriter.leads_start _ _ _ _ _ _ hstart' (ConstantPool.sound_empty _)).1
  obtain ⟨labels, h₀, h₁, hbefore⟩ :=
    before_rethrown name descriptor (ClassWriter.start ⟨.frames, .empty⟩).context p
  obtain ⟨waiting, hafter⟩ := after_rethrown name descriptor
    (ClassWriter.start ⟨.frames, .empty⟩).context p h₁
    ((∅ : Std.HashMap Label Nat).insert ⟨0, false⟩ 0)
  have hret := MethodWriter.returns_events_append.2 ⟨_, _, hbefore, hafter⟩
  obtain ⟨i, T, -, hinfer⟩ := settles_rethrown h₀ h₁ hsound.types
  refine ⟨name, descriptor, p, _, _, T, hstart, hret, ⟨_, hinfer⟩, ?_⟩
  have hopen : .finish ∉ rethrownBody := by simp [rethrownBody]
  have hused : ∀ e ∈ rethrownBody, ∀ l ∈ e.used, l.debug = false := by
    simp [rethrownBody, MethodEvent.used, Instruction.targets]
  have hfirst : HandlersFirst rethrownBody := by
    simp [HandlersFirst, rethrownBody, MethodEvent.handled?]
  have hadds : ∀ before index amount after k locals T',
      rethrownBody = before ++ .instruction (.increment index amount) :: after →
      Reaches (rethrownSettled (.scalar (.object i))) k →
      LocalsBehind (ClassWriter.start ⟨.frames, .empty⟩).context
        (staticWriter name descriptor false (.start .frames 0)) p before
        (rethrownSettled (.scalar (.object i))) T k locals T' →
      locals[index.toNat]? = some .int := by
    intro before index amount after k locals T' heq
    have hmem : .instruction (.increment index amount) ∈ rethrownBody :=
      heq ▸ List.mem_append_right _ List.mem_cons_self
    simp [rethrownBody] at hmem
  have hplace : ∀ l i,
      (if ⟨1, false⟩ == l then some 3 else if ⟨0, false⟩ == l then some 0 else none) = some i →
      Assembler.place? ⟨#[3, 59, 177, 191],
        ((∅ : Std.HashMap Label Nat).insert ⟨0, false⟩ 0).insert ⟨1, false⟩ 3, waiting⟩ l = some i := by
    intro l i hi
    rw [Assembler.place?, Std.HashMap.getElem?_insert, Std.HashMap.getElem?_insert,
      Std.HashMap.getElem?_empty, hi]
  have hcaught : ⟨⟨0, false⟩, ⟨1, false⟩, ⟨1, false⟩, none⟩ ∈
      rethrownBody.filterMap MethodEvent.handled? := List.mem_singleton.2 rfl
  have hbody : rethrownBody = rethrownBody.take 5 ++
      .instruction (.simple Opcode.return_) :: rethrownBody.drop 6 := rfl
  have hnodup : (rethrownBody.filterMap MethodEvent.placed?).Nodup := by decide
  have hcurrent : (staticWriter name descriptor true (rethrownCode 1 ⟨#[3, 59],
          (∅ : Std.HashMap Label Nat).insert ⟨0, false⟩ 0, (∅ : Std.HashMap _ _).erase ⟨0, false⟩⟩
          (rethrownStored labels))).code.graph.current = some 3 := rfl
  have hreach : Reaches (rethrownSettled (.scalar (.object i))) 3 :=
    .edge (e := ⟨.normal, 3⟩) .entry List.mem_cons_self
  have htaken := ClassWriter.Run.handlers_take_in .fresh rfl Hierarchy.rooted_empty hstart hopen
    hnodup hused hfirst hret hinfer hadds hbody hbefore hcurrent hreach hcaught
    (hplace ⟨0, false⟩ 0 rfl) (hplace ⟨1, false⟩ 3 rfl) (Nat.zero_le 2) (Nat.lt_succ_self 2)
  exact htaken

end Rethrown

end ClassFile
