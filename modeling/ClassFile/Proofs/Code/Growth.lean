/-
# Code and the constant pool

Whatever the events of code are, in a graph with frames or without, the pool stays sound and only grows
(`Kept.finish` for the attribute, the other lemmas for the events).  Nothing is asked of labels here.
-/
import ClassFile.Proofs.BlockGraph.Heights
import ClassFile.Proofs.Code.Writer
import ClassFile.Proofs.StackMap.Types

namespace ClassFile.CodeWriter

variable {h : Hierarchy} {w w' : CodeWriter} {p p' : ConstantPool}

/-- **What all events keep**: the pool is sound, and the graph has frames in all of its blocks or in
none. -/
structure Kept (h : Hierarchy) (w : CodeWriter) (p : ConstantPool) : Prop where
  sound : p.Sound h
  graph : w.graph.WellBuilt p.types ∨ w.graph.Frameless

theorem kept_start (hp : p.Sound h) (mode : ComputeMode) (slots : UInt16) :
    Kept h (start mode slots) p := by
  refine ⟨hp, ?_⟩
  cases mode with
  | frames => exact .inl BlockGraph.wellBuilt_start
  | maxStack => exact .inr BlockGraph.frameless_start

/-- The pool has grown, and nothing has been done to the graph. -/
theorem Kept.later (hw : Kept h w p) (hp : p'.Sound h) (hle : p ≤ p')
    (hgraph : w'.graph = w.graph) : Kept h w' p' ∧ p ≤ p' := by
  refine ⟨⟨hp, ?_⟩, hle⟩
  rw [hgraph]
  exact hw.graph.imp (fun hg => hg.later hle.types) id

/-- A change to the graph that needs no types. -/
theorem Kept.onGraph (hw : Kept h w p) {f : BlockGraph → BlockGraph}
    (hbuilt : w.graph.WellBuilt p.types → (f w.graph).WellBuilt p.types)
    (hbare : w.graph.Frameless → (f w.graph).Frameless) (hgraph : w'.graph = f w.graph) :
    Kept h w' p :=
  ⟨hw.sound, hgraph ▸ hw.graph.imp hbuilt hbare⟩

theorem Kept.instruction (hw : Kept h w p) {i : Instruction Label} {u : Unit}
    (hret : Returns (instruction i w) p (u, w') p') : Kept h w' p' ∧ p ≤ p' := by
  obtain ⟨around, a, p₁, g, T, hencode, hstep, rfl, -, -, hgraph⟩ := returns_instruction hret
  obtain ⟨hs₁, hle₁⟩ := Assembler.leads_encode i w.assembler _ _ _ hencode hw.sound
  have hstepped : T.Sound h ∧ p₁.types ≤ T ∧ (g.WellBuilt T ∨ g.Frameless) := by
    rcases hw.graph with hg | hg
    · obtain ⟨hT, hle, hg'⟩ := (hg.later hle₁.types).step hs₁.types _ _ _ _ hstep
      exact ⟨hT, hle, .inl hg'⟩
    · have hquiet := BlockGraph.quiet_step w.size a.code.size around (reported i) w.graph p₁.types hg
      rw [hstep] at hquiet
      obtain ⟨hg', rfl, -⟩ := hquiet
      exact ⟨hs₁.types, TypeTable.le_refl _, .inr hg'⟩
  obtain ⟨hT, hle, hg⟩ := hstepped
  obtain ⟨hs', hle'⟩ := hs₁.withTypes hT hle
  refine ⟨⟨hs', ?_⟩, ConstantPool.le_trans hle₁ hle'⟩
  rcases hgraph with ⟨hgraph, -⟩ | ⟨-, hgraph⟩ <;> rw [hgraph]
  · exact hg
  · exact hg.imp (fun hg => hg.splitAt _) fun hg => hg.newBlock.startBlock _ _

theorem Kept.label (hw : Kept h w p) {l : Label} {u : Unit}
    (hret : Returns (label l w) p (u, w') p') : Kept h w' p' ∧ p ≤ p' := by
  obtain ⟨a, -, rfl, rfl⟩ := returns_label hret
  refine ⟨hw.onGraph (f := fun g => if l.debug then g else g.label l w.size) ?_ ?_ rfl,
    ConstantPool.le_refl _⟩
  · intro hg
    split
    · exact hg
    · exact hg.label l _
  · intro hg
    split
    · exact hg
    · exact hg.label l _

theorem Kept.handler (hw : Kept h w p) {start stop target : Label} {caught : Option String} {u : Unit}
    (hret : Returns (handler start stop target caught w) p (u, w') p') : Kept h w' p' ∧ p ≤ p' := by
  obtain ⟨index, p₁, hs₁, hle₁, rfl, rfl⟩ := returns_handler hw.sound hret
  have hk : Kept h w p' := (hw.later hs₁ hle₁ rfl).1
  exact ⟨hk.onGraph (f := BlockGraph.addHandler ⟨start, stop, target, caught⟩)
    (fun hg => hg.addHandler _) (fun hg => hg.addHandler _) rfl, hle₁⟩

/-- In a graph without frames there is no stack map, and the pool stays as it is. -/
theorem returns_analyse_heights (hg : w.graph.Frameless) {context : MethodContext}
    {maxStack : UInt16} {frames : List MapFrame}
    (hret : Returns (analyse context w) p ((maxStack, frames), w') p') :
    ∃ computed g, BlockGraph.computeMaxStack w.graph p.types = ((.ok computed, g), p.types) ∧
      maxStack = max computed w.givenStack ∧ w' = { w with graph := g } ∧ p' = p := by
  obtain ⟨w₀, w₁, p₁, hget, hmatch⟩ := returns_bind_above.1 hret
  obtain ⟨rfl, rfl, rfl⟩ := returns_get_above.1 hget
  rw [hg.mode] at hmatch
  obtain ⟨computed, w₂, p₂, hrun, hrest⟩ := returns_bind_above.1 hmatch
  obtain ⟨g, T, hmax, rfl, rfl⟩ := returns_onGraph.1 hrun
  obtain ⟨hT, -⟩ := BlockGraph.quiet_computeMaxStack hg p.types
  rw [hmax] at hT
  obtain rfl := hT
  obtain ⟨w₃, w₄, p₃, hget', hdone⟩ := returns_bind_above.1 hrest
  obtain ⟨rfl, rfl, rfl⟩ := returns_get_above.1 hget'
  obtain ⟨heq, rfl, rfl⟩ := returns_pure_above.1 hdone
  exact ⟨computed, g, hmax, (Prod.mk.injEq .. ▸ heq).1.symm, rfl, rfl⟩

theorem Kept.analyse (hw : Kept h w p) {context : MethodContext} (hcontext : context.hierarchy = h)
    {answer : UInt16 × List MapFrame} (hret : Returns (analyse context w) p (answer, w') p') :
    p'.Sound h ∧ p ≤ p' := by
  obtain ⟨maxStack, frames⟩ := answer
  rcases hw.graph with hg | hg
  · obtain ⟨entry, g, T, hinfer, -, hmap⟩ := returns_analyse_frames hg.mode hret
    obtain ⟨hT, hle, -⟩ := hg.infer_returns (hcontext ▸ hw.sound.types) hinfer
    obtain ⟨hs₁, hle₁⟩ := hw.sound.withTypes (hcontext ▸ hT) hle
    obtain ⟨hs', hle', -⟩ := BlockGraph.stackMap_rows hs₁ hmap
    exact ⟨hs', ConstantPool.le_trans hle₁ hle'⟩
  · obtain ⟨-, -, -, -, -, rfl⟩ := returns_analyse_heights hg hret
    exact ⟨hw.sound, ConstantPool.le_refl _⟩

/-- **The attribute of code.** -/
theorem Kept.finish (hw : Kept h w p) {context : UInt16 → MethodContext}
    (hcontext : ∀ n, (context n).hierarchy = h) {code : RawAttribute}
    (hret : Returns (finish context w) p (code, w') p') :
    p'.Sound h ∧ p ≤ p' ∧ p'.text? code.name = some "Code" := by
  obtain ⟨-, maxStack, frames, handlers, lineEntries, localEntries, lines, locals, map, p₁, p₂, p₃,
    p₄, hanalyse, -, -, -, hlines, hlocals, hmap, hname, -⟩ := returns_finish hret
  obtain ⟨hs₁, hle₁⟩ := hw.analyse (hcontext _) hanalyse
  obtain ⟨hs₂, hle₂, -⟩ := table_names hs₁ hlines
  obtain ⟨hs₃, hle₃, -⟩ := table_names hs₂ hlocals
  obtain ⟨hs₄, hle₄, -⟩ := table_names hs₃ hmap
  obtain ⟨hs', hle', hcode⟩ := hs₄.utf8 hname
  exact ⟨hs', ConstantPool.le_trans hle₁ (ConstantPool.le_trans hle₂ (ConstantPool.le_trans hle₃
    (ConstantPool.le_trans hle₄ hle'))), hcode⟩

end ClassFile.CodeWriter
