/-
# Which blocks have an entry in the stack map

When all labels of a method have been placed, the blocks that inference marks stand in the chain of
placed blocks, with ascending positions (`infer_marks`).  They are exactly the targets among the
blocks that can be reached.  Inference under a hierarchy without a root could stop too early; then some
block is still waiting.
-/
import ClassFile.Proofs.BlockGraph.Chain
import ClassFile.Proofs.BlockGraph.Solution

namespace ClassFile.BlockGraph

variable {context : MethodContext} {g g' : BlockGraph} {T T' : TypeTable} {i : BlockId}
  {placed named : Label → Prop} {p : Nat}

/-! ## 1. Places are kept -/

theorem SameOutline.sameShape {blocks blocks' : Array Block} (ho : SameOutline blocks blocks') :
    SameShape blocks blocks' := by
  have hjoin : ∀ (r : Block → Option BlockId) (o : Option Block), o.bind r = (o.map r).join :=
    fun r o => by cases o <;> rfl
  refine ⟨ho.size_eq, ho.read fun _ => rfl, fun j => ?_, fun j => ?_⟩
  · rw [nextAt, nextAt, hjoin, hjoin, ho.read fun _ => rfl]
  · rw [aliasAt, aliasAt, hjoin, hjoin, ho.read fun _ => rfl]

theorem SameShape.trans {blocks blocks' blocks'' : Array Block} (h : SameShape blocks blocks')
    (h' : SameShape blocks' blocks'') : SameShape blocks blocks'' :=
  ⟨h'.size.trans h.size, fun i => (h'.position i).trans (h.position i),
    fun i => (h'.next i).trans (h.next i), fun i => (h'.sameAs i).trans (h.sameAs i)⟩

/-- Entering a method leaves all blocks in their places. -/
theorem sameShape_entered (g : BlockGraph) (f : Frame) (locals : Array SlotType) :
    SameShape g.blocks (entered g.blocks f locals) :=
  (sameShape_onBlock g 0 (f := fun b => { b with frame := some (f.enteredWith ⟨locals, #[]⟩) })
    fun _ => ⟨rfl, rfl, rfl⟩).trans
    (sameShape_onBlock (g.onBlock 0 fun b => { b with frame := some (f.enteredWith ⟨locals, #[]⟩) })
      0 (f := fun b => { b with isPending := true }) fun _ => ⟨rfl, rfl, rfl⟩)

theorem Charted.addEdges (hc : Charted placed named p g) (e : Edge) (range : List BlockId) :
    Charted placed named p (g.addEdges e range) := by
  unfold BlockGraph.addEdges
  induction range generalizing g with
  | nil => exact hc
  | cons i range ih => exact ih (hc.onBlock i (f := Block.addEdge e) fun _ => ⟨rfl, rfl, rfl⟩)

/-- The edges of a handler leave all blocks in their places. -/
theorem Charted.addHandlerEdges {h : Hierarchy} (hT : T.Sound h) (hmode : g.mode = .frames)
    (hc : Charted placed named p g) {r : HandlerRange} {ans : Except Error Unit}
    (hrun : addHandlerEdges r g T = ((ans, g'), T')) : Charted placed named p g' := by
  obtain ⟨-, -, -, -, ⟨rfl, -⟩ | ⟨-, i, -, rfl⟩⟩ := addHandlerEdges_cases hT hmode r hrun
  · exact hc
  · exact (hc.onBlock _ (f := fun b => { b with isTarget := true }) fun _ => ⟨rfl, rfl, rfl⟩).addEdges
      _ _

theorem Charted.addAllHandlerEdges {h : Hierarchy} (hT : T.Sound h) (hg : g.WellBuilt T)
    (hc : Charted placed named p g) {ans : Except Error Unit}
    (hrun : addAllHandlerEdges g T = ((ans, g'), T')) : Charted placed named p g' := by
  refine (addAllHandlerEdges_keeps
    (P := fun g' T' => T'.Sound h ∧ g'.WellBuilt T' ∧ Charted placed named p g') ?_
    ⟨hT, hg, hc⟩ hrun).2.2
  rintro r - g₁ T₁ ans g₂ T₂ ⟨hs, hg₁, hc₁⟩ hr
  obtain ⟨hs₂, -, hg₂⟩ := hg₁.addHandlerEdges hs r hr
  exact ⟨hs₂, hg₂, hc₁.addHandlerEdges hs hg₁.mode hr⟩

/-! ## 2. What inference leaves -/

theorem SameOutline.reaches {blocks blocks' : Array Block} (ho : SameOutline blocks blocks')
    (hi : Reaches blocks i) : Reaches blocks' i := by
  induction hi with
  | entry => exact .entry
  | @edge j e _ he ih =>
    rw [← ho.targetOf_eq]
    exact .edge ih (ho.edgesAt_eq j ▸ he)

theorem SameOutline.symm {blocks blocks' : Array Block} (ho : SameOutline blocks blocks') :
    SameOutline blocks' blocks := Eq.symm ho

/-- The parts of inference: edges to handlers, the locals on entry, and the search. -/
theorem infer_parts {answer : UInt16 × List SlotType}
    (hrun : BlockGraph.infer context g T = ((.ok answer, g'), T')) :
    ∃ g₁ T₁ f locals T₂ limit s,
      BlockGraph.addAllHandlerEdges g T = ((.ok (), g₁), T₁) ∧
      (frameAt g₁.blocks 0).getD .empty = f ∧
      Returns (Frame.methodLocals context.className context.access context.name context.descriptor
        context.maxLocals) T₁ locals T₂ ∧
      Returns (Inference.run context limit ⟨entered g₁.blocks f locals, [0], 0⟩) T₂ s T' ∧
      g' = { g₁ with blocks := s.blocks } ∧
      answer = (writtenHeight s.greatest, (f.enteredWith ⟨locals, #[]⟩).writtenLocals) := by
  rw [infer_apply] at hrun
  rcases hedges : (BlockGraph.addAllHandlerEdges g T :
    (Except Error Unit × BlockGraph) × TypeTable) with ⟨⟨e | u, g₁⟩, T₁⟩
  · rw [hedges] at hrun
    exact nomatch hrun
  rcases hlocals : (Frame.methodLocals context.className context.access context.name
    context.descriptor context.maxLocals T₁ : Except Error (Array SlotType) × TypeTable)
    with ⟨e | locals, T₂⟩
  · simp only [hedges, hlocals] at hrun
    exact nomatch hrun
  simp only [hedges, hlocals] at hrun
  generalize hf : (g₁.blocks[0]?.bind Block.frame).getD .empty = f at hrun
  rcases hsettle : (Inference.run context (changeLimit { g₁ with
    blocks := entered g₁.blocks f locals } context.hierarchy locals.size + 1)
    ⟨entered g₁.blocks f locals, [0], 0⟩ T₂ : Except Error Inference × TypeTable) with ⟨e | s, T₃⟩
  · rw [hsettle] at hrun
    exact nomatch hrun
  rw [hsettle] at hrun
  cases hrun
  exact ⟨g₁, T₁, f, locals, T₂, _, s, rfl, hf, hlocals, hsettle, rfl, rfl⟩

/-- **What an answer of inference tells**, whatever the hierarchy is like. -/
theorem WellBuilt.infer_returns (hT : T.Sound context.hierarchy) (hg : g.WellBuilt T)
    {answer : UInt16 × List SlotType} (hrun : BlockGraph.infer context g T = ((.ok answer, g'), T')) :
    T'.Sound context.hierarchy ∧ T ≤ T' ∧ ∃ g₁ T₁ f locals T₂ s,
      BlockGraph.addAllHandlerEdges g T = ((.ok (), g₁), T₁) ∧ g₁.WellBuilt T₁ ∧
      Returns (Frame.methodLocals context.className context.access context.name context.descriptor
        context.maxLocals) T₁ locals T₂ ∧
      T₁.Sound context.hierarchy ∧ T₂ ≤ T' ∧ Complete (entered g₁.blocks f locals) s ∧
      g' = { g₁ with blocks := s.blocks } ∧
      answer.2 = (f.enteredWith ⟨locals, #[]⟩).writtenLocals := by
  obtain ⟨g₁, T₁, f, locals, T₂, limit, s, hedges, -, hlocals, hsettle, rfl, hanswer⟩ := infer_parts hrun
  obtain ⟨hs₁, hle₁, hg₁⟩ := hg.addAllHandlerEdges hT hedges
  obtain ⟨hs₂, hle₂, -⟩ := Frame.tame_methodLocals context.className context.access
    context.name context.descriptor context.maxLocals T₁ hs₁ trivial _ T₂ hlocals
  obtain ⟨hs₃, hle₃⟩ := leads_run context _ _ _ _ _ hsettle hs₂
  exact ⟨hs₃, TypeTable.le_trans hle₁ (TypeTable.le_trans hle₂ hle₃), g₁, T₁, f, locals, T₂, s, hedges,
    hg₁, hlocals, hs₁, hle₃, (hg₁.later hle₂).complete.run hsettle, rfl, congrArg Prod.snd hanswer⟩

/-- No block waits to be visited. -/
def Finished (blocks : Array Block) : Prop := ∀ b ∈ blocks, b.isPending = false

/-- Then nothing is pending. -/
theorem Finished.pending_eq_nil {start : Array Block} {s : Inference} (hdone : Finished s.blocks)
    (hc : Complete start s) : s.pending = [] := by
  refine List.eq_nil_iff_forall_not_mem.2 fun i hi => ?_
  obtain ⟨b, hb⟩ : ∃ b, s.blocks[i]? = some b :=
    ⟨_, Array.getElem?_eq_getElem (hc.outline.size_eq ▸ hc.pending_lt i hi)⟩
  have hp := (hc.pending i b hb).2 hi
  rw [hdone b (Array.mem_of_getElem? hb)] at hp
  exact nomatch hp

/-- Under a hierarchy with a root, nothing waits in the end. -/
theorem WellBuilt.infer_done (hr : context.hierarchy.Rooted) (hT : T.Sound context.hierarchy)
    (hg : g.WellBuilt T) {answer : UInt16 × List SlotType}
    (hrun : BlockGraph.infer context g T = ((.ok answer, g'), T')) :
    Finished g'.blocks := by
  obtain ⟨-, -, hans⟩ := hg.infer hr hT hrun
  obtain ⟨g₁, T₁, f, locals, s, -, -, -, hinferred, rfl, -⟩ := hans answer rfl
  intro b hb
  obtain ⟨i, hi⟩ := Array.getElem?_of_mem hb
  have hiff := hinferred.invariant.pending i b hi
  rw [hinferred.done] at hiff
  exact Bool.eq_false_iff.2 fun hp => List.not_mem_nil (hiff.1 hp)

/-! ## 3. Marked blocks -/

/-- Does something lead to a block? -/
def isTargetAt (blocks : Array Block) (i : BlockId) : Prop :=
  ∃ b, blocks[i]? = some b ∧ b.isTarget = true

/-- The marked blocks of the chain. -/
def markedBlocks (g : BlockGraph) : List BlockId :=
  (g.chain 0).filter fun i => (g.blocks[i]?.map Block.isWritten).getD false

theorem mem_markedBlocks {i : BlockId} :
    i ∈ g.markedBlocks ↔ i ∈ g.chain 0 ∧ ∃ b, g.blocks[i]? = some b ∧ b.isWritten = true := by
  rw [markedBlocks, List.mem_filter]
  cases g.blocks[i]? with
  | none => simp
  | some b => simp

/-- The rows to be written are the positions and frames of the marked blocks. -/
theorem writtenFrames_forall₂ (hframes : ∀ i ∈ g.chain 0, ∃ f, frameAt g.blocks i = some f) :
    List.Forall₂ (fun i row => g.positionOf i = row.1 ∧ frameAt g.blocks i = some row.2)
      g.markedBlocks g.writtenFrames := by
  unfold markedBlocks writtenFrames
  generalize g.chain 0 = chain at hframes ⊢
  induction chain with
  | nil => exact .nil
  | cons i chain ih =>
    have hrest := ih fun j hj => hframes j (List.mem_cons_of_mem _ hj)
    obtain ⟨f, hf⟩ := hframes i List.mem_cons_self
    obtain ⟨b, hb, hbf⟩ := Option.bind_eq_some_iff.1 hf
    have hpos : g.positionOf i = b.position := by
      rw [positionOf, hb]
      rfl
    cases hw : b.isWritten with
    | false => simpa [hb, hbf, hw] using hrest
    | true =>
      simpa [hb, hbf, hw, hpos, hf] using hrest

/-- **The marked blocks**: their positions ascend up to the end of the code; control gets to each of
them, and something leads to it.  When inference has ended with nothing waiting, these are all such
blocks. -/
theorem Charted.infer_marks (hT : T.Sound context.hierarchy) (hg : g.WellBuilt T)
    (hc : Charted placed named p g) (hplaced : ∀ l, named l → placed l)
    {answer : UInt16 × List SlotType} (hrun : BlockGraph.infer context g T = ((.ok answer, g'), T')) :
    List.Forall₂ (fun i row => g'.positionOf i = row.1 ∧ frameAt g'.blocks i = some row.2)
      g'.markedBlocks g'.writtenFrames ∧
    g'.markedBlocks.Pairwise (fun i j => g'.positionOf i < g'.positionOf j) ∧
    (∀ i ∈ g'.markedBlocks,
      g'.positionOf i ≤ p ∧ Reaches g'.blocks i ∧ isTargetAt g'.blocks i) ∧
    (context.hierarchy.Rooted ∨ Finished g'.blocks →
      ∀ i, Reaches g'.blocks i → isTargetAt g'.blocks i → i ∈ g'.markedBlocks) := by
  have hrooted : context.hierarchy.Rooted → Finished g'.blocks := fun hr => hg.infer_done hr hT hrun
  obtain ⟨-, -, g₁, T₁, f, locals, T₂, s, hedges, hg₁, -, -, -, hcomplete, rfl, -⟩ :=
    hg.infer_returns hT hrun
  have hc₁ := hc.addAllHandlerEdges hT hg hedges
  have ho := hcomplete.outline
  have hshape : SameShape g₁.blocks s.blocks := (sameShape_entered g₁ f locals).trans ho.sameShape
  have hc' : Charted placed named p { g₁ with blocks := s.blocks } := by
    refine hc₁.of_chained (by rfl)
      (fun chain hchain => ⟨chain, hchain.congr hshape rfl hchain.current⟩) ?_
    exact (hshape.positionOf_eq _).trans_le hc₁.behind
  obtain ⟨chain, hchain⟩ := hc'.chained
  have hfree : ∀ i, ¬ Unplaced { g₁ with blocks := s.blocks } placed i := by
    rintro i ⟨l, hl, hp⟩
    exact hp (hplaced l (hc'.named l i hl))
  have hsize : (entered g₁.blocks f locals).size = s.blocks.size := ho.size_eq.symm
  have hmem : ∀ i, Reaches s.blocks i → i ∈ chain := by
    rintro i (_ | ⟨hj, he⟩)
    · exact List.mem_of_mem_head? hchain.head
    · refine hchain.first_mem hfree (Nat.lt_of_lt_of_eq ?_ hsize)
      exact hcomplete.successor_lt _ _ (ho.edgesAt_eq _ ▸ he)
  have hchain0 : chain = BlockGraph.chain { g₁ with blocks := s.blocks } 0 := hchain.chain_eq.symm
  refine ⟨writtenFrames_forall₂ fun i hi => ?_, ?_, fun i hi => ?_, fun hdone i hreach htarget => ?_⟩
  · rw [← hchain0] at hi
    exact hcomplete.framed i (Nat.lt_of_lt_of_eq (hchain.lt i hi) hsize.symm)
  · rw [markedBlocks, ← hchain0]
    exact hchain.ascending.filter _
  · obtain ⟨hi, b, hb, hw⟩ := mem_markedBlocks.1 hi
    refine ⟨Nat.le_trans (hchain.le_last (hchain0 ▸ hi)) hc'.behind, ?_, b, hb, ?_⟩
    · exact ho.reaches (hcomplete.reaches i ((hcomplete.flags i b hb).2 (.inl hw)))
    · exact (hcomplete.flags i b hb).1 hw
  · obtain ⟨b, hb, ht⟩ := htarget
    have hnone : s.pending = [] := Finished.pending_eq_nil (hdone.elim hrooted id) hcomplete
    refine mem_markedBlocks.2 ⟨hchain0 ▸ hmem i hreach, b, hb, ?_⟩
    exact (hcomplete.isWritten_iff hnone hb).2 ⟨ho.symm.reaches hreach, ht⟩

end ClassFile.BlockGraph
