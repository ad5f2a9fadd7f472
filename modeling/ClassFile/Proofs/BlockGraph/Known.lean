/-
# Inference asks for no missing type

A graph as it is built has known types only (`WellBuilt.known`): what has been made before the method,
or by another one, is not among them.  Following an edge keeps that, and so does a whole search
(`Inference.safe_run`), however it goes; nothing depends on the hierarchy, on the order in which blocks
are followed, or on whether the search comes to an end by itself.  So inference may fail, but not
because a type is missing (`WellBuilt.safe_infer`).
-/
import ClassFile.Proofs.BlockGraph.Solution
import ClassFile.Proofs.Frame.Known

namespace ClassFile

variable {made : Nat → Prop} {T T' : TypeTable}

/-! ## 1. Known blocks -/

/-- All types of a block are known: those of its frame, and what handlers catch. -/
structure Block.Known (made : Nat → Prop) (T : TypeTable) (b : Block) : Prop where
  frame : ∀ f, b.frame = some f → f.Known made T
  caught : ∀ e ∈ b.edges, ∀ t, e.kind = .caught t → t.Known made T

theorem Block.Known.later {b : Block} (hb : b.Known made T) (hle : T ≤ T') : b.Known made T' :=
  ⟨fun f hf => (hb.frame f hf).later hle, fun e he t ht => (hb.caught e he t ht).later hle⟩

/-- Changing what is not a type changes nothing. -/
theorem Block.Known.congr {b b' : Block} (hb : b.Known made T) (hframe : b'.frame = b.frame)
    (hedges : b'.edges = b.edges) : b'.Known made T :=
  ⟨fun f hf => hb.frame f (hframe ▸ hf), fun e he => hb.caught e (hedges ▸ he)⟩

namespace BlockGraph

variable {context : MethodContext} {blocks : Array Block} {g : BlockGraph}

/-- All types of all blocks are known. -/
def AllKnown (made : Nat → Prop) (T : TypeTable) (blocks : Array Block) : Prop :=
  ∀ b ∈ blocks, b.Known made T

theorem AllKnown.later (hb : AllKnown made T blocks) (hle : T ≤ T') : AllKnown made T' blocks :=
  fun b hb' => (hb b hb').later hle

theorem AllKnown.modify (hb : AllKnown made T blocks) (i : BlockId) {f : Block → Block}
    (hf : ∀ b, b.Known made T → (f b).Known made T) : AllKnown made T (blocks.modify i f) := by
  intro b hmem
  rcases mem_modify hmem with hmem | ⟨c, hc, rfl⟩
  · exact hb b hmem
  · exact hf c (hb c hc)

theorem AllKnown.setFrame (hb : AllKnown made T blocks) (i : BlockId) {f : Frame}
    (hf : f.Known made T) : AllKnown made T (blocks.modify i fun b => { b with frame := some f }) :=
  hb.modify i fun _ hb => ⟨fun _ he => Option.some.inj he ▸ hf, hb.caught⟩

/-- **What a method has built is known to it.** -/
theorem WellBuilt.known {made : Nat → Bool} (hg : g.WellBuilt T) (hg' : g.WellBuilt (T.within made)) :
    AllKnown (fun o => made o = true) T g.blocks := by
  intro b hb
  obtain ⟨f, hf, hlawful⟩ := (hg.blocks b hb).frame
  obtain ⟨f', hf', hlawful'⟩ := (hg'.blocks b hb).frame
  obtain rfl := Option.some.inj (hf.symm.trans hf')
  refine ⟨fun f₁ hf₁ => Option.some.inj (hf.symm.trans hf₁) ▸ hlawful.known hlawful', ?_⟩
  exact fun e he t ht => SlotType.Meaningful.known (.inl (((hg.blocks b hb).edges e he).valid t ht))
    (.inl (((hg'.blocks b hb).edges e he).valid t ht))

/-! ## 2. Following edges -/

namespace Inference

/-- **Following an edge** keeps all types known. -/
theorem safe_follow {f : Frame} {e : Edge} {s : Inference} (hs : AllKnown made T s.blocks)
    (hf : f.Known made T) (he : ∀ t, e.kind = .caught t → t.Known made T) :
    Safe context.hierarchy T (follow context f e s) (fun s' T' => AllKnown made T' s'.blocks) := by
  obtain ⟨blocks, pending, greatest⟩ := s
  have hcaught : ∀ t, caught e = some t → t.Known made T := by
    intro t ht
    unfold caught at ht
    split at ht
    · rename_i hkind
      exact Option.some.inj ht ▸ he _ hkind
    · exact nomatch ht
  unfold follow
  dsimp only
  split
  · rename_i hb
    have hg := (hs _ (Array.mem_of_getElem? hb)).frame _ rfl
    refine (Frame.safe_mergeInto context.className hf hg hcaught).bind fun r T₁ hle hr => ?_
    have hmerged := (hs.later hle).setFrame (BlockGraph.follow blocks (blocks.size + 1) e.successor) hr
    split
    · exact .pure (hmerged.modify (f := fun b => { b with isPending := true }) _ fun _ hb =>
        hb.congr rfl rfl)
    · exact .pure hmerged
  · exact .pure hs

/-- Visiting a block follows all of its edges. -/
theorem safe_visit (i : BlockId) {s : Inference} (hs : AllKnown made T s.blocks) :
    Safe context.hierarchy T (visit context i s) (fun s' T' => AllKnown made T' s'.blocks) := by
  obtain ⟨blocks, pending, greatest⟩ := s
  have hs' : AllKnown made T (blocks.modify i fun b =>
      { b with isPending := false, isReachable := true, isWritten := b.isWritten || b.isTarget }) :=
    hs.modify i fun _ hb => hb.congr rfl rfl
  unfold visit
  dsimp only
  split
  · rename_i hb
    have hknown := hs' _ (Array.mem_of_getElem? hb)
    refine Safe.foldlM (I := fun (s : Inference) T' => AllKnown made T' s.blocks)
      (fun e he s T' hle hs => ?_) hs'
    exact safe_follow hs ((hknown.frame _ rfl).later hle) fun t ht =>
      (hknown.caught e (Array.mem_toList_iff.1 he) t ht).later hle
  · exact .pure hs'

/-- **A whole search** keeps all types known, by induction on the blocks that may still be visited. -/
theorem safe_run (limit : Nat) {s : Inference} (hs : AllKnown made T s.blocks) :
    Safe context.hierarchy T (run context limit s) (fun s' T' => AllKnown made T' s'.blocks) := by
  induction limit generalizing s T with
  | zero => exact .pure hs
  | succ limit ih =>
    obtain ⟨blocks, pending, greatest⟩ := s
    cases pending with
    | nil => exact .pure hs
    | cons i pending =>
      exact (safe_visit (s := ⟨blocks, pending, greatest⟩) i hs).bind fun _ _ _ hs' => ih hs'

end Inference

/-! ## 3. The search of a method -/

/-- The blocks at the start of a search. -/
theorem AllKnown.entered (hb : AllKnown made T blocks) {f : Frame} (hf : f.Known made T)
    {locals : Array SlotType} (hlocals : ∀ t ∈ locals, t.Known made T) :
    AllKnown made T (BlockGraph.entered blocks f locals) :=
  (hb.setFrame 0 (hf.enteredWith ⟨hlocals, fun _ hx => absurd hx (Array.not_mem_empty _)⟩)).modify 0
    fun _ hb => hb.congr rfl rfl

/-- **Inference does not ask for a type that is not there**, and what it infers is known to the
method. -/
theorem WellBuilt.safe_infer {made : Nat → Bool} (hT : T.Whole context.hierarchy) (hg : g.WellBuilt T)
    (hg' : g.WellBuilt (T.within made)) {r : Except Error (UInt16 × List SlotType)} {g₁ : BlockGraph}
    (hrun : BlockGraph.infer context g T = ((r, g₁), T')) :
    match r with
    | .ok answer => T'.Whole context.hierarchy ∧ AllKnown (fun o => made o = true) T' g₁.blocks ∧
      ∀ t ∈ answer.2, t.Known (fun o => made o = true) T'
    | .error e => e.NotAboutTypes := by
  rcases hedges : (BlockGraph.addAllHandlerEdges g T :
    (Except Error Unit × BlockGraph) × TypeTable) with ⟨⟨ans, g₂⟩, T₁⟩
  obtain ⟨-, -, hg₂⟩ := hg.addAllHandlerEdges hT.sound hedges
  obtain ⟨rfl, hin⟩ := hg'.addAllHandlerEdges_inMethod hT.sound hedges
  have hT₁ : T₁.Whole context.hierarchy := ⟨hin.sound, hT.joined.later hin.grown hin.merges_eq⟩
  have hknown := hg₂.known hin.wellBuilt
  have hlocals : Safe context.hierarchy T₁ (Frame.methodLocals context.className context.access
      context.name context.descriptor context.maxLocals)
      (fun ts T' => ∀ t ∈ ts, t.Known (fun o => made o = true) T') :=
    Frame.safe_methodLocals _ _ _ _ _
  replace hlocals := hlocals hT₁
  obtain ⟨f, hf⟩ := hg₂.frame_zero
  obtain ⟨b, hb, hbf⟩ := Option.bind_eq_some_iff.1 hf
  rw [frameAt] at hf
  rw [infer_apply, hedges] at hrun
  simp only [hf, Option.getD_some] at hrun
  rcases hslots : (Frame.methodLocals context.className context.access context.name
    context.descriptor context.maxLocals T₁ : Except Error (Array SlotType) × TypeTable)
    with ⟨e | locals, T₂⟩ <;> simp only [hslots] at hrun hlocals
  · cases hrun
    exact hlocals
  obtain ⟨hT₂, hle₂, hlocals⟩ := hlocals
  have hknown₂ := hknown.later hle₂
  have hfknown := (hknown₂ b (Array.mem_of_getElem? hb)).frame f hbf
  have hentered := hknown₂.entered hfknown hlocals
  generalize changeLimit { g₂ with blocks := entered g₂.blocks f locals } context.hierarchy
    locals.size + 1 = limit at hrun
  have hsearch : Safe context.hierarchy T₂
      (Inference.run context limit ⟨entered g₂.blocks f locals, [0], 0⟩)
      (fun s T' => AllKnown (fun o => made o = true) T' s.blocks) := Inference.safe_run limit hentered
  replace hsearch := hsearch hT₂
  rcases hsettle : (Inference.run context limit ⟨entered g₂.blocks f locals, [0], 0⟩ T₂ :
    Except Error Inference × TypeTable) with ⟨e | s, T₃⟩ <;> simp only [hsettle] at hrun hsearch
  · cases hrun
    exact hsearch
  · cases hrun
    have hentry := hfknown.enteredWith (s := ⟨locals, #[]⟩)
      ⟨hlocals, fun _ hx => absurd hx (Array.not_mem_empty _)⟩
    exact ⟨hsearch.1, hsearch.2.2, (hentry.later hsearch.2.1).writtenLocals⟩

end BlockGraph

end ClassFile
