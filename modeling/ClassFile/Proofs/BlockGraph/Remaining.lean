/-
# Slots that are left on the stack

A block takes slots from the stack that it is entered with, and what it leaves of it goes on to its
successors.  How many slots are left is counted in 32 bits.  As long as no block takes more than
`2 ^ 31` of them, never more are left than there were (`kept_le`), so inference looks up no slot that a
stack does not have (`raises_infer`).

Nothing else in inference fails for that reason, and following an edge changes no number of slots that
are taken; so the bound is one of the graph as it is built.
-/
import ClassFile.Proofs.BlockGraph.Solution

namespace ClassFile

/-- Whatever has gone wrong, it is not that a stack lacks a slot. -/
def Error.WithinStack (e : Error) : Prop := ∀ slot, e ≠ .slotOutOfRange slot

/-! ## 1. Types -/

theorem Descriptor.withinStack_orMalformed {α : Type} {descriptor : String}
    {parsed : Except DescriptorError α} {e : Error} (h : orMalformed descriptor parsed = .error e) :
    e.WithinStack := by
  cases parsed <;> cases h
  exact fun _ => nofun

theorem TypeTable.raises_intern {E : Error → Prop} (e : TypeEntry) : Raises E (intern e) :=
  Raises.modifyGet _

theorem TypeTable.raises_entry (i : TypeIndex) : Raises Error.WithinStack (entry i) := by
  refine Raises.get.bind fun T => ?_
  split
  · exact .pure _
  · exact .throw fun _ => nofun

theorem TypeTable.raises_merged (h : Hierarchy) (a b : TypeIndex) :
    Raises Error.WithinStack (merged h a b) := by
  refine Raises.get.bind fun T => ?_
  split
  · exact .pure _
  · exact (raises_entry a).bind fun _ => (raises_entry b).bind fun _ =>
      (raises_intern _).bind fun _ => (Raises.modifyGet _).bind fun _ => .pure _

namespace SlotType

theorem raises_object {E : Error → Prop} (name : String) : Raises E (object name) :=
  (TypeTable.raises_intern _).bind fun _ => .pure _

theorem raises_anyObject {E : Error → Prop} (dimensions : Int) : Raises E (anyObject dimensions) :=
  (TypeTable.raises_intern _).bind fun _ => .pure _

theorem raises_ofFieldType (t : FieldType) : Raises Error.WithinStack (ofFieldType t) := by
  have hdims : ∀ kind : SlotKind, Raises Error.WithinStack (do
      if 127 < t.dimensions then throw (.malformedDescriptor t.text)
      return ⟨t.dimensions, kind⟩ : TypeM SlotType) := fun kind => by
    split
    · exact (Raises.throw fun _ => nofun).bind fun _ => .pure _
    · exact .pure _
  unfold ofFieldType
  split
  · exact .pure _
  · dsimp only
    split
    · exact (Raises.pure _).bind hdims
    · exact (TypeTable.raises_intern _).bind fun _ => (Raises.pure _).bind hdims

theorem raises_merge (h : Hierarchy) (current incoming : SlotType) :
    Raises Error.WithinStack (merge h current incoming) := by
  unfold merge
  repeat' split
  all_goals first
    | exact .pure _
    | exact raises_anyObject _
    | exact (TypeTable.raises_merged h _ _).bind fun _ => .pure _

end SlotType

theorem Slots.raises_mergeFrom (h : Hierarchy) {slots : Array SlotType} {changed : Bool} {index : Nat}
    {incoming : List SlotType} :
    Raises Error.WithinStack (mergeFrom h slots changed index incoming) := by
  induction incoming generalizing slots changed index with
  | nil => exact .pure _
  | cons t incoming ih =>
    rw [mergeFrom]
    split
    · exact .pure _
    · refine (SlotType.raises_merge h _ t).bind fun merged => ?_
      split
      · exact ih
      · exact ih

/-! ## 2. Frames -/

namespace Frame

variable {f g : Frame}

/-- **No more slots are left than there were**, as long as the number of those that are taken fits in 32
bits. -/
theorem kept_le (hf : f.taken ≤ 2 ^ 31) : f.kept ≤ f.entrySlots.stack.size := by
  have htoInt : (heightAbove f.entrySlots.stack.size f.taken).toInt =
      ((f.entrySlots.stack.size : Int) - f.taken).bmod (2 ^ 32) := Int32.toInt_ofInt
  rw [kept, Int32.toNatClampNeg, htoInt, Int.bmod_def]
  split <;> omega

theorem raises_methodLocals (className : String) (access : UInt16) (name descriptor : String)
    (maxLocals : UInt16) :
    Raises Error.WithinStack (methodLocals className access name descriptor maxLocals) := by
  have harguments : ∀ receiver : List SlotType, Raises Error.WithinStack (do
      let arguments ← (← Descriptor.methodType descriptor).parameters.mapM SlotType.ofFieldType
      let locals := receiver ++ spread arguments
      return (locals ++ List.replicate (maxLocals.toNat - locals.length) SlotType.top).toArray :
        TypeM (Array SlotType)) := fun receiver =>
    (Raises.lift fun _ => Descriptor.withinStack_orMalformed).bind fun type =>
      (Raises.mapM fun t _ => SlotType.raises_ofFieldType t).bind fun _ => .pure _
  unfold methodLocals
  dsimp only
  split
  · exact (Raises.pure _).bind harguments
  · split
    · exact (Raises.pure _).bind harguments
    · exact (SlotType.raises_object className).bind fun _ => (Raises.pure _).bind harguments

theorem raises_afterConstruction (className : String) (constructed : List SlotType) (t : SlotType) :
    Raises Error.WithinStack (afterConstruction className constructed t) := by
  unfold afterConstruction
  split
  · split
    · exact SlotType.raises_object className
    · exact (TypeTable.raises_entry _).bind fun e => SlotType.raises_object e.name
    · exact .pure _
  · exact .pure _

theorem raises_atExit (className : String) (f : Frame) (ts : List SlotType) :
    Raises Error.WithinStack (f.atExit className ts) :=
  Raises.mapM fun _ _ => raises_afterConstruction _ _ _

theorem raises_exitStack (className : String) (hf : f.taken ≤ 2 ^ 31) :
    Raises Error.WithinStack (f.exitStack className) := by
  unfold exitStack
  dsimp only
  rw [if_neg (Nat.not_lt.2 (kept_le hf))]
  exact raises_atExit className f _

theorem raises_outflow (className : String) (caught : Option SlotType) (hf : f.taken ≤ 2 ^ 31) :
    Raises Error.WithinStack (f.outflow className caught) := by
  refine (raises_atExit className f _).bind fun locals => ?_
  cases caught with
  | some t => exact .pure _
  | none => exact (raises_exitStack className hf).bind fun _ => .pure _

theorem raises_mergeInto (h : Hierarchy) (className : String) (caught : Option SlotType)
    (hf : f.taken ≤ 2 ^ 31) : Raises Error.WithinStack (f.mergeInto h className caught g) := by
  refine (raises_outflow className caught hf).bind fun out => ?_
  refine (Raises.foldlM (fun _ _ => Slots.raises_mergeFrom h) _ _).bind fun r => ?_
  exact (Slots.raises_mergeFrom h).bind fun _ => .pure _

/-- What is taken does not depend on the entry. -/
theorem taken_of_mergeInto {h : Hierarchy} {className : String} {caught : Option SlotType}
    {changed : Bool} {g' : Frame} {T T' : TypeTable}
    (hret : Returns (f.mergeInto h className caught g) T (changed, g') T') : g'.taken = g.taken := by
  obtain ⟨out, T₁, -, hret⟩ := returns_bind.1 hret
  obtain ⟨locals, T₂, -, hret⟩ := returns_bind.1 hret
  obtain ⟨stack, T₃, -, hret⟩ := returns_bind.1 hret
  obtain ⟨heq, -⟩ := returns_pure.1 hret
  cases heq
  rfl

end Frame

/-! ## 3. Blocks -/

namespace BlockGraph

variable {context : MethodContext} {blocks : Array Block} {g g' : BlockGraph} {T T' : TypeTable}

/-- No block takes more than `2 ^ 31` slots from the stack that it is entered with. -/
def Shallow (blocks : Array Block) : Prop :=
  ∀ i f, frameAt blocks i = some f → f.taken ≤ 2 ^ 31

theorem shallow_of_all
    (hb : blocks.toList.all (fun b => ((b.frame.map Frame.taken).getD 0).ble (2 ^ 31)) = true) :
    Shallow blocks := by
  intro i f hf
  obtain ⟨b, hblock, hframe⟩ := Option.bind_eq_some_iff.1 hf
  have hle := List.all_eq_true.1 hb b (Array.mem_toList_iff.2 (Array.mem_of_getElem? hblock))
  rw [hframe] at hle
  exact Nat.le_of_ble_eq_true hle

theorem Shallow.modify (hb : Shallow blocks) (i : BlockId) {k : Block → Block}
    (hk : ∀ b f, blocks[i]? = some b → (k b).frame = some f → f.taken ≤ 2 ^ 31) :
    Shallow (blocks.modify i k) := by
  intro j f hf
  rw [frameAt, Array.getElem?_modify] at hf
  split at hf
  · rename_i hij
    obtain ⟨c, hc, hframe⟩ := Option.bind_eq_some_iff.1 hf
    obtain ⟨b, hblock, rfl⟩ := Option.map_eq_some_iff.1 hc
    exact hk b f (hij ▸ hblock) hframe
  · exact hb j f hf

/-- Changing what is not a frame changes nothing. -/
theorem Shallow.mark (hb : Shallow blocks) (i : BlockId) {k : Block → Block}
    (hk : ∀ b, (k b).frame = b.frame) : Shallow (blocks.modify i k) :=
  hb.modify i fun b f hblock hf => hb i f (by rw [frameAt, hblock, Option.bind_some, ← hk, hf])

namespace Inference

/-- Following an edge. -/
theorem raises_follow {f : Frame} (e : Edge) (s : Inference) (hf : f.taken ≤ 2 ^ 31) :
    Raises Error.WithinStack (follow context f e s) := by
  obtain ⟨blocks, pending, greatest⟩ := s
  unfold follow
  dsimp only
  split
  · refine (Frame.raises_mergeInto context.hierarchy context.className (caught e) hf).bind fun r => ?_
    split <;> exact .pure _
  · exact .pure _

theorem shallow_follow {f : Frame} {e : Edge} {s s' : Inference} (hs : Shallow s.blocks)
    (hret : Returns (follow context f e s) T s' T') : Shallow s'.blocks := by
  obtain ⟨blocks, pending, greatest⟩ := s
  unfold follow at hret
  dsimp only at hret
  split at hret
  · rename_i position isTarget isWritten isReachable isPending isPlaced successor next edges entryHeight
      peak sameAs hblock
    obtain ⟨⟨changed, merged⟩, T₁, hmerge, hret⟩ := returns_bind.1 hret
    have hmerged : Shallow (blocks.modify (BlockGraph.follow blocks (blocks.size + 1) e.successor)
        fun b => { b with frame := some merged }) := by
      refine hs.modify _ fun b f _ hf => ?_
      cases hf
      rw [Frame.taken_of_mergeInto hmerge]
      exact hs _ successor (by rw [frameAt, hblock]; rfl)
    split at hret <;> obtain ⟨rfl, -⟩ := returns_pure.1 hret
    · exact hmerged.mark _ fun _ => rfl
    · exact hmerged
  · obtain ⟨rfl, -⟩ := returns_pure.1 hret
    exact hs

theorem raises_visit (i : BlockId) {s : Inference} (hs : Shallow s.blocks) :
    Raises Error.WithinStack (visit context i s) := by
  obtain ⟨blocks, pending, greatest⟩ := s
  unfold visit
  dsimp only
  have hs' : Shallow (blocks.modify i fun b =>
    { b with isPending := false, isReachable := true, isWritten := b.isWritten || b.isTarget }) :=
    hs.mark i fun _ => rfl
  split
  · rename_i position isTarget isWritten isReachable isPending isPlaced f next edges entryHeight peak
      sameAs hblock
    have hf : f.taken ≤ 2 ^ 31 := hs' i f (by rw [frameAt, hblock]; rfl)
    exact Raises.foldlM (fun s e => raises_follow e s hf) _ _
  · exact .pure _

theorem shallow_visit {i : BlockId} {s s' : Inference} (hs : Shallow s.blocks)
    (hret : Returns (visit context i s) T s' T') : Shallow s'.blocks := by
  obtain ⟨blocks, pending, greatest⟩ := s
  unfold visit at hret
  dsimp only at hret
  have hs' : Shallow (blocks.modify i fun b =>
    { b with isPending := false, isReachable := true, isWritten := b.isWritten || b.isTarget }) :=
    hs.mark i fun _ => rfl
  split at hret
  · exact returns_foldlM_keeps (P := fun s => Shallow s.blocks)
      (fun s e T s' T' hs => shallow_follow hs) hs' hret
  · obtain ⟨rfl, -⟩ := returns_pure.1 hret
    exact hs'

/-- **A whole search**, by induction on the blocks that may still be visited. -/
theorem raises_run (limit : Nat) {s : Inference} (hs : Shallow s.blocks) :
    Raises Error.WithinStack (run context limit s) := by
  induction limit generalizing s with
  | zero => exact .pure _
  | succ limit ih =>
    obtain ⟨blocks, pending, greatest⟩ := s
    cases pending with
    | nil => exact .pure _
    | cons i pending =>
      intro T
      exact (raises_visit (s := ⟨blocks, pending, greatest⟩) i hs T).bind fun s' T' hret =>
        ih (shallow_visit (s := ⟨blocks, pending, greatest⟩) hs hret) T'

end Inference

/-! ## 4. Graphs -/

/-- Adding edges to handlers changes no frame. -/
theorem Shallow.addAllHandlerEdges {h : Hierarchy} (hT : T.Sound h) (hg : g.WellBuilt T)
    (hb : Shallow g.blocks) {ans : Except Error Unit}
    (hrun : BlockGraph.addAllHandlerEdges g T = ((ans, g'), T')) :
    ans = .ok () ∧ Shallow g'.blocks := by
  have hadd : ∀ (e : Edge) (range : List BlockId) {g : BlockGraph}, Shallow g.blocks →
      Shallow (g.addEdges e range).blocks := by
    intro e range
    unfold BlockGraph.addEdges
    induction range with
    | nil => exact id
    | cons i range ih => exact fun hb => ih (hb.mark i fun _ => rfl)
  have hall := addAllHandlerEdges_answers (P := fun ans g T => ans = .ok () ∧ T.Sound h ∧
      g.WellBuilt T ∧ Shallow g.blocks) (fun r _ g T ans g' T' ⟨_, hT, hg, hb⟩ hr => by
    obtain ⟨hs, -, hg'⟩ := hg.addHandlerEdges hT r hr
    obtain ⟨hans, -, -, -, ⟨rfl, -⟩ | ⟨-, i, -, rfl⟩⟩ := addHandlerEdges_cases hT hg.mode r hr
    · exact ⟨hans, hs, hg', hb⟩
    · exact ⟨hans, hs, hg', hadd _ _ (hb.mark _ fun _ => rfl)⟩) ⟨rfl, hT, hg, hb⟩ hrun
  exact ⟨hall.1, hall.2.2.2⟩

/-- **Inference looks up no slot that a stack does not have**, in a graph where no block takes more than
`2 ^ 31` slots from the stack. -/
theorem WellBuilt.raises_infer (hT : T.Sound context.hierarchy) (hg : g.WellBuilt T)
    (hb : Shallow g.blocks) {e : Error} (hrun : BlockGraph.infer context g T = ((.error e, g'), T')) :
    e.WithinStack := by
  rw [infer_apply] at hrun
  rcases hedges : (BlockGraph.addAllHandlerEdges g T :
    (Except Error Unit × BlockGraph) × TypeTable) with ⟨⟨ans, g₁⟩, T₁⟩
  obtain ⟨rfl, hb₁⟩ := hb.addAllHandlerEdges hT hg hedges
  obtain ⟨-, -, hg₁⟩ := hg.addAllHandlerEdges hT hedges
  rw [hedges] at hrun
  dsimp only at hrun
  rcases hlocals : (Frame.methodLocals context.className context.access context.name
    context.descriptor context.maxLocals T₁ : Except Error (Array SlotType) × TypeTable)
    with ⟨e' | locals, T₂⟩ <;> simp only [hlocals] at hrun
  · cases hrun
    exact Frame.raises_methodLocals _ _ _ _ _ T₁ _ _ hlocals
  · obtain ⟨f, hf⟩ := hg₁.frame_zero
    simp only [show g₁.blocks[0]?.bind Block.frame = some f from hf, Option.getD_some] at hrun
    have hentered : Shallow (entered g₁.blocks f locals) := by
      refine (hb₁.modify 0 fun b f' _ hf' => ?_).mark 0 fun _ => rfl
      cases hf'
      exact hb₁ 0 f hf
    rcases hsettle : (Inference.run context (changeLimit { g₁ with
      blocks := entered g₁.blocks f locals } context.hierarchy locals.size + 1)
      ⟨entered g₁.blocks f locals, [0], 0⟩ T₂ : Except Error Inference × TypeTable) with ⟨e' | s, T₃⟩ <;>
      simp only [hsettle] at hrun
    · cases hrun
      exact Inference.raises_run _ (s := ⟨entered g₁.blocks f locals, [0], 0⟩) hentered T₂ _ _ hsettle
    · cases hrun

end BlockGraph

end ClassFile
