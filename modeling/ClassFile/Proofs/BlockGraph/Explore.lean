/-
# Which blocks inference visits

Inference changes the entries of blocks and a few flags, and nothing else (`SameOutline`).  Whatever
the types are, it reaches only blocks to which a path from the entry leads, and a block that has been
reached waits until it has been visited (`Explored`).  A block is entered along each edge of a block
that has been visited (`Complete`).  So when nothing waits any more, the blocks that have been reached
are those that can be reached (`Complete.reached_iff`), and the marks tell which of them are targets
(`Complete.isWritten_iff`).
-/
import ClassFile.Proofs.BlockGraph.Build

namespace ClassFile

/-! ## 1. Views of blocks -/

/-- The effect of a frame, without its entry. -/
def Frame.effect : Frame → Frame
  | ⟨_, locals, stack, taken, peak, constructed⟩ => ⟨none, locals, stack, taken, peak, constructed⟩

@[simp] theorem Frame.effect_enteredWith (s : Slots) (f : Frame) :
    (f.enteredWith s).effect = f.effect := rfl

/-- What inference leaves alone of a block. -/
def Block.outline (b : Block) : Block :=
  { b with isWritten := false, isReachable := false, isPending := false
           frame := b.frame.map Frame.effect }

namespace BlockGraph

/-- The frame of a block. -/
def frameAt (blocks : Array Block) (i : BlockId) : Option Frame := blocks[i]?.bind Block.frame

/-- The slots on entry of a block that has been reached. -/
def entryAt (blocks : Array Block) (i : BlockId) : Option Slots :=
  (frameAt blocks i).bind Frame.entry

/-- The edges of a block. -/
def edgesAt (blocks : Array Block) (i : BlockId) : List Edge :=
  (blocks[i]?.map fun b => b.edges.toList).getD []

/-- The block that an edge leads to. -/
def targetOf (blocks : Array Block) (e : Edge) : BlockId :=
  follow blocks (blocks.size + 1) e.successor

/-- Only entries and flags differ. -/
def SameOutline (blocks blocks' : Array Block) : Prop :=
  blocks'.map Block.outline = blocks.map Block.outline

section Outline

variable {blocks blocks' : Array Block} {i : BlockId}

theorem SameOutline.size_eq (ho : SameOutline blocks blocks') : blocks'.size = blocks.size := by
  have := congrArg Array.size ho
  simpa using this

theorem SameOutline.getElem? (ho : SameOutline blocks blocks') (i : BlockId) :
    blocks'[i]?.map Block.outline = blocks[i]?.map Block.outline := by
  rw [← Array.getElem?_map, ← Array.getElem?_map, ho]

theorem SameOutline.trans {blocks'' : Array Block} (ho : SameOutline blocks blocks')
    (ho' : SameOutline blocks' blocks'') : SameOutline blocks blocks'' := Eq.trans ho' ho

/-- What can be read off the outline is the same. -/
theorem SameOutline.read {α : Type} (ho : SameOutline blocks blocks') {f : Block → α}
    (hf : ∀ b, f b.outline = f b) (i : BlockId) : blocks'[i]?.map f = blocks[i]?.map f := by
  have := congrArg (Option.map f) (ho.getElem? i)
  simpa [Option.map_map, Function.comp_def, hf] using this

theorem SameOutline.edgesAt_eq (ho : SameOutline blocks blocks') (i : BlockId) :
    edgesAt blocks' i = edgesAt blocks i := by
  unfold edgesAt
  rw [ho.read (f := fun b => b.edges.toList) (fun _ => rfl)]

theorem SameOutline.follow_eq (ho : SameOutline blocks blocks') (limit : Nat) (i : BlockId) :
    follow blocks' limit i = follow blocks limit i := by
  have hsame : ∀ j : BlockId, blocks'[j]?.bind Block.sameAs = blocks[j]?.bind Block.sameAs := by
    intro j
    have := ho.read (f := Block.sameAs) (fun _ => rfl) j
    cases h' : blocks'[j]? <;> cases h : blocks[j]? <;> simp_all
  induction limit generalizing i with
  | zero => rfl
  | succ limit ih =>
    unfold follow
    rw [hsame]
    split
    · exact ih _
    · rfl

theorem SameOutline.targetOf_eq (ho : SameOutline blocks blocks') (e : Edge) :
    targetOf blocks' e = targetOf blocks e := by
  unfold targetOf
  rw [ho.size_eq, ho.follow_eq]

theorem sameOutline_modify {f : Block → Block}
    (hf : ∀ b, blocks[i]? = some b → (f b).outline = b.outline) :
    SameOutline blocks (blocks.modify i f) := by
  apply Array.ext_getElem?
  intro j
  simp only [Array.getElem?_map, Array.getElem?_modify]
  split
  · rename_i hij
    subst hij
    cases hb : blocks[i]? with
    | none => rfl
    | some b => exact congrArg some (hf b hb)
  · rfl

/-- Changing flags does not change frames. -/
theorem frameAt_modify_flags {f : Block → Block} (hf : ∀ b, (f b).frame = b.frame)
    (j : BlockId) : frameAt (blocks.modify i f) j = frameAt blocks j := by
  unfold frameAt
  rw [Array.getElem?_modify]
  split
  · rename_i hij
    subst hij
    cases blocks[i]? with
    | none => rfl
    | some b => exact hf b
  · rfl

theorem frameAt_modify_frame (hi : i < blocks.size) {f : Block → Block} {g : Frame}
    (hf : ∀ b, (f b).frame = some g) (j : BlockId) :
    frameAt (blocks.modify i f) j = if i = j then some g else frameAt blocks j := by
  unfold frameAt
  rw [Array.getElem?_modify]
  split
  · rename_i hij
    subst hij
    simp [hi, hf]
  · rfl

end Outline

/-! ## 2. Blocks that have been reached -/

/-- A block has been reached. -/
def ReachedIn (blocks : Array Block) (i : BlockId) : Prop := (entryAt blocks i).isSome = true

/-- A block that can be reached from the entry along edges. -/
inductive Reaches (blocks : Array Block) : BlockId → Prop where
  | entry : Reaches blocks 0
  | edge {i : BlockId} {e : Edge} : Reaches blocks i → e ∈ edgesAt blocks i →
      Reaches blocks (targetOf blocks e)

theorem ReachedIn.lt {blocks : Array Block} {i : BlockId} (hi : ReachedIn blocks i) :
    i < blocks.size := by
  unfold ReachedIn entryAt frameAt at hi
  by_contra hlt
  rw [Array.getElem?_eq_none (Nat.le_of_not_lt hlt)] at hi
  cases hi

/-- What holds of the blocks and of what is pending at any time, when inference has started with the
blocks `start`, whatever the types are. -/
structure Explored (start : Array Block) (s : Inference) : Prop where
  outline : SameOutline start s.blocks
  successor_lt : ∀ i, ∀ e ∈ edgesAt start i, e.successor < start.size
  sameAs : ∀ b ∈ start, ∀ j, b.sameAs = some j → j < start.size
  framed : ∀ i < start.size, ∃ f, frameAt s.blocks i = some f
  nodup : s.pending.Nodup
  pending_lt : ∀ i ∈ s.pending, i < start.size
  pending : ∀ i b, s.blocks[i]? = some b → (b.isPending = true ↔ i ∈ s.pending)
  pending_reached : ∀ i ∈ s.pending, ReachedIn s.blocks i
  reaches : ∀ i, ReachedIn s.blocks i → Reaches start i
  flags : ∀ i b, s.blocks[i]? = some b → (b.isWritten = true → b.isTarget = true) ∧
    (b.isWritten = true ∨ b.isReachable = true → ReachedIn s.blocks i)
  /-- A block that has been reached and does not wait has been visited. -/
  visited : ∀ i b, s.blocks[i]? = some b → ReachedIn s.blocks i → i ∉ s.pending →
    b.isReachable = true ∧ (b.isTarget = true → b.isWritten = true)

/-! ## 3. Following an edge -/

/-- The state behind an edge to a block, whose frame is now another one. -/
def land (s : Inference) (i : BlockId) (b : Block) (changed : Bool) (g : Frame) : Inference :=
  ⟨s.blocks.modify i fun b => { b with frame := some g, isPending := b.isPending || changed },
    if changed && !b.isPending then i :: s.pending else s.pending, s.greatest⟩

/-- What following an edge from a block with the frame `f` to one with the frame `g` comes to. -/
theorem follow_cases {context : MethodContext} {f g : Frame} {e : Edge} {s : Inference}
    {T T' : TypeTable} {b : Block} {r : Except Error Inference}
    (hb : s.blocks[targetOf s.blocks e]? = some b) (hg : b.frame = some g)
    (hrun : Inference.follow context f e s T = (r, T')) :
    ∃ rm, f.mergeInto context.hierarchy context.className (Inference.caught e) g T = (rm, T') ∧
      r = rm.map fun (changed, g') => land s (targetOf s.blocks e) b changed g' := by
  obtain ⟨blocks, pending, greatest⟩ := s
  simp only [land] at hb hrun ⊢
  generalize hi : targetOf blocks e = i at hb ⊢
  obtain ⟨position, isTarget, isWritten, isReachable, isPending, isPlaced, frame, next, edges,
    entryHeight, peak, sameAs⟩ := b
  cases hg
  unfold Inference.follow at hrun
  simp only [show BlockGraph.follow blocks (blocks.size + 1) e.successor = i from hi, hb] at hrun
  rw [bind_apply] at hrun
  rcases hm : (f.mergeInto context.hierarchy context.className (Inference.caught e) g T :
    Except Error (Bool × Frame) × TypeTable) with ⟨rm, T₁⟩
  rw [hm] at hrun
  cases rm with
  | error err =>
    cases hrun
    exact ⟨_, rfl, rfl⟩
  | ok m =>
    obtain ⟨changed, g'⟩ := m
    have hstate : ∀ p : Bool, p = (isPending || changed) → ∀ blocks' : Array Block,
        (∀ j : BlockId, blocks'[j]? = if i = j then some ⟨position, isTarget, isWritten, isReachable,
          p, isPlaced, some g', next, edges, entryHeight, peak, sameAs⟩ else blocks[j]?) →
        blocks' = blocks.modify i fun b =>
          { b with frame := some g', isPending := b.isPending || changed } := by
      rintro p rfl blocks' hblocks'
      apply Array.ext_getElem?
      intro j
      rw [hblocks', Array.getElem?_modify]
      split
      · rename_i hij
        subst hij
        rw [hb]
        rfl
      · rfl
    have hlt : i < blocks.size := (Array.getElem?_eq_some_iff.1 hb).1
    simp only at hrun
    by_cases hq : (changed && !isPending) = true
    · rw [if_pos hq] at hrun
      cases hrun
      refine ⟨.ok (changed, g'), rfl, ?_⟩
      simp only [Inference.enqueue, Except.map, hq, if_true, Except.ok.injEq,
        Inference.mk.injEq, and_true]
      refine hstate true ?_ _ fun j => ?_
      · simp_all
      · simp only [Array.getElem?_modify]
        split
        · rename_i hij
          subst hij
          simp [hb]
        · rfl
    · rw [if_neg hq] at hrun
      cases hrun
      refine ⟨.ok (changed, g'), rfl, ?_⟩
      simp only [Except.map, hq, Bool.false_eq_true, if_false, Except.ok.injEq,
        Inference.mk.injEq, and_true]
      refine hstate isPending ?_ _ fun j => ?_
      · cases changed <;> simp_all
      · simp only [Array.getElem?_modify]
        split
        · rename_i hij
          subst hij
          simp [hb]
        · rfl

variable {context : MethodContext} {start : Array Block} {s s' s'' : Inference} {T T' : TypeTable}
  {f : Frame} {e : Edge}

/-- An edge that has been followed to block `i`, whose entry is now `slots`. -/
structure Lands (start : Array Block) (s : Inference) (i : BlockId) (b : Block) (g : Frame)
    (changed : Bool) (slots : Slots) : Prop where
  explored : Explored start s
  lt : i < start.size
  block : s.blocks[i]? = some b
  frame : b.frame = some g
  reaches : Reaches start i
  /-- Entering a block for the first time changes it. -/
  first : changed = false → g.entry = some slots

namespace Lands

variable {i : BlockId} {b : Block} {g : Frame} {changed : Bool} {slots : Slots}

theorem frameAt_land (hl : Lands start s i b g changed slots) (j : BlockId) :
    frameAt (land s i b changed (g.enteredWith slots)).blocks j =
      if i = j then some (g.enteredWith slots) else frameAt s.blocks j :=
  frameAt_modify_frame (hl.explored.outline.size_eq ▸ hl.lt) (fun _ => rfl) j

theorem entryAt_land (hl : Lands start s i b g changed slots) (j : BlockId) :
    entryAt (land s i b changed (g.enteredWith slots)).blocks j =
      if i = j then some slots else entryAt s.blocks j := by
  unfold entryAt
  rw [hl.frameAt_land]
  split <;> rfl

theorem entryAt_eq (hl : Lands start s i b g changed slots) : entryAt s.blocks i = g.entry := by
  unfold entryAt frameAt
  rw [hl.block, Option.bind_some, hl.frame, Option.bind_some]

theorem outline (hl : Lands start s i b g changed slots) :
    SameOutline s.blocks (land s i b changed (g.enteredWith slots)).blocks := by
  unfold land
  dsimp only
  refine sameOutline_modify fun c hc => ?_
  cases Option.some.inj (hl.block.symm.trans hc)
  simp [Block.outline, hl.frame]

theorem waits (j : BlockId) (hj : j ∈ s.pending) : j ∈ (land s i b changed g).pending := by
  unfold land
  dsimp only
  split
  · exact List.mem_cons_of_mem _ hj
  · exact hj

/-- The block that the edge leads to, and the others as they were. -/
theorem block_land (hl : Lands start s i b g changed slots) {j : BlockId} {c : Block}
    (hc : (land s i b changed (g.enteredWith slots)).blocks[j]? = some c) :
    (j = i ∧ c = { b with frame := some (g.enteredWith slots), isPending := b.isPending || changed }) ∨
      j ≠ i ∧ s.blocks[j]? = some c := by
  simp only [land, Array.getElem?_modify] at hc
  split at hc
  · rename_i hij
    subst hij
    rw [hl.block] at hc
    exact .inl ⟨rfl, (Option.some.inj hc).symm⟩
  · rename_i hij
    exact .inr ⟨Ne.symm hij, hc⟩

theorem mem_pending_land {j : BlockId} (hj : j ≠ i) :
    j ∈ (land s i b changed g).pending ↔ j ∈ s.pending := by
  unfold land
  dsimp only
  split
  · simp [hj]
  · rfl

theorem mem_pending_land_self (hl : Lands start s i b g changed slots) :
    i ∈ (land s i b changed (g.enteredWith slots)).pending ↔ (b.isPending || changed) = true := by
  have hpending := hl.explored.pending i b hl.block
  unfold land
  dsimp only
  split
  · rename_i hq
    simp only [Bool.and_eq_true] at hq
    simp [hq.1]
  · rename_i hq
    rw [← hpending]
    cases hb : b.isPending <;> cases changed <;> simp_all

theorem reached (hl : Lands start s i b g changed slots) {j : BlockId}
    (hj : ReachedIn s.blocks j) :
    ReachedIn (land s i b changed (g.enteredWith slots)).blocks j := by
  unfold ReachedIn
  rw [hl.entryAt_land]
  split
  · rfl
  · exact hj

theorem reached_self (hl : Lands start s i b g changed slots) :
    ReachedIn (land s i b changed (g.enteredWith slots)).blocks i := by
  unfold ReachedIn
  rw [hl.entryAt_land, if_pos rfl]
  rfl

theorem reached_before (hl : Lands start s i b g changed slots) {j : BlockId} (hj : j ≠ i)
    (hreach : ReachedIn (land s i b changed (g.enteredWith slots)).blocks j) :
    ReachedIn s.blocks j := by
  unfold ReachedIn at hreach
  rwa [hl.entryAt_land, if_neg (Ne.symm hj)] at hreach

/-- A block that does not wait was entered with the same slots before. -/
theorem kept (hl : Lands start s i b g changed slots) (j : BlockId)
    (hj : j ∉ (land s i b changed (g.enteredWith slots)).pending) :
    frameAt (land s i b changed (g.enteredWith slots)).blocks j = frameAt s.blocks j := by
  rw [hl.frameAt_land]
  split
  · rename_i hij
    subst hij
    rw [hl.mem_pending_land_self, Bool.or_eq_true, not_or, Bool.not_eq_true] at hj
    rw [Frame.enteredWith_entry (hl.first (Bool.not_eq_true _ ▸ hj.2))]
    unfold frameAt
    rw [hl.block, Option.bind_some, hl.frame]
  · rfl

/-- **Following an edge keeps the invariant.** -/
theorem explored_land (hl : Lands start s i b g changed slots) :
    Explored start (land s i b changed (g.enteredWith slots)) := by
  have he := hl.explored
  refine ⟨he.outline.trans hl.outline, he.successor_lt, he.sameAs, ?_, ?_, ?_, ?_, ?_, ?_, ?_, ?_⟩
  · intro j hj
    rw [hl.frameAt_land]
    by_cases hij : i = j
    · exact ⟨_, if_pos hij⟩
    · rw [if_neg hij]
      exact he.framed j hj
  · unfold land
    dsimp only
    split
    · rename_i hq
      refine List.nodup_cons.2 ⟨fun hmem => ?_, he.nodup⟩
      have := (he.pending i b hl.block).2 hmem
      simp [this] at hq
    · exact he.nodup
  · intro j hj
    by_cases hij : j = i
    · exact hij ▸ hl.lt
    · exact he.pending_lt j ((mem_pending_land hij).1 hj)
  · intro j c hc
    rcases hl.block_land hc with ⟨rfl, rfl⟩ | ⟨hij, hc⟩
    · exact hl.mem_pending_land_self.symm
    · rw [mem_pending_land hij]
      exact he.pending j c hc
  · intro j hj
    by_cases hij : j = i
    · exact hij ▸ hl.reached_self
    · exact hl.reached (he.pending_reached j ((mem_pending_land hij).1 hj))
  · intro j hj
    by_cases hij : j = i
    · exact hij ▸ hl.reaches
    · exact he.reaches j (hl.reached_before hij hj)
  · intro j c hc
    rcases hl.block_land hc with ⟨rfl, rfl⟩ | ⟨hij, hc⟩
    · exact ⟨(he.flags j b hl.block).1, fun _ => hl.reached_self⟩
    · exact ⟨(he.flags j c hc).1, fun hq => hl.reached ((he.flags j c hc).2 hq)⟩
  · intro j c hc hreach hj
    rcases hl.block_land hc with ⟨rfl, rfl⟩ | ⟨hij, hc⟩
    · rw [hl.mem_pending_land_self, Bool.or_eq_true, not_or] at hj
      obtain ⟨hnot, hchanged⟩ := hj
      refine he.visited j b hl.block ?_ fun hmem => hnot ((he.pending j b hl.block).2 hmem)
      unfold ReachedIn
      rw [hl.entryAt_eq, hl.first (by simpa using hchanged)]
      rfl
    · exact he.visited j c hc (hl.reached_before hij hreach)
        fun hmem => hj ((mem_pending_land hij).2 hmem)

end Lands

/-- What following edges does to what has been reached and to what waits. -/
structure Spreads (s s' : Inference) : Prop where
  reached : ∀ i, ReachedIn s.blocks i → ReachedIn s'.blocks i
  kept : ∀ i, i ∉ s'.pending → frameAt s'.blocks i = frameAt s.blocks i
  waits : ∀ i ∈ s.pending, i ∈ s'.pending

theorem Spreads.refl (s : Inference) : Spreads s s := ⟨fun _ => id, fun _ _ => rfl, fun _ => id⟩

theorem Spreads.trans (hs : Spreads s s') (hs' : Spreads s' s'') : Spreads s s'' :=
  ⟨fun i hi => hs'.reached i (hs.reached i hi),
    fun i hi => (hs'.kept i hi).trans (hs.kept i fun hmem => hi (hs'.waits i hmem)),
    fun i hi => hs'.waits i (hs.waits i hi)⟩

theorem Lands.spreads {i : BlockId} {b : Block} {g : Frame} {changed : Bool} {slots : Slots}
    (hl : Lands start s i b g changed slots) :
    Spreads s (land s i b changed (g.enteredWith slots)) :=
  ⟨fun _ => hl.reached, hl.kept, waits⟩

/-- The block that an edge leads to, and its frame. -/
theorem Explored.target (hx : Explored start s) (he : e.successor < start.size) :
    ∃ b g, targetOf start e < start.size ∧ s.blocks[targetOf start e]? = some b ∧
      b.frame = some g := by
  have hlt : targetOf start e < start.size := follow_lt hx.sameAs _ he
  obtain ⟨g, hg⟩ := hx.framed _ hlt
  obtain ⟨b, hb, hbg⟩ := Option.bind_eq_some_iff.1 hg
  exact ⟨b, g, hlt, hb, hbg⟩

/-- **Following an edge** reaches the block that it leads to. -/
theorem Explored.follow (hx : Explored start s) (he : e.successor < start.size)
    (hreach : Reaches start (targetOf start e))
    (hrun : Returns (Inference.follow context f e s) T s' T') :
    Explored start s' ∧ Spreads s s' ∧ ReachedIn s'.blocks (targetOf start e) := by
  obtain ⟨b, g, hlt, hb, hg⟩ := hx.target he
  have htarget : targetOf s.blocks e = targetOf start e := hx.outline.targetOf_eq e
  obtain ⟨rm, hm, hs'⟩ := follow_cases (htarget ▸ hb) hg hrun
  rcases rm with err | ⟨changed, g'⟩
  · exact nomatch hs'
  · obtain ⟨slots, rfl, hfirst⟩ := Frame.mergeInto_enters hm
    have hl : Lands start s (targetOf start e) b g changed slots :=
      ⟨hx, hlt, hb, hg, hreach, hfirst⟩
    cases Except.ok.inj hs'
    rw [htarget]
    exact ⟨hl.explored_land, hl.spreads, hl.reached_self⟩

/-! ## 4. Visiting a block -/

/-- What is marked when a block is visited. -/
def markVisited (b : Block) : Block :=
  { b with isPending := false, isReachable := true, isWritten := b.isWritten || b.isTarget }

variable {i : BlockId} {pending : List BlockId} {blocks : Array Block} {greatest : Nat}

theorem frameAt_markVisited (j : BlockId) :
    frameAt (blocks.modify i markVisited) j = frameAt blocks j :=
  frameAt_modify_flags (f := markVisited) (fun _ => rfl) j

theorem entryAt_markVisited (j : BlockId) :
    entryAt (blocks.modify i markVisited) j = entryAt blocks j := by
  unfold entryAt
  rw [frameAt_markVisited]

theorem outline_markVisited : SameOutline blocks (blocks.modify i markVisited) :=
  sameOutline_modify fun _ _ => rfl

/-- A block is marked, and then its edges are followed. -/
theorem visit_eq {b : Block} {f : Frame} (hb : blocks[i]? = some b) (hf : b.frame = some f) :
    Inference.visit context i ⟨blocks, pending, greatest⟩ =
      b.edges.toList.foldlM (fun s e => Inference.follow context f e s)
        ⟨blocks.modify i markVisited, pending, max greatest
          (Int32.ofNat (f.entrySlots.stack.size + f.peak)).toNatClampNeg⟩ := by
  obtain ⟨position, isTarget, isWritten, isReachable, isPending, isPlaced, frame, next, edges,
    entryHeight, peak, sameAs⟩ := b
  cases hf
  unfold Inference.visit
  simp only [Array.getElem?_modify, if_pos, hb, Option.map_some]
  rfl

/-- Marking the block that is taken from what is pending. -/
theorem Explored.markVisited (hx : Explored start ⟨blocks, i :: pending, greatest⟩)
    (greatest' : Nat) : Explored start ⟨blocks.modify i markVisited, pending, greatest'⟩ := by
  have hreached : ∀ j, ReachedIn (blocks.modify i BlockGraph.markVisited) j ↔ ReachedIn blocks j := by
    intro j
    unfold ReachedIn
    rw [entryAt_markVisited]
  have hself : ReachedIn blocks i := hx.pending_reached i List.mem_cons_self
  obtain ⟨hi, hnodup⟩ := List.nodup_cons.1 hx.nodup
  have hblock : ∀ (j : BlockId) c, (blocks.modify i BlockGraph.markVisited)[j]? = some c →
      (j = i ∧ ∃ b, blocks[i]? = some b ∧ c = BlockGraph.markVisited b) ∨
        j ≠ i ∧ blocks[j]? = some c := by
    intro j c hc
    rw [Array.getElem?_modify] at hc
    split at hc
    · rename_i hij
      subst hij
      obtain ⟨b, hb', rfl⟩ := Option.map_eq_some_iff.1 hc
      exact .inl ⟨rfl, b, hb', rfl⟩
    · rename_i hij
      exact .inr ⟨Ne.symm hij, hc⟩
  have hmem : ∀ j, j ≠ i → (j ∈ i :: pending ↔ j ∈ pending) := fun j hj => by simp [hj]
  refine ⟨hx.outline.trans outline_markVisited, hx.successor_lt, hx.sameAs,
    fun j hj => by rw [frameAt_markVisited]; exact hx.framed j hj, hnodup,
    fun j hj => hx.pending_lt j (List.mem_cons_of_mem _ hj), ?_,
    fun j hj => (hreached j).2 (hx.pending_reached j (List.mem_cons_of_mem _ hj)),
    fun j hj => hx.reaches j ((hreached j).1 hj), ?_, ?_⟩
  · intro j c hc
    rcases hblock j c hc with ⟨rfl, b, -, rfl⟩ | ⟨hj, hc⟩
    · exact ⟨fun h => (by cases h), fun h => absurd h hi⟩
    · rw [hx.pending j c hc]
      exact hmem j hj
  · intro j c hc
    rcases hblock j c hc with ⟨rfl, b, hb', rfl⟩ | ⟨hj, hc⟩
    · refine ⟨fun h => ?_, fun _ => (hreached j).2 hself⟩
      rcases Bool.or_eq_true_iff.1 h with hw | ht
      · exact (hx.flags j b hb').1 hw
      · exact ht
    · exact ⟨(hx.flags j c hc).1, fun h => (hreached j).2 ((hx.flags j c hc).2 h)⟩
  · intro j c hc hreach hj
    rcases hblock j c hc with ⟨rfl, b, -, rfl⟩ | ⟨hij, hc⟩
    · exact ⟨rfl, fun ht => by simp only [BlockGraph.markVisited, Bool.or_eq_true]; exact .inr ht⟩
    · exact hx.visited j c hc ((hreached j).1 hreach) fun h => hj ((hmem j hij).1 h)

/-- Following several edges reaches all blocks that they lead to. -/
theorem Explored.followAll {edges : List Edge} :
    ∀ {s s' : Inference} {T T' : TypeTable}, Explored start s →
      (∀ e ∈ edges, e.successor < start.size ∧ Reaches start (targetOf start e)) →
      Returns (edges.foldlM (fun s e => Inference.follow context f e s) s) T s' T' →
      Explored start s' ∧ Spreads s s' ∧ ∀ e ∈ edges, ReachedIn s'.blocks (targetOf start e) := by
  induction edges with
  | nil =>
    intro s s' T T' hx _ hrun
    obtain ⟨rfl, -⟩ := returns_pure.1 hrun
    exact ⟨hx, .refl s, fun e he => absurd he List.not_mem_nil⟩
  | cons e edges ih =>
    intro s s' T T' hx hedges hrun
    rw [List.foldlM_cons] at hrun
    obtain ⟨s₁, T₁, hfollow, hrest⟩ := returns_bind.1 hrun
    obtain ⟨he, hreach⟩ := hedges e List.mem_cons_self
    obtain ⟨hx₁, hs₁, htarget⟩ := hx.follow he hreach hfollow
    obtain ⟨hx', hs', hall⟩ :=
      ih hx₁ (fun e' he' => hedges e' (List.mem_cons_of_mem _ he')) hrest
    refine ⟨hx', hs₁.trans hs', fun e' he' => ?_⟩
    rcases List.mem_cons.1 he' with rfl | he'
    · exact hs'.reached _ htarget
    · exact hall e' he'

/-- **What holds when a block is to be visited**: an edge of a block that does not wait leads to a block
that has been reached. -/
structure Complete (start : Array Block) (s : Inference) : Prop extends Explored start s where
  entry : ReachedIn s.blocks 0
  followed : ∀ i, ReachedIn s.blocks i → i ∉ s.pending →
    ∀ e ∈ edgesAt start i, ReachedIn s.blocks (targetOf start e)

/-- **Visiting a block** keeps what is complete. -/
theorem Complete.visit (hc : Complete start ⟨blocks, i :: pending, greatest⟩)
    (hrun : Returns (Inference.visit context i ⟨blocks, pending, greatest⟩) T s' T') :
    Complete start s' := by
  have hi : ReachedIn blocks i := hc.pending_reached i List.mem_cons_self
  obtain ⟨f, hf⟩ := hc.framed i (hc.outline.size_eq ▸ hi.lt)
  obtain ⟨b, hb, hbf⟩ := Option.bind_eq_some_iff.1 hf
  rw [visit_eq hb hbf] at hrun
  have hedges : edgesAt start i = b.edges.toList := by
    rw [← hc.outline.edgesAt_eq, edgesAt, hb]
    rfl
  obtain ⟨hx, hs, hall⟩ := (hc.toExplored.markVisited _).followAll (fun e he =>
    ⟨hc.successor_lt i e (hedges ▸ he), .edge (hc.reaches i hi) (hedges ▸ he)⟩) hrun
  have hold : ∀ j, ReachedIn blocks j → ReachedIn s'.blocks j := fun j hj =>
    hs.reached j (by unfold ReachedIn; rwa [entryAt_markVisited])
  refine ⟨hx, hold 0 hc.entry, fun j hj hmem e he => ?_⟩
  by_cases hij : j = i
  · subst hij
    exact hall e (hedges ▸ he)
  · have hbefore : ReachedIn blocks j := by
      unfold ReachedIn entryAt at hj ⊢
      rwa [hs.kept j hmem, frameAt_markVisited] at hj
    refine hold _ (hc.followed j hbefore (fun hmem' => ?_) e he)
    exact hmem (hs.waits j ((List.mem_cons.1 hmem').resolve_left hij))

/-- **Inference** keeps what is complete, wherever it stops. -/
theorem Complete.run {limit : Nat} :
    ∀ {s : Inference} {T : TypeTable}, Complete start s →
      Returns (Inference.run context limit s) T s' T' → Complete start s' := by
  induction limit with
  | zero =>
    intro s T hc hrun
    obtain ⟨rfl, -⟩ := returns_pure.1 hrun
    exact hc
  | succ limit ih =>
    rintro ⟨blocks, pending, greatest⟩ T hc hrun
    cases pending with
    | nil =>
      obtain ⟨rfl, -⟩ := returns_pure.1 hrun
      exact hc
    | cons i pending =>
      obtain ⟨s₁, T₁, hvisit, hrest⟩ := returns_bind.1 hrun
      exact ih (hc.visit hvisit) hrest

/-! ## 5. When nothing waits -/

/-- **The blocks that have been reached are those that can be reached.** -/
theorem Complete.reached_iff (hc : Complete start s) (hdone : s.pending = []) :
    ReachedIn s.blocks i ↔ Reaches start i := by
  refine ⟨hc.reaches i, fun hi => ?_⟩
  induction hi with
  | entry => exact hc.entry
  | edge _ he ih => exact hc.followed _ ih (hdone ▸ List.not_mem_nil) _ he

/-- **The blocks that are marked are the targets among those that can be reached.** -/
theorem Complete.isWritten_iff (hc : Complete start s) (hdone : s.pending = []) {b : Block}
    (hb : s.blocks[i]? = some b) :
    b.isWritten = true ↔ Reaches start i ∧ b.isTarget = true := by
  constructor
  · intro hw
    exact ⟨hc.reaches i ((hc.flags i b hb).2 (.inl hw)), (hc.flags i b hb).1 hw⟩
  · rintro ⟨hreach, ht⟩
    exact (hc.visited i b hb ((hc.reached_iff hdone).2 hreach) (hdone ▸ List.not_mem_nil)).2 ht

/-- Inference lets the table of types only grow, whatever the hierarchy is like. -/
theorem leads_run (context : MethodContext) (limit : Nat) (s : Inference) :
    Leads (TypeTable.Later context.hierarchy) (Inference.run context limit s) := by
  have hfollow : ∀ (f : Frame) (e : Edge) (s : Inference),
      Leads (TypeTable.Later context.hierarchy) (Inference.follow context f e s) := by
    rintro f e ⟨blocks, pending, greatest⟩
    unfold Inference.follow
    dsimp only
    split
    · refine (Frame.leads_mergeInto _ _ _ _).bind fun m => ?_
      split
      · exact .pure _
      · exact .pure _
    · exact .pure _
  have hvisit : ∀ (i : BlockId) (s : Inference),
      Leads (TypeTable.Later context.hierarchy) (Inference.visit context i s) := by
    rintro i ⟨blocks, pending, greatest⟩
    unfold Inference.visit
    dsimp only
    split
    · exact Leads.foldlM (fun s e => hfollow _ e s) _ _
    · exact .pure _
  induction limit generalizing s with
  | zero => exact .pure s
  | succ limit ih =>
    obtain ⟨blocks, pending, greatest⟩ := s
    cases pending with
    | nil => exact .pure _
    | cons i pending => exact (hvisit i _).bind fun s => ih s

end BlockGraph

end ClassFile
