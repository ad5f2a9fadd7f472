/-
# The blocks of a graph while it is built

A graph with frames is in order at any time (`build_arranged`), also behind operations that have
failed, as long as what is reported comes in the order of the code and no label is placed twice.
The placed blocks are met along `next`, with ascending positions; what is only another name leads to
one of them in one step, at its own position; and so do the labels that have been placed.

What jumps and switches lead to is marked as a target.  The mark is set on the block that stands for
the label at that time.  When that block becomes another name later, the mark goes over to the one that
stands for it from then on.  So a graph that grows steadily (`Steady`) loses no mark, whichever of the
two comes first.
-/
import ClassFile.Proofs.BlockGraph.Ends
import ClassFile.Proofs.BlockGraph.Guarded

namespace ClassFile

/-- Places of which each leads to the next one, and the last one nowhere, are met by a walk. -/
theorem Walk.of_isChain {α : Type} {next : α → Option α} {a : α} {rest : List α}
    (hlinked : (a :: rest).IsChain fun a b => next a = some b)
    (hends : ∀ b, (a :: rest).getLast? = some b → next b = none) :
    Walk next (some a) (a :: rest) := by
  induction rest generalizing a with
  | nil => exact .step (hends a rfl ▸ .done)
  | cons b rest ih =>
    obtain ⟨hab, hrest⟩ := List.isChain_cons_cons.1 hlinked
    exact .step (hab ▸ ih hrest fun c hc => hends c (by rwa [List.getLast?_cons_cons]))

namespace BlockGraph

variable {h : Hierarchy} {g g' g'' : BlockGraph} {T T' : TypeTable} {i j k : BlockId} {l : Label}
  {placed named : Label → Prop} {p position : Nat}

/-! ## 1. Steady growth -/

/-- For each block that is only another name there is one that has its place, at the same position. -/
def Represented (g : BlockGraph) : Prop :=
  ∀ i k, aliasAt g.blocks i = some k → g.Passed k ∧ g.positionOf k = g.positionOf i

/-- **The second graph has grown out of the first one without losing a mark.**  A block that is another
name in the second one was the same in the first one, or its mark has gone over. -/
structure Steady (g g' : BlockGraph) : Prop where
  labels : ∀ l i, g.labels.get? l = some i → g'.labels.get? l = some i
  aliases : ∀ i k, aliasAt g.blocks i = some k → aliasAt g'.blocks i = some k
  passed : ∀ k, g.Passed k → g'.Passed k ∧ g'.positionOf k = g.positionOf k
  marks : ∀ i, isTargetAt g.blocks i → isTargetAt g'.blocks i
  origin : ∀ i k, aliasAt g'.blocks i = some k →
    aliasAt g.blocks i = some k ∧ g'.positionOf i = g.positionOf i ∨
      g'.Passed k ∧ g'.positionOf k = g'.positionOf i ∧
        (isTargetAt g.blocks i → isTargetAt g'.blocks k)

theorem Steady.refl (g : BlockGraph) : Steady g g :=
  ⟨fun _ _ => id, fun _ _ => id, fun _ hk => ⟨hk, rfl⟩, fun _ => id, fun _ _ hi => .inl ⟨hi, rfl⟩⟩

theorem Steady.trans (h : Steady g g') (h' : Steady g' g'') : Steady g g'' where
  labels l i hl := h'.labels l i (h.labels l i hl)
  aliases i k hi := h'.aliases i k (h.aliases i k hi)
  passed k hk := by
    obtain ⟨hk', hpos⟩ := h.passed k hk
    obtain ⟨hk'', hpos'⟩ := h'.passed k hk'
    exact ⟨hk'', hpos'.trans hpos⟩
  marks i hi := h'.marks i (h.marks i hi)
  origin i k hi := by
    rcases h'.origin i k hi with ⟨hi', hpos'⟩ | ⟨hk, hpos', hmark⟩
    · rcases h.origin i k hi' with ⟨hi, hpos⟩ | ⟨hk, hpos, hmark⟩
      · exact .inl ⟨hi, hpos'.trans hpos⟩
      · obtain ⟨hk', hposk⟩ := h'.passed k hk
        exact .inr ⟨hk', (hposk.trans hpos).trans hpos'.symm, fun hi => h'.marks k (hmark hi)⟩
    · exact .inr ⟨hk, hpos', fun hi => hmark (h.marks i hi)⟩

theorem Steady.represented (h : Steady g g') (hg : g.Represented) : g'.Represented := by
  intro i k hi
  rcases h.origin i k hi with ⟨hi', hposi⟩ | ⟨hk, hpos, -⟩
  · obtain ⟨hk, hpos⟩ := hg i k hi'
    obtain ⟨hk', hposk⟩ := h.passed k hk
    exact ⟨hk', (hposk.trans hpos).trans hposi.symm⟩
  · exact ⟨hk, hpos⟩

theorem first_of_alias (hg : g.Represented) (hi : aliasAt g.blocks i = some k) : g.first i = k :=
  follow_of_alias hi (hg i k hi).1.first _

theorem first_of_none (hi : aliasAt g.blocks i = none) : g.first i = i := follow_of_first hi _

/-- **What stands for a marked block is marked**, also when another block stands for it now. -/
theorem Steady.first (h : Steady g g') (hg : g.Represented) (hi : isTargetAt g.blocks (g.first i)) :
    isTargetAt g'.blocks (g'.first i) := by
  have hg' := h.represented hg
  cases halias : aliasAt g.blocks i with
  | some k =>
    rw [first_of_alias hg halias] at hi
    rw [first_of_alias hg' (h.aliases i k halias)]
    exact h.marks k hi
  | none =>
    rw [first_of_none halias] at hi
    cases halias' : aliasAt g'.blocks i with
    | none =>
      rw [first_of_none halias']
      exact h.marks i hi
    | some k =>
      rw [first_of_alias hg' halias']
      rcases h.origin i k halias' with ⟨hold, -⟩ | ⟨-, -, hmark⟩
      · exact nomatch halias.symm.trans hold
      · exact hmark hi

theorem Steady.stands (h : Steady g g') (hi : g.StandsAt i k position) :
    g'.StandsAt i k position := by
  obtain ⟨hk, hpos⟩ := h.passed k hi.passed
  exact ⟨hk, hpos.trans hi.position, hi.stands.imp_right (h.aliases i k)⟩

theorem Steady.sited (h : Steady g g') (hl : g.Sited l k position) : g'.Sited l k position := by
  obtain ⟨i, hi, hstands⟩ := hl
  exact ⟨i, h.labels l i hi, h.stands hstands⟩

/-- The block that stands for a label is marked. -/
def Flagged (g : BlockGraph) (l : Label) : Prop :=
  ∃ i, g.labels.get? l = some i ∧ isTargetAt g.blocks (g.first i)

theorem Steady.flagged (h : Steady g g') (hg : g.Represented) (hl : g.Flagged l) : g'.Flagged l := by
  obtain ⟨i, hi, hmark⟩ := hl
  exact ⟨i, h.labels l i hi, h.first hg hmark⟩

/-! ## 2. Parts of operations -/

theorem isTargetAt_onBlock (g : BlockGraph) (i : BlockId) {f : Block → Block}
    (hf : ∀ b, b.isTarget = true → (f b).isTarget = true) (hj : isTargetAt g.blocks j) :
    isTargetAt (g.onBlock i f).blocks j := by
  obtain ⟨b, hb, ht⟩ := hj
  unfold isTargetAt
  rw [getElem?_onBlock, hb]
  split
  · exact ⟨f b, rfl, hf b ht⟩
  · exact ⟨b, rfl, ht⟩

/-- A change that leaves all blocks in their places, and all marks. -/
theorem steady_of_sameShape (hshape : SameShape g.blocks g'.blocks) (hlast : g'.last = g.last)
    (hlabels : ∀ l i, g.labels.get? l = some i → g'.labels.get? l = some i)
    (hmarks : ∀ i, isTargetAt g.blocks i → isTargetAt g'.blocks i) : Steady g g' where
  labels := hlabels
  aliases i k hi := (hshape.sameAs i).trans hi
  passed k hk := by
    refine ⟨⟨Nat.lt_of_lt_of_eq hk.lt hshape.size.symm, (hshape.sameAs k).trans hk.first, ?_⟩,
      hshape.positionOf_eq k⟩
    rw [hlast, hshape.next]
    exact hk.placed
  marks := hmarks
  origin i k hi := .inl ⟨(hshape.sameAs i).symm.trans hi, hshape.positionOf_eq i⟩

theorem steady_onBlock (g : BlockGraph) (i : BlockId) {f : Block → Block}
    (hf : ∀ b, (f b).position = b.position ∧ (f b).next = b.next ∧ (f b).sameAs = b.sameAs)
    (hmark : ∀ b, b.isTarget = true → (f b).isTarget = true) : Steady g (g.onBlock i f) :=
  steady_of_sameShape (sameShape_onBlock g i hf) rfl (fun _ _ => id) fun _ =>
    isTargetAt_onBlock g i hmark

theorem steady_addEdge (g : BlockGraph) (kind : EdgeKind) (i : BlockId) :
    Steady g (g.addEdge kind i) := by
  unfold BlockGraph.addEdge
  split
  · exact steady_onBlock g _ (fun _ => ⟨rfl, rfl, rfl⟩) fun _ => id
  · exact .refl g

theorem steady_withCurrent (g : BlockGraph) (current : Option BlockId) :
    Steady g { g with current := current } :=
  steady_of_sameShape ⟨rfl, fun _ => rfl, fun _ => rfl, fun _ => rfl⟩ rfl (fun _ _ => id) fun _ => id

theorem WellBuilt.steady_newBlock (hg : g.WellBuilt T) : Steady g g.newBlock.2 := by
  obtain ⟨honward, -⟩ := hg.onward_newBlock
  have hblocks := newBlock_blocks hg.mode
  have hold : ∀ {j}, j < g.blocks.size → g.newBlock.2.blocks[j]? = g.blocks[j]? := by
    intro j hj
    rw [hblocks, Array.getElem?_push, if_neg (Nat.ne_of_lt hj)]
  refine ⟨honward.labels, honward.aliases, honward.passed, fun i hi => ?_, fun i k hi => .inl ?_⟩
  · obtain ⟨b, hb, ht⟩ := hi
    exact ⟨b, (hold (Array.getElem?_eq_some_iff.1 hb).1).trans hb, ht⟩
  · by_cases hlt : i < g.blocks.size
    · rw [aliasAt, hold hlt] at hi
      rw [positionOf, positionOf, hold hlt]
      exact ⟨hi, rfl⟩
    · -- The new block is not another name, and behind it there is none.
      rw [aliasAt, hblocks, Array.getElem?_push] at hi
      split at hi
      · cases hi
      · rw [Array.getElem?_eq_none (Nat.le_of_not_lt hlt)] at hi
        cases hi

/-- A fresh block is no other name yet, so it can be given any position. -/
theorem Fresh.steady_place (hi : g.Fresh i) (position : Nat) : Steady g (g.place i position) := by
  obtain ⟨honward, -, -⟩ := hi.place position
  have hsame : ∀ j, aliasAt (g.place i position).blocks j = aliasAt g.blocks j :=
    bind_onBlock g i fun _ => rfl
  refine ⟨honward.labels, honward.aliases, honward.passed,
    fun j => isTargetAt_onBlock g i fun _ => id, fun j k hj => .inl ?_⟩
  rw [hsame] at hj
  refine ⟨hj, positionOf_onBlock_ne g ?_ _⟩
  rintro rfl
  exact nomatch hi.first.symm.trans hj

/-- **A fresh block becomes another name** for one at its position, and its mark goes over. -/
theorem Fresh.steady_makeAlias (hi : g.Fresh i) (hk : g.Passed k)
    (hpos : g.positionOf i = g.positionOf k) : Steady g (g.makeAlias i k) := by
  obtain ⟨honward, halias⟩ := hi.makeAlias hk
  have heq : g.makeAlias i k = (g.onBlock k fun b => { b with
      isTarget := b.isTarget || (g.blocks[i]?.map Block.isTarget).getD false }).onBlock i
      fun b => { b with sameAs := some k } := if_neg (hk.ne hi).symm
  have hposition : ∀ j, (g.makeAlias i k).positionOf j = g.positionOf j := by
    intro j
    rw [heq]
    refine (positionOf_onBlock _ i ?_ j).trans (positionOf_onBlock g k ?_ j) <;> exact fun _ => rfl
  have hother : ∀ j, j ≠ i → aliasAt (g.makeAlias i k).blocks j = aliasAt g.blocks j := by
    intro j hj
    rw [heq, aliasAt, getElem?_onBlock, if_neg (Ne.symm hj)]
    refine bind_onBlock g k ?_ j
    exact fun _ => rfl
  have hover : isTargetAt g.blocks i → isTargetAt (g.makeAlias i k).blocks k := by
    rintro ⟨b, hb, ht⟩
    rw [heq]
    refine isTargetAt_onBlock _ i (fun _ => id) ?_
    unfold isTargetAt
    rw [getElem?_onBlock, if_pos rfl, Array.getElem?_eq_getElem hk.lt]
    exact ⟨_, rfl, by simp [hb, ht]⟩
  refine ⟨honward.labels, honward.aliases, honward.passed, fun j hj => ?_, fun j k' hj => ?_⟩
  · rw [heq]
    exact isTargetAt_onBlock _ i (fun _ => id)
      (isTargetAt_onBlock g k (fun b hb => by simp [hb]) hj)
  · by_cases hij : j = i
    · subst hij
      obtain rfl := Option.some.inj (halias.symm.trans hj)
      refine .inr ⟨(honward.passed k hk).1, ?_, hover⟩
      rw [hposition, hposition, hpos]
    · exact .inl ⟨(hother j hij).symm.trans hj, hposition j⟩

/-- A fresh block becomes the last one of the chain. -/
theorem Fresh.steady_append (hi : g.Fresh i) (hlast : g.last < g.blocks.size) :
    Steady g (g.append i) := by
  obtain ⟨honward, -⟩ := hi.append hlast
  have hsame : ∀ j, aliasAt (g.append i).blocks j = aliasAt g.blocks j :=
    bind_onBlock g g.last fun _ => rfl
  have hposition : ∀ j, (g.append i).positionOf j = g.positionOf j :=
    positionOf_onBlock g g.last fun _ => rfl
  exact ⟨honward.labels, honward.aliases, honward.passed,
    fun j => isTargetAt_onBlock g g.last fun _ => id,
    fun j k hj => .inl ⟨(hsame j).symm.trans hj, hposition j⟩⟩

/-! ## 3. Starting and ending blocks -/

theorem Fresh.steady_enter (hi : g.Fresh i) (hat : g.positionOf i = position)
    (hlast : g.Passed g.last) : Steady g (g.enter i position) := by
  unfold BlockGraph.enter
  dsimp only
  split
  · rename_i hsame
    exact (hi.steady_makeAlias hlast (hat.trans hsame.2.symm)).trans (steady_withCurrent _ _)
  · have hi' : Fresh { g with current := some i } i := hi.of_sameShape
      ⟨rfl, fun _ => rfl, fun _ => rfl, fun _ => rfl⟩ rfl
    exact (steady_withCurrent g (some i)).trans (hi'.steady_append hlast.lt)

theorem Fresh.steady_startBlock (hi : g.Fresh i) (hmode : g.mode = .frames) (hg : g.Led)
    (position : Nat) : Steady g (g.startBlock i position) := by
  obtain ⟨honward, hi₁, hat⟩ := hi.place position
  have hplace := hi.steady_place position
  have hg₁ : (g.place i position).Led := hg.grown honward.toGrown rfl rfl
  have hmode₁ : (g.place i position).mode = .frames := hmode
  unfold BlockGraph.startBlock
  generalize g.place i position = g₁ at hplace hi₁ hat hg₁ hmode₁
  simp only [hmode₁]
  refine hplace.trans ?_
  split
  · rename_i c hcurrent
    obtain rfl := hg₁.current c hcurrent
    split
    · rename_i hsame
      exact hi₁.steady_makeAlias hg₁.passed (hat.trans hsame.symm)
    · have hedge := steady_addEdge g₁ .normal i
      have hpassed := (hedge.passed _ hg₁.passed).1
      rw [← last_addEdge g₁ .normal i] at hpassed
      exact hedge.trans ((hi₁.addEdge .normal i).steady_enter
        ((positionOf_addEdge g₁ .normal i i).trans hat) hpassed)
  · exact hi₁.steady_enter hat hg₁.passed

theorem WellBuilt.steady_endBlock (hg : g.WellBuilt T) (stop : Nat) : Steady g (g.endBlock stop) := by
  obtain ⟨-, hi⟩ := hg.onward_newBlock
  obtain ⟨-, hi', -⟩ := hi.place stop
  have hlast : g.last < (g.newBlock.2.place g.blocks.size stop).blocks.size := by
    rw [size_place, newBlock_blocks hg.mode, Array.size_push]
    exact Nat.lt_succ_of_lt hg.last_lt
  unfold BlockGraph.endBlock
  rw [hg.mode]
  exact ((hg.steady_newBlock.trans (hi.steady_place stop)).trans (hi'.steady_append hlast)).trans
    (steady_withCurrent _ none)

/-- **A block starts without a label**, and one of the chain is at that position. -/
theorem WellBuilt.steady_startNew (hg : g.WellBuilt T) (hled : g.Led) {f : Block → Block}
    (hf : ∀ b, (f b).position = b.position ∧ (f b).next = b.next ∧ (f b).sameAs = b.sameAs)
    (hframe : ∀ b, (f b).frame = b.frame) (hmark : ∀ b, b.isTarget = true → (f b).isTarget = true)
    (position : Nat) :
    Steady g ((g.newBlock.2.onBlock g.newBlock.1 f).startBlock g.newBlock.1 position) ∧
      ∃ k, ((g.newBlock.2.onBlock g.newBlock.1 f).startBlock g.newBlock.1 position).StandsAt
        g.newBlock.1 k position := by
  obtain ⟨hnew, hi⟩ := hg.onward_newBlock
  have hchange := onward_onBlock g.newBlock.2 g.newBlock.1 hf hframe
  have hi' := hi.of_sameShape (sameShape_onBlock g.newBlock.2 g.newBlock.1 hf) rfl
  have hled' := hled.grown (hnew.trans hchange).toGrown rfl rfl
  obtain ⟨-, hstands, -⟩ := hi'.startBlock hg.mode hled' position
  exact ⟨(hg.steady_newBlock.trans (steady_onBlock _ _ hf hmark)).trans
    (hi'.steady_startBlock hg.mode hled' position), hstands⟩

theorem WellBuilt.steady_splitAt (hg : g.WellBuilt T) (hled : g.Led) (position : Nat) :
    Steady g (CodeWriter.splitAt position g) ∧
      ∃ i k, (CodeWriter.splitAt position g).StandsAt i k position := by
  have hstart := hg.steady_startNew hled (f := id) (fun _ => ⟨rfl, rfl, rfl⟩) (fun _ => rfl)
    (fun _ => id) position
  rw [onBlock_id] at hstart
  exact ⟨hstart.1, _, hstart.2⟩

theorem WellBuilt.steady_fallThrough (hg : g.WellBuilt T) (hled : g.Led) (stop : Nat)
    (isTarget : Bool) : Steady g (g.fallThrough stop isTarget) := by
  unfold BlockGraph.fallThrough
  cases isTarget with
  | false => exact (hg.steady_splitAt hled stop).1
  | true =>
    exact (hg.steady_startNew hled (f := fun b => { b with isTarget := true })
      (fun _ => ⟨rfl, rfl, rfl⟩) (fun _ => rfl) (fun _ _ => rfl) stop).1

/-! ## 4. Labels -/

theorem WellBuilt.steady_blockOf (hg : g.WellBuilt T) (l : Label) : Steady g (g.blockOf l).2 := by
  have hlabels := (hg.onward_blockOf l).1.labels
  rcases hl : g.blockOf l with ⟨i, g'⟩
  rw [hl] at hlabels
  unfold BlockGraph.blockOf at hl
  split at hl
  · cases hl
    exact .refl g
  · cases hl
    exact hg.steady_newBlock.trans (steady_of_sameShape
      ⟨rfl, fun _ => rfl, fun _ => rfl, fun _ => rfl⟩ rfl hlabels fun _ => id)

theorem Charted.steady_label (h : Charted placed named p g) (hg : g.WellBuilt T) (hl : named l)
    (hunplaced : ¬ placed l) (position : Nat) : Steady g (g.label l position) := by
  obtain ⟨h', hget⟩ := h.blockOf hg hl
  exact (hg.steady_blockOf l).trans
    ((h'.fresh hget hunplaced).steady_startBlock (hg.blockOf l).1.mode h'.led position)

theorem WellBuilt.steady_addHandler (hg : g.WellBuilt T) (r : HandlerRange) :
    Steady g (g.addHandler r) := by
  obtain ⟨hg₁, -⟩ := hg.blockOf r.start
  obtain ⟨hg₂, -⟩ := hg₁.blockOf r.stop
  have hmention : Steady g (g.mention r) :=
    ((hg.steady_blockOf _).trans (hg₁.steady_blockOf _)).trans (hg₂.steady_blockOf _)
  rw [addHandler_eq]
  exact hmention.trans (steady_of_sameShape ⟨rfl, fun _ => rfl, fun _ => rfl, fun _ => rfl⟩ rfl
    (fun _ _ => id) fun _ => id)

/-- **What a jump leads to is marked.** -/
theorem Charted.steady_leadTo (h : Charted placed named p g) (hg : g.WellBuilt T) (hl : named l)
    (hrep : g.Represented) : Steady g (g.leadTo l) ∧ (g.leadTo l).Flagged l := by
  obtain ⟨hg', hlt⟩ := hg.blockOf l
  obtain ⟨-, hget⟩ := h.blockOf hg hl
  have hstep := hg.steady_blockOf l
  have hmark : Steady (g.blockOf l).2 (g.target l).2 :=
    steady_onBlock _ _ (fun _ => ⟨rfl, rfl, rfl⟩) fun _ _ => rfl
  have hflagged : (g.target l).2.Flagged l := by
    have hfirst : (g.target l).2.first (g.blockOf l).1 = (g.blockOf l).2.first (g.blockOf l).1 := by
      have hlines : SameLines (g.blockOf l).2 (g.target l).2 :=
        sameLines_onBlock _ _ (fun _ => ⟨rfl, rfl, rfl⟩) fun _ => rfl
      have heq := hlines.firstOf_eq l
      rwa [firstOf, firstOf, hlines.labels, hget, Option.getD_some] at heq
    refine ⟨(g.blockOf l).1, hget, ?_⟩
    rw [hfirst]
    unfold isTargetAt BlockGraph.target
    rw [getElem?_onBlock, if_pos rfl, Array.getElem?_eq_getElem (hg'.first_lt hlt)]
    exact ⟨_, rfl, rfl⟩
  have hedge : Steady (g.target l).2 (g.leadTo l) := steady_addEdge _ _ _
  exact ⟨(hstep.trans hmark).trans hedge,
    hedge.flagged ((hstep.trans hmark).represented hrep) hflagged⟩

/-! ## 5. Instructions -/

theorem Charted.steady_leadToAll (h : Charted placed (fun _ => True) p g) (hg : g.WellBuilt T)
    (hrep : g.Represented) (ls : List Label) :
    Steady g (ls.foldl (fun g l => g.leadTo l) g) ∧
      ∀ l ∈ ls, (ls.foldl (fun g l => g.leadTo l) g).Flagged l := by
  induction ls generalizing g with
  | nil => exact ⟨.refl g, nofun⟩
  | cons l ls ih =>
    obtain ⟨hstep, hflag⟩ := h.steady_leadTo hg trivial hrep
    obtain ⟨hrest, hflags⟩ := ih (h.leadTo hg trivial) (hg.leadTo l) (hstep.represented hrep)
    refine ⟨hstep.trans hrest, fun l' hl' => ?_⟩
    rcases List.mem_cons.1 hl' with rfl | hl'
    · exact hrest.flagged (hstep.represented hrep) hflag
    · exact hflags l' hl'

/-- **What an instruction adds to the graph.**  All that it leads to is marked. -/
theorem Charted.steady_afterStep (h : Charted placed (fun _ => True) p g) (hg : g.WellBuilt T)
    (hrep : g.Represented) (stop : Nat) (around : Bool) (i : Instruction Label) :
    Steady g (g.afterStep stop around i) ∧
      ∀ l ∈ i.targets, (g.afterStep stop around i).Flagged l := by
  have hthen : ∀ {g₁ g₂ : BlockGraph} {ls : List Label},
      (Steady g g₁ ∧ ∀ l ∈ ls, g₁.Flagged l) → Steady g₁ g₂ →
        Steady g g₂ ∧ ∀ l ∈ ls, g₂.Flagged l := fun h₁ h₂ =>
    ⟨h₁.1.trans h₂, fun l hl => h₂.flagged (h₁.1.represented hrep) (h₁.2 l hl)⟩
  cases i
  case simple op =>
    rw [BlockGraph.afterStep]
    split
    · exact ⟨hg.steady_endBlock stop, List.forall_mem_nil _⟩
    · exact ⟨.refl g, List.forall_mem_nil _⟩
  case jump op goal =>
    have hlead := h.steady_leadToAll hg hrep [goal]
    have hg' := hg.leadTo goal
    rw [BlockGraph.afterStep]
    split
    · exact hthen hlead (hg'.steady_endBlock stop)
    · exact hthen hlead (hg'.steady_fallThrough (h.leadTo hg trivial).led stop around)
  case tableSwitch low high default targets =>
    exact hthen (h.steady_leadToAll hg hrep (default :: targets))
      ((hg.leadToAll (default :: targets)).steady_endBlock stop)
  case lookupSwitch default keys targets =>
    exact hthen (h.steady_leadToAll hg hrep (default :: targets))
      ((hg.leadToAll (default :: targets)).steady_endBlock stop)
  case int | var | type | field | method | invokeDynamic | constant | increment | multiArray =>
    exact ⟨.refl g, List.forall_mem_nil _⟩

/-- An instruction, also one that fails.  If it does not fail where control gets to, all that it leads
to is marked. -/
theorem Charted.steady_step (hT : T.Sound h) (hc : Charted placed (fun _ => True) p g)
    (hg : g.WellBuilt T) (hrep : g.Represented) {start stop : Nat} {around : Bool}
    {i : Instruction Label} {r : Except Error Unit}
    (hrun : BlockGraph.step start stop around i g T = ((r, g'), T')) :
    Steady g g' ∧ (r = .ok () → g.current.isSome = true → ∀ l ∈ i.targets, g'.Flagged l) := by
  rw [step_apply hg.mode] at hrun
  rcases hf : BlockGraph.onFrame (frameStep start i) g T with ⟨⟨rf, g₁⟩, T₁⟩
  obtain ⟨-, -, hg₁⟩ := hg.onFrame hT (keeps_frameStep start i) hf
  obtain ⟨hc₁, hframe⟩ : Charted placed (fun _ => True) p g₁ ∧ Steady g g₁ := by
    rcases onFrame_cases hg hf with ⟨-, -, rfl, -⟩ | ⟨j, b, f, f', -, -, -, -, rfl⟩
    · exact ⟨hc, .refl g₁⟩
    · exact ⟨hc.onBlock j fun _ => ⟨rfl, rfl, rfl⟩,
        steady_onBlock g j (fun _ => ⟨rfl, rfl, rfl⟩) fun _ => id⟩
  rw [hf] at hrun
  cases rf with
  | error e =>
    cases hrun
    exact ⟨hframe, nofun⟩
  | ok u =>
    simp only at hrun
    obtain ⟨⟨-, rfl⟩, rfl⟩ := hrun
    split
    · obtain ⟨hafter, hflags⟩ := hc₁.steady_afterStep hg₁ (hframe.represented hrep) stop around i
      exact ⟨hframe.trans hafter, fun _ _ => hflags⟩
    · rename_i hcurrent
      exact ⟨hframe, fun _ hsome => absurd hsome hcurrent⟩

end BlockGraph

/-! ## 6. Events -/

namespace GraphEvent

/-- The label that an event places. -/
def placed? : GraphEvent → Option Label
  | label l _ => some l
  | _ => none

/-- An event that comes when the code has `p` bytes, and leaves it with `q` bytes. -/
def From (p q : Nat) : GraphEvent → Prop
  | instruction start stop _ _ => p ≤ start ∧ start < stop ∧ q = stop
  | label _ position | split position => p ≤ position ∧ q = position
  | handler _ => q = p

/-- Events that come in the order of the code, which has `p` bytes before them and `q` behind. -/
inductive Reported : Nat → List GraphEvent → Nat → Prop
  | nil (p : Nat) : Reported p [] p
  | cons {p q r : Nat} {e : GraphEvent} {es : List GraphEvent} :
    e.From p q → Reported q es r → Reported p (e :: es) r

theorem reported_append {p r : Nat} {es es' : List GraphEvent} :
    Reported p (es ++ es') r ↔ ∃ q, Reported p es q ∧ Reported q es' r := by
  induction es generalizing p with
  | nil =>
    refine ⟨fun h => ⟨p, .nil p, h⟩, ?_⟩
    rintro ⟨q, _ | _, h⟩
    exact h
  | cons e es ih =>
    constructor
    · rintro (_ | ⟨he, hes⟩)
      obtain ⟨q, hq, hrest⟩ := ih.1 hes
      exact ⟨q, .cons he hq, hrest⟩
    · rintro ⟨q, _ | ⟨he, hes⟩, hrest⟩
      exact .cons he (ih.2 ⟨q, hes, hrest⟩)

end GraphEvent

namespace BlockGraph

open GraphEvent

variable {h : Hierarchy} {g g' : BlockGraph} {T T' : TypeTable} {l : Label}
  {placed : Label → Prop} {p q position : Nat} {es : List GraphEvent}

/-- **A graph and a table behind some events**, of which the code has `p` bytes. -/
structure Standing (h : Hierarchy) (placed : Label → Prop) (p : Nat) (g : BlockGraph)
    (T : TypeTable) : Prop where
  sound : T.Sound h
  built : g.WellBuilt T
  charted : Charted placed (fun _ => True) p g
  represented : g.Represented

theorem standing_start (hT : T.Sound h) : Standing h (fun _ => False) 0 (start .frames) T where
  sound := hT
  built := wellBuilt_start
  charted := charted_start
  represented i k hi := by
    obtain ⟨b, hb, hk⟩ := Option.bind_eq_some_iff.1 hi
    obtain rfl : b = { Block.empty (some Frame.empty) with isPlaced := true } := by
      simpa [start] using Array.mem_of_getElem? hb
    cases hk

/-- The table has grown. -/
theorem Standing.later (hs : Standing h placed p g T) (hT : T'.Sound h) (hle : T ≤ T') :
    Standing h placed p g T' :=
  ⟨hT, hs.built.later hle, hs.charted, hs.represented⟩

theorem Standing.of_placed {placed' : Label → Prop} (hs : Standing h placed p g T)
    (hplaced : ∀ l, placed l ↔ placed' l) : Standing h placed' p g T := by
  obtain rfl : placed = placed' := funext fun l => propext (hplaced l)
  exact hs

/-- What one event leaves, also when it fails. -/
theorem Standing.act (hs : Standing h placed p g T) {e : GraphEvent} (he : e.From p q)
    (hfresh : ∀ l, e.placed? = some l → ¬ placed l) {r : Except Error Unit}
    (hrun : e.act g T = ((r, g'), T')) :
    Standing h (fun l => placed l ∨ e.placed? = some l) q g' T' ∧ Steady g g' := by
  obtain ⟨hT, hg, hc, hrep⟩ := hs
  obtain ⟨hT', -, hg'⟩ := hg.act hT e hrun
  have hsame : ∀ {e : GraphEvent}, e.placed? = none →
      (fun l => placed l ∨ e.placed? = some l) = placed := by
    intro e hnone
    funext l
    simp [hnone]
  have hboth : Charted (fun l => placed l ∨ e.placed? = some l) (fun _ => True) q g' ∧
      Steady g g' := by
    cases e with
    | instruction start stop around i =>
      obtain ⟨hp, hlt, rfl⟩ := he
      rw [hsame rfl]
      exact ⟨hc.step hT hg (Nat.lt_of_le_of_lt hp hlt) around (fun _ _ => trivial) hrun,
        (hc.steady_step hT hg hrep hrun).1⟩
    | label l position =>
      obtain ⟨hp, rfl⟩ := he
      cases hrun
      have hl := hfresh l rfl
      have heq : (fun k => placed k ∨ (GraphEvent.label l q).placed? = some k) =
          fun k => placed k ∨ k = l := by
        funext k
        simp [GraphEvent.placed?, eq_comm]
      rw [heq]
      exact ⟨hc.label hg trivial hl hp, hc.steady_label hg trivial hl q⟩
    | split position =>
      obtain ⟨hp, rfl⟩ := he
      cases hrun
      rw [hsame rfl]
      exact ⟨hc.splitAt hg.mode hp, (hg.steady_splitAt hc.led q).1⟩
    | handler r =>
      cases he
      cases hrun
      rw [hsame rfl]
      exact ⟨hc.addHandler hg trivial trivial trivial, hg.steady_addHandler r⟩
  exact ⟨⟨hT', hg', hboth.1, hboth.2.represented hrep⟩, hboth.2⟩

theorem build_append (es es' : List GraphEvent) (g : BlockGraph) (T : TypeTable) :
    build (es ++ es') g T = build es' (build es g T).1 (build es g T).2 := by
  induction es generalizing g T with
  | nil => rfl
  | cons e es ih =>
    rcases hrun : e.act g T with ⟨⟨r, g'⟩, T'⟩
    rw [List.cons_append, build, build, hrun]
    exact ih g' T'

/-- **What a run of events leaves.** -/
theorem Standing.run (hs : Standing h placed p g T) (hes : Reported p es q)
    (honce : PlacesOnce GraphEvent.placed? placed es) :
    Standing h (fun l => placed l ∨ l ∈ es.filterMap GraphEvent.placed?) q
        (build es g T).1 (build es g T).2 ∧ Steady g (build es g T).1 := by
  induction hes generalizing g T placed with
  | nil p => simpa [build] using And.intro hs (Steady.refl g)
  | @cons p q r e es he _ ih =>
    rcases hrun : e.act g T with ⟨⟨ans, g'⟩, T'⟩
    obtain ⟨hfresh, hrest⟩ := honce.cons
    obtain ⟨hs', hsteady⟩ := hs.act he hfresh hrun
    obtain ⟨hs'', hsteady'⟩ := ih hs' hrest
    rw [build, hrun]
    refine ⟨?_, hsteady.trans hsteady'⟩
    simpa only [mem_placed_cons, or_assoc] using hs''

/-- **An event among others**: how it finds the graph, and that nothing of what it leaves is lost with
what comes behind it. -/
theorem Standing.at_event (hs : Standing h placed p g T) {before after : List GraphEvent}
    {e : GraphEvent} (hes : Reported p (before ++ e :: after) q)
    (honce : PlacesOnce GraphEvent.placed? placed (before ++ e :: after)) {g₁ g₂ : BlockGraph} {T₁ T₂ : TypeTable}
    {r : Except Error Unit} (hbefore : build before g T = (g₁, T₁))
    (hrun : e.act g₁ T₁ = ((r, g₂), T₂)) :
    (∃ placed₁ p₁ q₁, Standing h placed₁ p₁ g₁ T₁ ∧ e.From p₁ q₁ ∧
      ∀ l, e.placed? = some l → ¬ placed₁ l) ∧ g₂.Represented ∧
      Steady g₂ (build (before ++ e :: after) g T).1 := by
  obtain ⟨p₁, hreported, _ | ⟨he, hrest⟩⟩ := reported_append.1 hes
  obtain ⟨honce₁, honce₂⟩ := honce.append
  obtain ⟨hfresh, honce₃⟩ := honce₂.cons
  obtain ⟨hs₁, -⟩ := hs.run hreported honce₁
  rw [hbefore] at hs₁
  obtain ⟨hs₂, -⟩ := hs₁.act he hfresh hrun
  obtain ⟨-, hsteady⟩ := hs₂.run hrest honce₃
  refine ⟨⟨_, _, _, hs₁, he, hfresh⟩, hs₂.represented, ?_⟩
  rw [build_append, hbefore, build, hrun]
  exact hsteady

/-! ## 7. Order at any time -/

/-- An instruction of these events that has not failed, where control gets to, is a jump to the label or
a switch of which it is a target. -/
def Mentioned (es : List GraphEvent) (T : TypeTable) (l : Label) : Prop :=
  ∃ before start stop around i after,
    es = before ++ GraphEvent.instruction start stop around i :: after ∧ l ∈ i.targets ∧
      (build before (BlockGraph.start .frames) T).1.current.isSome = true ∧
      ((BlockGraph.step start stop around i (build before (BlockGraph.start .frames) T).1
        (build before (BlockGraph.start .frames) T).2).1).1 = .ok ()

/-- **The order of a graph** behind some events, of which the table was `T` in front. -/
structure Arranged (es : List GraphEvent) (T : TypeTable) (g : BlockGraph) : Prop where
  /-- Following `next` from the entry comes to an end. -/
  walk : Walk (nextAt g.blocks) (some 0) (g.chain 0)
  ascending : (g.chain 0).Pairwise fun i j => g.positionOf i < g.positionOf j
  ends : (g.chain 0).getLast? = some g.last
  current : ∀ i, g.current = some i → i = g.last
  aliases : ∀ i k, aliasAt g.blocks i = some k →
    aliasAt g.blocks k = none ∧ k ∈ g.chain 0 ∧ g.positionOf k = g.positionOf i
  labels : ∀ l position, GraphEvent.label l position ∈ es →
    ∃ i, g.labels.get? l = some i ∧ g.first i ∈ g.chain 0 ∧ g.positionOf (g.first i) = position
  splits : ∀ position, GraphEvent.split position ∈ es →
    ∃ i ∈ g.chain 0, g.positionOf i = position
  targets : ∀ l, Mentioned es T l →
    ∃ i, g.labels.get? l = some i ∧ isTargetAt g.blocks (g.first i)

/-- **A graph is in order at any time**, also behind events that have failed. -/
theorem build_arranged (hT : T.Sound h) (hes : Reported 0 es q)
    (hplaced : (es.filterMap GraphEvent.placed?).Nodup) :
    Arranged es T (build es (start .frames) T).1 := by
  have hstart := standing_start hT
  have honce : PlacesOnce GraphEvent.placed? (fun _ => False) es := ⟨fun _ _ => id, hplaced⟩
  obtain ⟨hs, -⟩ := hstart.run hes honce
  obtain ⟨chain, hc⟩ := hs.charted.chained
  have hmem : ∀ {i k position}, (build es (start .frames) T).1.StandsAt i k position →
      k ∈ (build es (start .frames) T).1.chain 0 := fun hk => hc.chain_eq ▸ hc.mem_of_passed hk.passed
  have hfirst : ∀ {i k position}, (build es (start .frames) T).1.StandsAt i k position →
      (build es (start .frames) T).1.first i = k := by
    intro i k position hk
    rcases hk.stands with rfl | halias
    · exact first_of_none hk.passed.first
    · exact first_of_alias hs.represented halias
  refine ⟨?_, ?_, ?_, hc.current, fun i k hi => ?_, fun l position hl => ?_, fun position hsplit => ?_,
    fun l hl => ?_⟩
  · have hchain : 0 :: chain.tail = chain := List.cons_head?_tail hc.head
    rw [hc.chain_eq, ← hchain]
    refine Walk.of_isChain (hchain ▸ hc.linked) fun k hk => ?_
    obtain rfl := Option.some.inj (hc.last.symm.trans (hchain ▸ hk))
    exact hc.ends
  · exact hc.chain_eq ▸ hc.ascending
  · exact hc.chain_eq ▸ hc.last
  · obtain ⟨hk, hpos⟩ := hs.represented i k hi
    exact ⟨hk.first, hc.chain_eq ▸ hc.mem_of_passed hk, hpos⟩
  · obtain ⟨before, after, rfl⟩ := List.append_of_mem hl
    rcases hbefore : build before (start .frames) T with ⟨g₁, T₁⟩
    obtain ⟨⟨placed₁, p₁, q₁, hs₁, -, hfresh⟩, -, hsteady⟩ := hstart.at_event hes honce hbefore rfl
    obtain ⟨-, k, hsited⟩ := hs₁.charted.onward_label hs₁.built trivial (hfresh l rfl) position
    obtain ⟨i, hi, hstands⟩ := hsteady.sited hsited
    exact ⟨i, hi, hfirst hstands ▸ hmem hstands, hfirst hstands ▸ hstands.position⟩
  · obtain ⟨before, after, rfl⟩ := List.append_of_mem hsplit
    rcases hbefore : build before (start .frames) T with ⟨g₁, T₁⟩
    obtain ⟨⟨placed₁, p₁, q₁, hs₁, -, -⟩, -, hsteady⟩ := hstart.at_event hes honce hbefore rfl
    obtain ⟨-, i, k, hstands⟩ := hs₁.built.steady_splitAt hs₁.charted.led position
    have hstands' := hsteady.stands hstands
    exact ⟨k, hmem hstands', hstands'.position⟩
  · obtain ⟨before, start, stop, around, i, after, rfl, hli, hcurrent, hok⟩ := hl
    rcases hbefore : build before (BlockGraph.start .frames) T with ⟨g₁, T₁⟩
    rw [hbefore] at hcurrent hok
    rcases hrun : BlockGraph.step start stop around i g₁ T₁ with ⟨⟨r, g₂⟩, T₂⟩
    rw [hrun] at hok
    obtain ⟨⟨placed₁, p₁, q₁, hs₁, -, -⟩, hrep, hsteady⟩ := hstart.at_event hes honce hbefore hrun
    obtain ⟨-, hflags⟩ := hs₁.charted.steady_step hs₁.sound hs₁.built hs₁.represented hrun
    exact hsteady.flagged hrep (hflags hok hcurrent l hli)

/-- A conditional jump to what follows it, and a jump back there. -/
def meetingEvents : List GraphEvent :=
  [.instruction 0 1 false (.simple Opcode.iconst0),
    .instruction 1 4 false (.jump Opcode.ifeq ⟨0, false⟩), .label ⟨0, false⟩ 4,
    .instruction 4 7 false (.jump Opcode.goto ⟨0, false⟩)]

/-- The block that the first jump leads to becomes another name for the one that it falls through to,
where the label comes; that one is in the chain, and marked. -/
theorem build_arranged_meeting :
    ∃ i, (build meetingEvents (start .frames) .empty).1.labels.get? ⟨0, false⟩ = some i ∧
      (build meetingEvents (start .frames) .empty).1.first i ∈
        (build meetingEvents (start .frames) .empty).1.chain 0 ∧
      (build meetingEvents (start .frames) .empty).1.positionOf
        ((build meetingEvents (start .frames) .empty).1.first i) = 4 ∧
      isTargetAt (build meetingEvents (start .frames) .empty).1.blocks
        ((build meetingEvents (start .frames) .empty).1.first i) := by
  have hreported : GraphEvent.Reported 0 meetingEvents 7 :=
    .cons ⟨by decide, by decide, rfl⟩ (.cons ⟨by decide, by decide, rfl⟩
      (.cons ⟨by decide, rfl⟩ (.cons ⟨by decide, by decide, rfl⟩ (.nil 7))))
  have harranged := build_arranged (TypeTable.sound_empty .empty) hreported (by decide)
  have hmentioned : Mentioned meetingEvents .empty ⟨0, false⟩ := by
    refine ⟨[.instruction 0 1 false (.simple Opcode.iconst0)], 1, 4, false, _, _, rfl, by decide, rfl,
      ?_⟩
    rw [step_apply rfl]
    rfl
  obtain ⟨i, hi, hmem, hpos⟩ :=
    harranged.labels ⟨0, false⟩ 4 (List.mem_cons_of_mem _ (List.mem_cons_of_mem _ List.mem_cons_self))
  obtain ⟨j, hj, hmark⟩ := harranged.targets _ hmentioned
  obtain rfl := Option.some.inj (hi.symm.trans hj)
  exact ⟨i, hi, hmem, hpos, hmark⟩

end BlockGraph

end ClassFile
