/-
# How graphs with frames grow

While instructions and labels come in, a graph only grows (`Grown`).  Labels keep their blocks and
aliases what they stand for; a block that has got its place in the chain keeps it (`Passed`), and so it
does what constructors have run on in it.

Only the frame of the current block changes.  The operations that change no frame at all, from the start
of a block to the edges of a jump, say a little more (`Onward`): a block that is not behind them yet is
as it was, or empty.  So what holds of the frames of all blocks in which instructions can still come, and
of empty ones, is kept.
-/
import ClassFile.Proofs.BlockGraph.Chain
import ClassFile.Proofs.BlockGraph.Explore
import ClassFile.Proofs.Frame.Midway

namespace ClassFile.BlockGraph

variable {g g' g'' : BlockGraph} {i j k : BlockId} {l : Label} {position : Nat}

/-! ## 1. Growth -/

/-- A block that has its place in the chain. -/
structure Passed (g : BlockGraph) (k : BlockId) : Prop where
  lt : k < g.blocks.size
  first : aliasAt g.blocks k = none
  placed : k = g.last ∨ (nextAt g.blocks k).isSome = true

/-- A block that has no place yet. -/
structure Fresh (g : BlockGraph) (i : BlockId) : Prop where
  lt : i < g.blocks.size
  ne_last : i ≠ g.last
  next : nextAt g.blocks i = none
  first : aliasAt g.blocks i = none

theorem Passed.ne (hk : g.Passed k) (hi : g.Fresh i) : k ≠ i := by
  rintro rfl
  rcases hk.placed with hlast | hnext
  · exact hi.ne_last hlast
  · rw [hi.next] at hnext
    exact nomatch hnext

/-- **The second graph has grown out of the first one.** -/
structure Grown (g g' : BlockGraph) : Prop where
  labels : ∀ l i, g.labels.get? l = some i → g'.labels.get? l = some i
  handlers : ∀ r ∈ g.handlers, r ∈ g'.handlers
  aliases : ∀ i k, aliasAt g.blocks i = some k → aliasAt g'.blocks i = some k
  passed : ∀ k, g.Passed k → g'.Passed k ∧ g'.positionOf k = g.positionOf k
  frames : ∀ i f, frameAt g.blocks i = some f →
    ∃ f', frameAt g'.blocks i = some f' ∧ f.Prolongs f'

/-- The second graph has grown out of the first one, and in blocks in which instructions can still come
there are none but those from before. -/
structure Onward (g g' : BlockGraph) : Prop extends Grown g g' where
  ahead : ∀ i f, frameAt g'.blocks i = some f → nextAt g'.blocks i = none →
    f = .empty ∨ frameAt g.blocks i = some f ∧ nextAt g.blocks i = none

theorem Grown.refl (g : BlockGraph) : Grown g g :=
  ⟨fun _ _ => id, fun _ => id, fun _ _ => id, fun _ hk => ⟨hk, rfl⟩,
    fun _ f hf => ⟨f, hf, List.prefix_rfl⟩⟩

theorem Grown.trans (h : Grown g g') (h' : Grown g' g'') : Grown g g'' where
  labels l i hl := h'.labels l i (h.labels l i hl)
  handlers r hr := h'.handlers r (h.handlers r hr)
  aliases i k hi := h'.aliases i k (h.aliases i k hi)
  passed k hk := by
    obtain ⟨hk', hpos⟩ := h.passed k hk
    obtain ⟨hk'', hpos'⟩ := h'.passed k hk'
    exact ⟨hk'', hpos'.trans hpos⟩
  frames i f hf := by
    obtain ⟨f', hf', hprolongs⟩ := h.frames i f hf
    obtain ⟨f'', hf'', hprolongs'⟩ := h'.frames i f' hf'
    exact ⟨f'', hf'', hprolongs.trans hprolongs'⟩

theorem Onward.refl (g : BlockGraph) : Onward g g :=
  ⟨.refl g, fun _ _ hf hn => .inr ⟨hf, hn⟩⟩

theorem Onward.trans (h : Onward g g') (h' : Onward g' g'') : Onward g g'' := by
  refine ⟨h.toGrown.trans h'.toGrown, fun i f hf hn => ?_⟩
  rcases h'.ahead i f hf hn with hempty | ⟨hf', hn'⟩
  · exact .inl hempty
  · exact h.ahead i f hf' hn'

/-- What holds of the frames of all blocks in which instructions can still come. -/
def Ahead (S : BlockId → Frame → Prop) (g : BlockGraph) : Prop :=
  ∀ i f, frameAt g.blocks i = some f → nextAt g.blocks i = none → S i f

/-- **What holds of empty frames and of those ahead holds of those ahead afterwards.** -/
theorem Onward.keeps (h : Onward g g') {S : BlockId → Frame → Prop} (hempty : ∀ i, S i .empty)
    (hS : g.Ahead S) : g'.Ahead S := by
  intro i f hf hn
  rcases h.ahead i f hf hn with rfl | ⟨hf', hn'⟩
  · exact hempty i
  · exact hS i f hf' hn'

/-! ## 2. Parts of operations -/

theorem positionOf_onBlock (g : BlockGraph) (i : BlockId) {f : Block → Block}
    (hf : ∀ b, (f b).position = b.position) (j : BlockId) :
    (g.onBlock i f).positionOf j = g.positionOf j := by
  rw [positionOf, positionOf, getElem?_onBlock]
  split
  · cases g.blocks[j]? with
    | none => rfl
    | some b => exact hf b
  · rfl

theorem positionOf_onBlock_ne (g : BlockGraph) (hij : j ≠ i) (f : Block → Block) :
    (g.onBlock i f).positionOf j = g.positionOf j := by
  rw [positionOf, positionOf, getElem?_onBlock, if_neg (Ne.symm hij)]

/-- A change that leaves all blocks in their places, and all frames as they are. -/
theorem onward_of_sameShape (hshape : SameShape g.blocks g'.blocks)
    (hframes : ∀ j, frameAt g'.blocks j = frameAt g.blocks j) (hlast : g'.last = g.last)
    (hlabels : ∀ l i, g.labels.get? l = some i → g'.labels.get? l = some i)
    (hhandlers : ∀ r ∈ g.handlers, r ∈ g'.handlers) : Onward g g' where
  labels := hlabels
  handlers := hhandlers
  aliases i k hi := (hshape.sameAs i).trans hi
  passed k hk := by
    refine ⟨⟨Nat.lt_of_lt_of_eq hk.lt hshape.size.symm, (hshape.sameAs k).trans hk.first, ?_⟩,
      hshape.positionOf_eq k⟩
    rw [hlast, hshape.next]
    exact hk.placed
  frames i f hf := ⟨f, (hframes i).trans hf, List.prefix_rfl⟩
  ahead i f hf hn := .inr ⟨(hframes i).symm.trans hf, (hshape.next i).symm.trans hn⟩

theorem onward_onBlock (g : BlockGraph) (i : BlockId) {f : Block → Block}
    (hf : ∀ b, (f b).position = b.position ∧ (f b).next = b.next ∧ (f b).sameAs = b.sameAs)
    (hframe : ∀ b, (f b).frame = b.frame) : Onward g (g.onBlock i f) :=
  onward_of_sameShape (sameShape_onBlock g i hf) (fun j => bind_onBlock g i hframe j) rfl
    (fun _ _ => id) fun _ => id

theorem onward_addEdge (g : BlockGraph) (kind : EdgeKind) (i : BlockId) :
    Onward g (g.addEdge kind i) := by
  unfold BlockGraph.addEdge
  split
  · exact onward_onBlock g _ (fun _ => ⟨rfl, rfl, rfl⟩) fun _ => rfl
  · exact .refl g

theorem onward_withCurrent (g : BlockGraph) (current : Option BlockId) :
    Onward g { g with current := current } :=
  onward_of_sameShape ⟨rfl, fun _ => rfl, fun _ => rfl, fun _ => rfl⟩ (fun _ => rfl) rfl
    (fun _ _ => id) fun _ => id

/-- A new block is fresh, and empty. -/
theorem WellBuilt.onward_newBlock {T : TypeTable} (hg : g.WellBuilt T) :
    Onward g g.newBlock.2 ∧ g.newBlock.2.Fresh g.blocks.size := by
  have hblocks := newBlock_blocks hg.mode
  have hold : ∀ j < g.blocks.size, g.newBlock.2.blocks[j]? = g.blocks[j]? := by
    intro j hj
    rw [hblocks, Array.getElem?_push, if_neg (Nat.ne_of_lt hj)]
  have hnew : g.newBlock.2.blocks[g.blocks.size]? = some (.empty (some .empty)) := by
    rw [hblocks, Array.getElem?_push, if_pos rfl]
  have hsize : g.newBlock.2.blocks.size = g.blocks.size + 1 := by rw [hblocks, Array.size_push]
  have hlt : ∀ {α : Type} {r : Block → Option α} {j : BlockId} {a : α},
      g.blocks[j]?.bind r = some a → j < g.blocks.size := by
    intro α r j a hj
    obtain ⟨b, hb, -⟩ := Option.bind_eq_some_iff.1 hj
    exact (Array.getElem?_eq_some_iff.1 hb).1
  refine ⟨⟨⟨fun _ _ => id, fun _ => id, fun i k hi => ?_, fun k hk => ?_, fun i f hf => ?_⟩,
    fun i f hf hn => ?_⟩, ⟨?_, (Nat.ne_of_lt hg.last_lt).symm, ?_, ?_⟩⟩
  · rw [aliasAt, hold i (hlt hi)]
    exact hi
  · refine ⟨⟨?_, ?_, ?_⟩, ?_⟩
    · rw [hsize]
      exact Nat.lt_succ_of_lt hk.lt
    · rw [aliasAt, hold k hk.lt]
      exact hk.first
    · rw [nextAt, hold k hk.lt]
      exact hk.placed
    · rw [positionOf, positionOf, hold k hk.lt]
  · refine ⟨f, ?_, List.prefix_rfl⟩
    rw [frameAt, hold i (hlt hf)]
    exact hf
  · by_cases hi : i < g.blocks.size
    · rw [frameAt, hold i hi] at hf
      rw [nextAt, hold i hi] at hn
      exact .inr ⟨hf, hn⟩
    · have hi' : i = g.blocks.size := by
        obtain ⟨b, hb, -⟩ := Option.bind_eq_some_iff.1 hf
        have hlt := Nat.lt_of_lt_of_eq (Array.getElem?_eq_some_iff.1 hb).1 hsize
        exact Nat.le_antisymm (Nat.le_of_lt_succ hlt) (Nat.le_of_not_lt hi)
      subst hi'
      rw [frameAt, hnew] at hf
      exact .inl (Option.some.inj hf).symm
  · rw [hsize]
    exact Nat.lt_succ_self _
  · rw [nextAt, hnew]
    rfl
  · rw [aliasAt, hnew]
    rfl

theorem Fresh.of_sameShape (hi : g.Fresh i) (hshape : SameShape g.blocks g'.blocks)
    (hlast : g'.last = g.last) : g'.Fresh i :=
  ⟨Nat.lt_of_lt_of_eq hi.lt hshape.size.symm, hlast ▸ hi.ne_last, (hshape.next i).trans hi.next,
    (hshape.sameAs i).trans hi.first⟩

theorem Fresh.addEdge (hi : g.Fresh i) (kind : EdgeKind) (k : BlockId) :
    (g.addEdge kind k).Fresh i := by
  unfold BlockGraph.addEdge
  split
  · exact hi.of_sameShape (sameShape_onBlock g _ fun _ => ⟨rfl, rfl, rfl⟩) rfl
  · exact hi

/-- A fresh block can be given any position. -/
theorem Fresh.place (hi : g.Fresh i) (position : Nat) :
    Onward g (g.place i position) ∧ (g.place i position).Fresh i ∧
      (g.place i position).positionOf i = position := by
  have hnext : ∀ j, nextAt (g.place i position).blocks j = nextAt g.blocks j :=
    bind_onBlock g i fun _ => rfl
  have hsame : ∀ j, aliasAt (g.place i position).blocks j = aliasAt g.blocks j :=
    bind_onBlock g i fun _ => rfl
  have hframe : ∀ j, frameAt (g.place i position).blocks j = frameAt g.blocks j :=
    bind_onBlock g i fun _ => rfl
  have hsize : (g.place i position).blocks.size = g.blocks.size := size_place ..
  refine ⟨⟨⟨fun _ _ => id, fun _ => id, fun j k hj => (hsame j).trans hj, fun k hk => ?_,
    fun j f hf => ⟨f, (hframe j).trans hf, List.prefix_rfl⟩⟩,
    fun j f hf hn => .inr ⟨(hframe j).symm.trans hf, (hnext j).symm.trans hn⟩⟩,
    ⟨Nat.lt_of_lt_of_eq hi.lt hsize.symm, hi.ne_last, (hnext i).trans hi.next,
      (hsame i).trans hi.first⟩, ?_⟩
  · refine ⟨⟨Nat.lt_of_lt_of_eq hk.lt hsize.symm, (hsame k).trans hk.first, ?_⟩,
      positionOf_onBlock_ne g (hk.ne hi) _⟩
    rw [hnext]
    exact hk.placed
  · rw [positionOf, BlockGraph.place, getElem?_onBlock, if_pos rfl, Array.getElem?_eq_getElem hi.lt]
    rfl

/-- A fresh block becomes another name for one that has its place. -/
theorem Fresh.makeAlias (hi : g.Fresh i) (hk : g.Passed k) :
    Onward g (g.makeAlias i k) ∧ aliasAt (g.makeAlias i k).blocks i = some k := by
  have hfirst := onward_onBlock g k (f := fun b =>
    { b with isTarget := b.isTarget || (g.blocks[i]?.map Block.isTarget).getD false })
    (fun _ => ⟨rfl, rfl, rfl⟩) fun _ => rfl
  have hi₁ := hi.of_sameShape (sameShape_onBlock g k (f := fun b =>
    { b with isTarget := b.isTarget || (g.blocks[i]?.map Block.isTarget).getD false })
    fun _ => ⟨rfl, rfl, rfl⟩) rfl
  unfold BlockGraph.makeAlias
  rw [if_neg (hk.ne hi).symm]
  dsimp only
  generalize (g.onBlock k fun b =>
    { b with isTarget := b.isTarget || (g.blocks[i]?.map Block.isTarget).getD false }) = g₁ at hfirst hi₁ ⊢
  have hnext : ∀ j, nextAt (g₁.onBlock i fun b => { b with sameAs := some k }).blocks j =
      nextAt g₁.blocks j := bind_onBlock g₁ i fun _ => rfl
  have hframe : ∀ j, frameAt (g₁.onBlock i fun b => { b with sameAs := some k }).blocks j =
      frameAt g₁.blocks j := bind_onBlock g₁ i fun _ => rfl
  have hsame : ∀ j, j ≠ i → aliasAt (g₁.onBlock i fun b => { b with sameAs := some k }).blocks j =
      aliasAt g₁.blocks j := by
    intro j hj
    rw [aliasAt, aliasAt, getElem?_onBlock, if_neg (Ne.symm hj)]
  refine ⟨hfirst.trans ⟨⟨fun _ _ => id, fun _ => id, fun j k' hj => ?_, fun j hj => ?_,
    fun j f hf => ⟨f, (hframe j).trans hf, List.prefix_rfl⟩⟩,
    fun j f hf hn => .inr ⟨(hframe j).symm.trans hf, (hnext j).symm.trans hn⟩⟩, ?_⟩
  · rw [hsame j, hj]
    rintro rfl
    cases hi₁.first.symm.trans hj
  · refine ⟨⟨Nat.lt_of_lt_of_eq hj.lt (size_onBlock ..).symm, (hsame j (hj.ne hi₁)).trans hj.first,
      ?_⟩, positionOf_onBlock_ne g₁ (hj.ne hi₁) _⟩
    rw [hnext]
    exact hj.placed
  · rw [aliasAt, getElem?_onBlock, if_pos rfl, Array.getElem?_eq_getElem hi₁.lt]
    rfl

/-- A fresh block becomes the last one of the chain. -/
theorem Fresh.append (hi : g.Fresh i) (hlast : g.last < g.blocks.size) :
    Onward g (g.append i) ∧ (g.append i).Passed i ∧ (g.append i).positionOf i = g.positionOf i ∧
      nextAt (g.append i).blocks g.last = some i := by
  have hframe : ∀ j, frameAt (g.append i).blocks j = frameAt g.blocks j :=
    bind_onBlock g g.last fun _ => rfl
  have hsame : ∀ j, aliasAt (g.append i).blocks j = aliasAt g.blocks j :=
    bind_onBlock g g.last fun _ => rfl
  have hnext : ∀ j, j ≠ g.last → nextAt (g.append i).blocks j = nextAt g.blocks j := by
    intro j hj
    show (g.onBlock g.last _).blocks[j]?.bind Block.next = _
    rw [nextAt, getElem?_onBlock, if_neg (Ne.symm hj)]
  have hleft : nextAt (g.append i).blocks g.last = some i := by
    show (g.onBlock g.last _).blocks[g.last]?.bind Block.next = _
    rw [getElem?_onBlock, if_pos rfl, Array.getElem?_eq_getElem hlast]
    rfl
  have hpos : ∀ j, (g.append i).positionOf j = g.positionOf j :=
    positionOf_onBlock g g.last fun _ => rfl
  have hsize : (g.append i).blocks.size = g.blocks.size := size_append g i
  refine ⟨⟨⟨fun _ _ => id, fun _ => id, fun j k hj => (hsame j).trans hj, fun k hk => ?_,
    fun j f hf => ⟨f, (hframe j).trans hf, List.prefix_rfl⟩⟩, fun j f hf hn => ?_⟩,
    ⟨Nat.lt_of_lt_of_eq hi.lt hsize.symm, (hsame i).trans hi.first, .inl rfl⟩, hpos i, hleft⟩
  · refine ⟨⟨Nat.lt_of_lt_of_eq hk.lt hsize.symm, (hsame k).trans hk.first, .inr ?_⟩, hpos k⟩
    by_cases hkl : k = g.last
    · rw [hkl, hleft]
      rfl
    · rw [hnext k hkl]
      exact hk.placed.resolve_left hkl
  · have hj : j ≠ g.last := by
      rintro rfl
      rw [hleft] at hn
      cases hn
    exact .inr ⟨(hframe j).symm.trans hf, (hnext j hj).symm.trans hn⟩

/-! ## 3. Starting and ending blocks -/

/-- The block that a label stands for, and where it starts. -/
structure StandsAt (g : BlockGraph) (i k : BlockId) (position : Nat) : Prop where
  passed : g.Passed k
  position : g.positionOf k = position
  stands : k = i ∨ aliasAt g.blocks i = some k

theorem Grown.stands (h : Grown g g') (hi : g.StandsAt i k position) : g'.StandsAt i k position := by
  obtain ⟨hk, hpos⟩ := h.passed k hi.passed
  exact ⟨hk, hpos.trans hi.position, hi.stands.imp_right (h.aliases i k)⟩

/-- **A fresh block is entered** behind the last one, or stands for it. -/
theorem Fresh.enter (hi : g.Fresh i) (hat : g.positionOf i = position) (hlast : g.Passed g.last) :
    Onward g (g.enter i position) ∧ (∃ k, (g.enter i position).StandsAt i k position) ∧
      (g.positionOf g.last ≠ position → nextAt (g.enter i position).blocks g.last = some i) := by
  unfold BlockGraph.enter
  dsimp only
  split
  · rename_i hsame
    obtain ⟨honward, halias⟩ := hi.makeAlias hlast
    have honward' := honward.trans (onward_withCurrent _ (some g.last))
    obtain ⟨hpassed, hpos⟩ := honward'.passed g.last hlast
    exact ⟨honward', ⟨g.last, hpassed, hpos.trans hsame.2, .inr halias⟩,
      fun hne => absurd hsame.2 hne⟩
  · have hcurrent := onward_withCurrent g (some i)
    have hi' : Fresh { g with current := some i } i := hi.of_sameShape
      ⟨rfl, fun _ => rfl, fun _ => rfl, fun _ => rfl⟩ rfl
    obtain ⟨honward, hpassed, hpos, hnext⟩ := hi'.append hlast.lt
    exact ⟨hcurrent.trans honward, ⟨i, hpassed, hpos.trans hat, .inl rfl⟩, fun _ => hnext⟩

/-- Instructions come in the last block, or in none. -/
structure Led (g : BlockGraph) : Prop where
  passed : g.Passed g.last
  current : ∀ c, g.current = some c → c = g.last

theorem Led.grown (hg : g.Led) (h : Grown g g') (hlast : g'.last = g.last)
    (hcurrent : g'.current = g.current) : g'.Led :=
  ⟨hlast ▸ (h.passed _ hg.passed).1, fun c hc => hlast ▸ hg.current c (hcurrent ▸ hc)⟩

/-- **A fresh block is started.**  If the last block starts elsewhere, it is left. -/
theorem Fresh.startBlock (hi : g.Fresh i) (hmode : g.mode = .frames) (hg : g.Led)
    (position : Nat) :
    Onward g (g.startBlock i position) ∧ (∃ k, (g.startBlock i position).StandsAt i k position) ∧
      (g.positionOf g.last ≠ position →
        nextAt (g.startBlock i position).blocks g.last = some i) := by
  obtain ⟨honward, hi₁, hat⟩ := hi.place position
  have hg₁ : (g.place i position).Led := hg.grown honward.toGrown rfl rfl
  have hpos : (g.place i position).positionOf g.last = g.positionOf g.last :=
    (honward.passed _ hg.passed).2
  have hlast : (g.place i position).last = g.last := rfl
  have hmode₁ : (g.place i position).mode = .frames := hmode
  unfold BlockGraph.startBlock
  generalize g.place i position = g₁ at honward hi₁ hat hg₁ hpos hlast hmode₁
  rw [← hpos, ← hlast]
  simp only [hmode₁]
  split
  · rename_i c hcurrent
    obtain rfl := hg₁.current c hcurrent
    split
    · rename_i hsame
      obtain ⟨honward', halias⟩ := hi₁.makeAlias hg₁.passed
      obtain ⟨hpassed, hpos'⟩ := honward'.passed _ hg₁.passed
      exact ⟨honward.trans honward', ⟨_, hpassed, hpos'.trans hsame, .inr halias⟩,
        fun hne => absurd hsame hne⟩
    · have hedge := onward_addEdge g₁ .normal i
      have hlast' := last_addEdge g₁ .normal i
      have hpassed := (hedge.passed _ hg₁.passed).1
      rw [← hlast'] at hpassed ⊢
      obtain ⟨honward', hstands, hnext⟩ := (hi₁.addEdge .normal i).enter
        ((positionOf_addEdge g₁ .normal i i).trans hat) hpassed
      rw [positionOf_addEdge] at hnext
      exact ⟨honward.trans (hedge.trans honward'), hstands, hnext⟩
  · obtain ⟨honward', hstands, hnext⟩ := hi₁.enter hat hg₁.passed
    exact ⟨honward.trans honward', hstands, hnext⟩

variable {T T' : TypeTable} {placed named : Label → Prop} {p : Nat}

/-- The current block ends, without falling through. -/
theorem WellBuilt.onward_endBlock (hg : g.WellBuilt T) (stop : Nat) :
    Onward g (g.endBlock stop) := by
  obtain ⟨hnew, hi⟩ := hg.onward_newBlock
  obtain ⟨hplace, hi', -⟩ := hi.place stop
  have hlast : g.last < (g.newBlock.2.place g.blocks.size stop).blocks.size := by
    rw [size_place, newBlock_blocks hg.mode, Array.size_push]
    exact Nat.lt_succ_of_lt hg.last_lt
  obtain ⟨happend, -⟩ := hi'.append hlast
  unfold BlockGraph.endBlock
  rw [hg.mode]
  exact ((hnew.trans hplace).trans happend).trans (onward_withCurrent _ none)

/-- **A block starts without a label**; if the last one starts elsewhere, it is left. -/
theorem WellBuilt.onward_startNew (hg : g.WellBuilt T) (hled : g.Led) {f : Block → Block}
    (hf : ∀ b, (f b).position = b.position ∧ (f b).next = b.next ∧ (f b).sameAs = b.sameAs)
    (hframe : ∀ b, (f b).frame = b.frame) (position : Nat) :
    Onward g ((g.newBlock.2.onBlock g.newBlock.1 f).startBlock g.newBlock.1 position) ∧
      (g.positionOf g.last ≠ position →
        (nextAt ((g.newBlock.2.onBlock g.newBlock.1 f).startBlock g.newBlock.1 position).blocks
          g.last).isSome = true) := by
  obtain ⟨hnew, hi⟩ := hg.onward_newBlock
  have hchange := onward_onBlock g.newBlock.2 g.newBlock.1 hf hframe
  have hi' := hi.of_sameShape (sameShape_onBlock g.newBlock.2 g.newBlock.1 hf) rfl
  have honward := hnew.trans hchange
  obtain ⟨hstart, -, hnext⟩ := hi'.startBlock hg.mode (hled.grown honward.toGrown rfl rfl)
    position
  refine ⟨honward.trans hstart, fun hne => ?_⟩
  have hpos := (honward.passed _ hled.passed).2
  exact Option.isSome_of_eq_some (hnext (by rw [← hpos] at hne; exact hne))

theorem WellBuilt.onward_splitAt (hg : g.WellBuilt T) (hled : g.Led) (position : Nat) :
    Onward g (CodeWriter.splitAt position g) ∧
      (g.positionOf g.last ≠ position →
        (nextAt (CodeWriter.splitAt position g).blocks g.last).isSome = true) := by
  have hstart := hg.onward_startNew hled (f := id) (fun _ => ⟨rfl, rfl, rfl⟩) (fun _ => rfl) position
  rw [onBlock_id] at hstart
  exact hstart

theorem WellBuilt.onward_fallThrough (hg : g.WellBuilt T) (hled : g.Led) (stop : Nat)
    (isTarget : Bool) : Onward g (g.fallThrough stop isTarget) := by
  unfold BlockGraph.fallThrough
  cases isTarget with
  | false => exact (hg.onward_splitAt hled stop).1
  | true =>
    exact (hg.onward_startNew hled (f := fun b => { b with isTarget := true })
      (fun _ => ⟨rfl, rfl, rfl⟩) (fun _ => rfl) stop).1

/-! ## 4. Labels -/

theorem Charted.led (h : Charted placed named p g) : g.Led := by
  obtain ⟨chain, hc⟩ := h.chained
  exact ⟨⟨hc.lt _ hc.last_mem, hc.first _ hc.last_mem, .inl rfl⟩, hc.current⟩

/-- The block of a label that has not been placed is fresh. -/
theorem Charted.fresh (h : Charted placed named p g) (hl : g.labels.get? l = some i)
    (hunplaced : ¬ placed l) : g.Fresh i := by
  obtain ⟨chain, hc⟩ := h.chained
  obtain ⟨hlt, hmem, halias, hnext⟩ := hc.free i ⟨l, hl, hunplaced⟩
  exact ⟨hlt, fun heq => hmem (heq ▸ hc.last_mem), hnext, halias⟩

/-- Labels keep their blocks, and the one that is asked for has one. -/
theorem WellBuilt.onward_blockOf (hg : g.WellBuilt T) (l : Label) :
    Onward g (g.blockOf l).2 ∧ (g.blockOf l).2.last = g.last ∧
      (g.blockOf l).2.current = g.current := by
  unfold BlockGraph.blockOf
  cases hl : g.labels.get? l with
  | some i => exact ⟨.refl g, rfl, rfl⟩
  | none =>
    refine ⟨hg.onward_newBlock.1.trans ?_, rfl, rfl⟩
    refine onward_of_sameShape ⟨rfl, fun _ => rfl, fun _ => rfl, fun _ => rfl⟩ (fun _ => rfl) rfl
      (fun k j hk => ?_) fun _ => id
    have hk' : g.labels.get? k = some j := hk
    have hne : k ≠ l := by
      rintro rfl
      exact nomatch hl.symm.trans hk'
    exact (hg.get?_bind_newBlock hl k).trans ((if_neg hne).trans hk')

/-- The place of a label: the block that stands for its block, and where that starts. -/
def Sited (g : BlockGraph) (l : Label) (k : BlockId) (position : Nat) : Prop :=
  ∃ i, g.labels.get? l = some i ∧ g.StandsAt i k position

theorem Grown.sited (h : Grown g g') (hl : g.Sited l k position) : g'.Sited l k position := by
  obtain ⟨i, hi, hstands⟩ := hl
  exact ⟨i, h.labels l i hi, h.stands hstands⟩

/-- **A label is placed** that has not been placed before. -/
theorem Charted.onward_label (h : Charted placed named p g) (hg : g.WellBuilt T) (hl : named l)
    (hunplaced : ¬ placed l) (position : Nat) :
    Onward g (g.label l position) ∧ ∃ k, (g.label l position).Sited l k position := by
  obtain ⟨honward, -, -⟩ := hg.onward_blockOf l
  obtain ⟨h', hget⟩ := h.blockOf hg hl
  have hmode := (hg.blockOf l).1.mode
  obtain ⟨hstart, ⟨k, hstands⟩, -⟩ := (h'.fresh hget hunplaced).startBlock hmode h'.led
    position
  refine ⟨honward.trans hstart, k, (g.blockOf l).1, ?_, hstands⟩
  show ((g.blockOf l).2.startBlock (g.blockOf l).1 position).labels.get? l = _
  rw [labels_startBlock _ hmode]
  exact hget

theorem WellBuilt.onward_addHandler (hg : g.WellBuilt T) (r : HandlerRange) :
    Onward g (g.addHandler r) ∧ r ∈ (g.addHandler r).handlers := by
  obtain ⟨hg₁, -⟩ := hg.blockOf r.start
  obtain ⟨hg₂, -⟩ := hg₁.blockOf r.stop
  have hmention : Onward g (g.mention r) :=
    ((hg.onward_blockOf _).1.trans (hg₁.onward_blockOf _).1).trans (hg₂.onward_blockOf _).1
  rw [addHandler_eq]
  exact ⟨hmention.trans (onward_of_sameShape ⟨rfl, fun _ => rfl, fun _ => rfl, fun _ => rfl⟩
    (fun _ => rfl) rfl (fun _ _ => id) fun _ => Array.mem_push_of_mem _), Array.mem_push_self⟩

/-! ## 5. Instructions -/

theorem WellBuilt.onward_leadTo (hg : g.WellBuilt T) (l : Label) :
    Onward g (g.leadTo l) ∧ (g.leadTo l).last = g.last ∧ (g.leadTo l).current = g.current := by
  obtain ⟨honward, hlast, hcurrent⟩ := hg.onward_blockOf l
  have hmark : Onward (g.blockOf l).2 (g.target l).2 :=
    onward_onBlock _ _ (fun _ => ⟨rfl, rfl, rfl⟩) fun _ => rfl
  refine ⟨(honward.trans hmark).trans (onward_addEdge _ _ _), (last_addEdge _ _ _).trans hlast, ?_⟩
  have hedge : ((g.target l).2.addEdge .normal (g.target l).1).current = (g.target l).2.current := by
    unfold BlockGraph.addEdge
    split <;> rfl
  exact hedge.trans hcurrent

theorem WellBuilt.onward_leadToAll (hg : g.WellBuilt T) (ls : List Label) :
    Onward g (ls.foldl (fun g l => g.leadTo l) g) := by
  induction ls generalizing g with
  | nil => exact .refl g
  | cons l ls ih => exact (hg.onward_leadTo l).1.trans (ih (hg.leadTo l))

/-- What an instruction adds to the graph. -/
theorem WellBuilt.onward_afterStep (hg : g.WellBuilt T) (hled : g.Led) (stop : Nat) (around : Bool)
    (i : Instruction Label) : Onward g (g.afterStep stop around i) := by
  cases i
  case simple op =>
    rw [BlockGraph.afterStep]
    split
    · exact hg.onward_endBlock stop
    · exact .refl g
  case jump op goal =>
    obtain ⟨honward, hlast, hcurrent⟩ := hg.onward_leadTo goal
    rw [BlockGraph.afterStep]
    split
    · exact honward.trans ((hg.leadTo goal).onward_endBlock stop)
    · exact honward.trans
        ((hg.leadTo goal).onward_fallThrough (hled.grown honward.toGrown hlast hcurrent) stop around)
  case tableSwitch low high default targets =>
    exact (hg.onward_leadToAll (default :: targets)).trans
      ((hg.leadToAll (default :: targets)).onward_endBlock stop)
  case lookupSwitch default keys targets =>
    exact (hg.onward_leadToAll (default :: targets)).trans
      ((hg.leadToAll (default :: targets)).onward_endBlock stop)
  case int | var | type | field | method | invokeDynamic | constant | increment | multiArray =>
    exact .refl g

/-- The graph with another frame of a block. -/
def withFrame (g : BlockGraph) (c : BlockId) (f : Frame) : BlockGraph :=
  g.onBlock c fun b => { b with frame := some f }

theorem sameShape_withFrame (g : BlockGraph) (c : BlockId) (f : Frame) :
    SameShape g.blocks (g.withFrame c f).blocks :=
  sameShape_onBlock g c fun _ => ⟨rfl, rfl, rfl⟩

theorem frameAt_withFrame {c : BlockId} {f₀ : Frame} (hc : frameAt g.blocks c = some f₀) (f : Frame)
    (j : BlockId) :
    frameAt (g.withFrame c f).blocks j = if c = j then some f else frameAt g.blocks j := by
  rw [frameAt, withFrame, getElem?_onBlock]
  split
  · rename_i hj
    obtain ⟨b, hb, -⟩ := Option.bind_eq_some_iff.1 hc
    rw [← hj, hb]
    rfl
  · rfl

/-- A frame in which constructors may have run on more. -/
theorem grown_withFrame {c : BlockId} {f f' : Frame} (hc : frameAt g.blocks c = some f)
    (hf : f.Prolongs f') : Grown g (g.withFrame c f') where
  labels _ _ := id
  handlers _ := id
  aliases i k hi := ((sameShape_withFrame g c f').sameAs i).trans hi
  passed k hk := by
    have hshape := sameShape_withFrame g c f'
    refine ⟨⟨Nat.lt_of_lt_of_eq hk.lt hshape.size.symm, (hshape.sameAs k).trans hk.first, ?_⟩,
      hshape.positionOf_eq k⟩
    rw [hshape.next]
    exact hk.placed
  frames i f₀ hi := by
    rw [frameAt_withFrame hc]
    split
    · rename_i hci
      subst hci
      obtain rfl := Option.some.inj (hi.symm.trans hc)
      exact ⟨f', rfl, hf⟩
    · exact ⟨f₀, hi, List.prefix_rfl⟩

/-- **An instruction that is not refused** changes the frame of the current block, and then what is
around it. -/
theorem WellBuilt.step_cases {h : Hierarchy} (hT : T.Sound h) (hg : g.WellBuilt T) {start stop : Nat}
    {around : Bool} {i : Instruction Label}
    (hrun : BlockGraph.step start stop around i g T = ((.ok (), g'), T')) :
    (g.current = none ∧ g' = g) ∨ ∃ c f f', g.current = some c ∧ frameAt g.blocks c = some f ∧
      Returns₂ (frameStep start i) f T () f' T' ∧ (g.withFrame c f').WellBuilt T' ∧
      g' = (g.withFrame c f').afterStep stop around i := by
  rw [step_apply hg.mode] at hrun
  rcases hf : BlockGraph.onFrame (frameStep start i) g T with ⟨⟨_ | u, g₁⟩, T₁⟩ <;> rw [hf] at hrun
  · exact nomatch hrun
  · obtain ⟨-, -, hg₁⟩ := hg.onFrame hT (keeps_frameStep start i) hf
    simp only at hrun
    obtain ⟨⟨-, rfl⟩, rfl⟩ := hrun
    cases hc : g.current with
    | none =>
      rw [onFrame_unreached hc] at hf
      cases hf
      exact .inl ⟨rfl, rfl⟩
    | some c =>
      right
      rw [Option.isSome_some, if_pos rfl]
      rcases onFrame_cases hg hf with ⟨hnone, -⟩ | ⟨c', b, f, f', hc', hb, hbf, hact, rfl⟩
      · exact nomatch hc.symm.trans hnone
      · cases hc.symm.trans hc'
        refine ⟨c, f, f', rfl, ?_, hact, hg₁, rfl⟩
        rw [frameAt, hb]
        exact hbf

/-! ## 6. Frames ahead -/

variable {S : BlockId → Frame → Prop}

theorem Charted.ends (h : Charted placed named p g) : nextAt g.blocks g.last = none := by
  obtain ⟨chain, hc⟩ := h.chained
  exact hc.ends

/-- Another frame of a block of which `S` holds. -/
theorem Ahead.withFrame (hS : g.Ahead S) {c : BlockId} {f f' : Frame}
    (hc : frameAt g.blocks c = some f) (hf' : S c f') : (g.withFrame c f').Ahead S := by
  intro j f₀ hf₀ hn
  rw [frameAt_withFrame hc] at hf₀
  split at hf₀
  · rename_i hcj
    exact hcj ▸ Option.some.inj hf₀ ▸ hf'
  · exact hS j f₀ hf₀ (((sameShape_withFrame g c f').next j).symm.trans hn)

/-- **An instruction lets the graph grow.** -/
theorem Charted.grown_step {h : Hierarchy} (hchart : Charted placed named p g) (hT : T.Sound h)
    (hg : g.WellBuilt T) {start stop : Nat} {around : Bool} {i : Instruction Label}
    (hrun : BlockGraph.step start stop around i g T = ((.ok (), g'), T')) : Grown g g' := by
  rcases hg.step_cases hT hrun with ⟨-, rfl⟩ | ⟨c, f, f', -, hf, hact, hg₁, rfl⟩
  · exact .refl g'
  · have hgrown := grown_withFrame hf (Frame.prolongs_frameStep start i _ _ _ _ _ hact)
    have hled := hchart.led.grown hgrown rfl rfl
    exact hgrown.trans (hg₁.onward_afterStep hled stop around i).toGrown

/-- **What an instruction leaves ahead**: in the current block its effect, and else what was there. -/
theorem Charted.ahead_step {h : Hierarchy} (hchart : Charted placed named p g) (hT : T.Sound h)
    (hg : g.WellBuilt T) {start stop : Nat} {around : Bool} {i : Instruction Label}
    (hrun : BlockGraph.step start stop around i g T = ((.ok (), g'), T')) (hempty : ∀ j, S j .empty)
    (hS : g.Ahead S) (hframe : ∀ c f f', g.current = some c → frameAt g.blocks c = some f → S c f →
      Returns₂ (frameStep start i) f T () f' T' → S c f') : g'.Ahead S := by
  rcases hg.step_cases hT hrun with ⟨-, rfl⟩ | ⟨c, f, f', hc, hf, hact, hg₁, rfl⟩
  · exact hS
  · have hgrown := grown_withFrame hf (Frame.prolongs_frameStep start i _ _ _ _ _ hact)
    have hled := hchart.led.grown hgrown rfl rfl
    have hSc : S c f := hS c f hf (hchart.led.current c hc ▸ hchart.ends)
    exact (hg₁.onward_afterStep hled stop around i).keeps hempty
      (hS.withFrame hf (hframe c f f' hc hf hSc hact))

/-- An instruction whose operand is a local leaves all blocks in their places. -/
theorem WellBuilt.sameShape_step_var {h : Hierarchy} (hT : T.Sound h) (hg : g.WellBuilt T)
    {start stop : Nat} {around : Bool} {op : Opcode} {index : UInt16}
    (hrun : BlockGraph.step start stop around (.var op index) g T = ((.ok (), g'), T')) :
    SameShape g.blocks g'.blocks ∧ g'.last = g.last := by
  rcases hg.step_cases hT hrun with ⟨-, rfl⟩ | ⟨c, f, f', -, -, -, -, rfl⟩
  · exact ⟨⟨rfl, fun _ => rfl, fun _ => rfl, fun _ => rfl⟩, rfl⟩
  · exact ⟨sameShape_withFrame g c f', rfl⟩

/-- **A block that ends** can be left out of what is ahead. -/
theorem WellBuilt.ahead_splitAt (hg : g.WellBuilt T) (hled : g.Led) {position : Nat}
    (hpos : g.positionOf g.last ≠ position) (hempty : ∀ j, S j .empty)
    (hS : g.Ahead fun j f => j = g.last ∨ S j f) : (CodeWriter.splitAt position g).Ahead S := by
  obtain ⟨honward, hnext⟩ := hg.onward_splitAt hled position
  intro j f hf hn
  rcases honward.keeps (fun j => .inr (hempty j)) hS j f hf hn with rfl | hSj
  · have hsome := hnext hpos
    rw [hn] at hsome
    exact nomatch hsome
  · exact hSj

end ClassFile.BlockGraph
