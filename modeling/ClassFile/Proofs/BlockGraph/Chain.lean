/-
# The chain of blocks

In a graph with frames the blocks that have been placed form a chain, along which their positions go
up strictly (`Chained`).  Every other block is another name for one of the chain, or is `free`: its
place is not known yet.  Blocks are started and ended at the end of the chain, so each operation
either leaves the chain as it is or makes it longer by one block.

A block is free just if it is that of a label that has not been placed (`Charted`).  When all labels
have been placed, following aliases always leads into the chain (`Charted.first_mem`).
-/
import ClassFile.Proofs.BlockGraph.Build
import Mathlib.Data.List.Chain

namespace ClassFile.BlockGraph

variable {g g' : BlockGraph} {chain : List BlockId} {free : BlockId → Prop} {i j : BlockId}

/-! ## 1. Where blocks are and what they lead to -/

/-- The block behind a block in the chain. -/
def nextAt (blocks : Array Block) (i : BlockId) : Option BlockId := blocks[i]?.bind Block.next

/-- The block that a block is another name for. -/
def aliasAt (blocks : Array Block) (i : BlockId) : Option BlockId := blocks[i]?.bind Block.sameAs

/-- The same blocks in the same places. -/
structure SameShape (blocks blocks' : Array Block) : Prop where
  size : blocks'.size = blocks.size
  position : ∀ i : BlockId, blocks'[i]?.map Block.position = blocks[i]?.map Block.position
  next : ∀ i : BlockId, nextAt blocks' i = nextAt blocks i
  sameAs : ∀ i : BlockId, aliasAt blocks' i = aliasAt blocks i

theorem getElem?_onBlock (g : BlockGraph) (i j : BlockId) (f : Block → Block) :
    (g.onBlock i f).blocks[j]? = if i = j then g.blocks[j]?.map f else g.blocks[j]? :=
  Array.getElem?_modify

/-- What a change of a block does not touch. -/
theorem bind_onBlock {α : Type} {r : Block → Option α} (g : BlockGraph) (i : BlockId)
    {f : Block → Block} (hr : ∀ b, r (f b) = r b) (j : BlockId) :
    (g.onBlock i f).blocks[j]?.bind r = g.blocks[j]?.bind r := by
  rw [getElem?_onBlock]
  split
  · cases g.blocks[j]? with
    | none => rfl
    | some b => exact hr b
  · rfl

theorem onBlock_id (g : BlockGraph) (i : BlockId) : g.onBlock i id = g := by
  obtain ⟨mode, blocks, labels, current, last, height, peak, handlers⟩ := g
  have hid : blocks.modify i id = blocks := by
    apply Array.ext_getElem?
    intro j
    rw [Array.getElem?_modify, Option.map_id_fun, id, ite_self]
  simp only [BlockGraph.onBlock, onBlocks, hid]

/-- A change of a block that leaves it in its place. -/
theorem sameShape_onBlock (g : BlockGraph) (i : BlockId) {f : Block → Block}
    (hf : ∀ b, (f b).position = b.position ∧ (f b).next = b.next ∧ (f b).sameAs = b.sameAs) :
    SameShape g.blocks (g.onBlock i f).blocks := by
  have hread : ∀ {α : Type} (r : Block → α), (∀ b, r (f b) = r b) → ∀ j : BlockId,
      (g.onBlock i f).blocks[j]?.map r = g.blocks[j]?.map r := by
    intro α r hr j
    rw [getElem?_onBlock]
    split
    · rw [Option.map_map]
      exact congrArg (fun r => Option.map r g.blocks[j]?) (funext hr)
    · rfl
  have hjoin : ∀ (r : Block → Option BlockId) (o : Option Block), o.bind r = (o.map r).join :=
    fun r o => by cases o <;> rfl
  refine ⟨size_onBlock g i f, hread _ fun b => (hf b).1, fun j => ?_, fun j => ?_⟩
  · rw [nextAt, nextAt, hjoin, hjoin, hread _ fun b => (hf b).2.1]
  · rw [aliasAt, aliasAt, hjoin, hjoin, hread _ fun b => (hf b).2.2]

theorem SameShape.positionOf_eq (h : SameShape g.blocks g'.blocks) (i : BlockId) :
    g'.positionOf i = g.positionOf i := by
  rw [positionOf, positionOf, h.position]

/-! ## 2. Chains -/

/-- **The placed blocks form a chain**, and every other block is another name for one of it or is
free. -/
structure Chained (free : BlockId → Prop) (chain : List BlockId) (g : BlockGraph) : Prop where
  head : chain.head? = some 0
  last : chain.getLast? = some g.last
  linked : chain.IsChain fun i j => nextAt g.blocks i = some j
  ends : nextAt g.blocks g.last = none
  lt : ∀ i ∈ chain, i < g.blocks.size
  ascending : chain.Pairwise fun i j => g.positionOf i < g.positionOf j
  first : ∀ i ∈ chain, aliasAt g.blocks i = none
  current : ∀ i, g.current = some i → i = g.last
  settled : ∀ i < g.blocks.size, i ∉ chain → ¬ free i → ∃ k ∈ chain, aliasAt g.blocks i = some k
  free : ∀ i, free i → i < g.blocks.size ∧ i ∉ chain ∧ aliasAt g.blocks i = none ∧
    nextAt g.blocks i = none

theorem Chained.last_mem (h : Chained free chain g) : g.last ∈ chain :=
  List.mem_of_getLast? h.last

/-- The last block is behind all others. -/
theorem Chained.le_last (h : Chained free chain g) (hi : i ∈ chain) :
    g.positionOf i ≤ g.positionOf g.last := by
  obtain ⟨init, rfl⟩ := List.getLast?_eq_some_iff.1 h.last
  rcases List.mem_append.1 hi with hi | hi
  · exact Nat.le_of_lt ((List.pairwise_append.1 h.ascending).2.2 i hi _ (List.mem_singleton.2 rfl))
  · exact List.mem_singleton.1 hi ▸ Nat.le_refl _

theorem chained_start : Chained (fun _ => False) [0] (start .frames) where
  head := rfl
  last := rfl
  linked := .singleton 0
  ends := rfl
  lt i hi := by
    rw [List.mem_singleton.1 hi]
    exact Nat.one_pos
  ascending := List.pairwise_singleton _ _
  first i hi := by
    rw [List.mem_singleton.1 hi]
    rfl
  current i hi := by
    cases hi
    rfl
  settled i hi hmem _ := absurd (List.mem_singleton.2 (Nat.lt_one_iff.1 hi)) hmem
  free _ h := h.elim

/-- A change that leaves all blocks in their places. -/
theorem Chained.congr (h : Chained free chain g) (hshape : SameShape g.blocks g'.blocks)
    (hlast : g'.last = g.last) (hcurrent : ∀ i, g'.current = some i → i = g.last) :
    Chained free chain g' where
  head := h.head
  last := hlast ▸ h.last
  linked := h.linked.imp fun i j hij => (hshape.next i).trans hij
  ends := by rw [hlast, hshape.next, h.ends]
  lt i hi := hshape.size ▸ h.lt i hi
  ascending := h.ascending.imp fun hij => by
    rwa [hshape.positionOf_eq, hshape.positionOf_eq]
  first i hi := by rw [hshape.sameAs, h.first i hi]
  current i hi := hlast ▸ hcurrent i hi
  settled i hi hmem hfree := by
    rw [hshape.sameAs]
    exact h.settled i (hshape.size ▸ hi) hmem hfree
  free i hi := by
    obtain ⟨hlt, hmem, ha, hn⟩ := h.free i hi
    rw [hshape.size, hshape.sameAs, hshape.next]
    exact ⟨hlt, hmem, ha, hn⟩

/-- A change of a block that leaves it in its place. -/
theorem Chained.onBlock (h : Chained free chain g) (i : BlockId) {f : Block → Block}
    (hf : ∀ b, (f b).position = b.position ∧ (f b).next = b.next ∧ (f b).sameAs = b.sameAs) :
    Chained free chain (g.onBlock i f) :=
  h.congr (sameShape_onBlock g i hf) rfl h.current

theorem Chained.addEdge (h : Chained free chain g) (kind : EdgeKind) (i : BlockId) :
    Chained free chain (g.addEdge kind i) := by
  unfold BlockGraph.addEdge
  split
  · exact h.onBlock _ fun b => ⟨rfl, rfl, rfl⟩
  · exact h

/-- A new block is free. -/
theorem Chained.newBlock (h : Chained free chain g) (hmode : g.mode = .frames) :
    Chained (fun j => free j ∨ j = g.blocks.size) chain g.newBlock.2 := by
  have hblocks := newBlock_blocks hmode
  have hold : ∀ j < g.blocks.size, g.newBlock.2.blocks[j]? = g.blocks[j]? := by
    intro j hj
    rw [hblocks, Array.getElem?_push, if_neg (Nat.ne_of_lt hj)]
  have hnew : g.newBlock.2.blocks[g.blocks.size]? = some (.empty (some .empty)) := by
    rw [hblocks, Array.getElem?_push, if_pos rfl]
  have hpos : ∀ j < g.blocks.size, g.newBlock.2.positionOf j = g.positionOf j := by
    intro j hj
    rw [positionOf, positionOf, hold j hj]
  have hnext : ∀ j < g.blocks.size, nextAt g.newBlock.2.blocks j = nextAt g.blocks j := by
    intro j hj
    rw [nextAt, nextAt, hold j hj]
  have halias : ∀ j < g.blocks.size, aliasAt g.newBlock.2.blocks j = aliasAt g.blocks j := by
    intro j hj
    rw [aliasAt, aliasAt, hold j hj]
  have hsize : g.newBlock.2.blocks.size = g.blocks.size + 1 := by rw [hblocks, Array.size_push]
  refine ⟨h.head, h.last, ?_, ?_, ?_, ?_, ?_, h.current, ?_, ?_⟩
  · refine List.IsChain.imp_of_mem_imp ?_ h.linked
    intro i j hi _ hij
    rw [hnext i (h.lt i hi), hij]
  · exact (hnext _ (h.lt _ h.last_mem)).trans h.ends
  · exact fun i hi => Nat.lt_of_lt_of_eq (Nat.lt_succ_of_lt (h.lt i hi)) hsize.symm
  · refine h.ascending.imp_of_mem fun hi hj hij => ?_
    rwa [hpos _ (h.lt _ hi), hpos _ (h.lt _ hj)]
  · exact fun i hi => (halias i (h.lt i hi)).trans (h.first i hi)
  · intro i hi hmem hfree
    rw [not_or] at hfree
    have hi' : i < g.blocks.size :=
      Nat.lt_of_le_of_ne (Nat.le_of_lt_succ (Nat.lt_of_lt_of_eq hi hsize)) hfree.2
    rw [halias i hi']
    exact h.settled i hi' hmem hfree.1
  · rintro i (hi | rfl)
    · obtain ⟨hlt, hmem, ha, hn⟩ := h.free i hi
      exact ⟨Nat.lt_of_lt_of_eq (Nat.lt_succ_of_lt hlt) hsize.symm, hmem, (halias i hlt).trans ha,
        (hnext i hlt).trans hn⟩
    · refine ⟨Nat.lt_of_lt_of_eq (Nat.lt_succ_self _) hsize.symm,
        fun hmem => Nat.lt_irrefl _ (h.lt _ hmem), ?_, ?_⟩
      · rw [aliasAt, hnew]
        rfl
      · rw [nextAt, hnew]
        rfl

/-! ## 3. Starting and ending blocks -/

/-- A free block can be given any position. -/
theorem Chained.place (h : Chained free chain g) (hi : free i) (position : Nat) :
    Chained free chain (g.place i position) ∧ (g.place i position).positionOf i = position ∧
      ∀ j ∈ chain, (g.place i position).positionOf j = g.positionOf j := by
  obtain ⟨hlt, hmem, ha, hn⟩ := h.free i hi
  have hread : ∀ {α : Type} (r : Block → Option α),
      (∀ b : Block, r { b with position, isPlaced := true } = r b) → ∀ j : BlockId,
      (g.place i position).blocks[j]?.bind r = g.blocks[j]?.bind r := by
    intro α r hr j
    rw [BlockGraph.place, getElem?_onBlock]
    split
    · cases g.blocks[j]? with
      | none => rfl
      | some b => exact hr b
    · rfl
  have hnext : ∀ j, nextAt (g.place i position).blocks j = nextAt g.blocks j :=
    hread Block.next fun _ => rfl
  have hsame : ∀ j, aliasAt (g.place i position).blocks j = aliasAt g.blocks j :=
    hread Block.sameAs fun _ => rfl
  have hpos : ∀ j ∈ chain, (g.place i position).positionOf j = g.positionOf j := by
    intro j hj
    have hij : i ≠ j := fun hij => hmem (hij ▸ hj)
    rw [positionOf, positionOf, BlockGraph.place, getElem?_onBlock, if_neg hij]
  have hsize : (g.place i position).blocks.size = g.blocks.size := size_place ..
  refine ⟨⟨h.head, h.last, h.linked.imp fun j k hjk => (hnext j).trans hjk,
    (hnext _).trans h.ends, fun j hj => Nat.lt_of_lt_of_eq (h.lt j hj) hsize.symm, ?_,
    fun j hj => (hsame j).trans (h.first j hj), h.current, ?_, ?_⟩, ?_, hpos⟩
  · refine h.ascending.imp_of_mem fun hj hk hjk => ?_
    rwa [hpos _ hj, hpos _ hk]
  · intro j hj hmem hfree
    rw [hsame]
    exact h.settled j (Nat.lt_of_lt_of_eq hj hsize) hmem hfree
  · intro j hj
    obtain ⟨hlt, hmem, ha, hn⟩ := h.free j hj
    exact ⟨Nat.lt_of_lt_of_eq hlt hsize.symm, hmem, (hsame j).trans ha, (hnext j).trans hn⟩
  · rw [positionOf, BlockGraph.place, getElem?_onBlock, if_pos rfl,
      Array.getElem?_eq_getElem hlt]
    rfl

/-- A free block becomes another name for one of the chain. -/
theorem Chained.makeAlias (h : Chained free chain g) (hi : free i) {kept : BlockId}
    (hkept : kept ∈ chain) :
    Chained (fun j => free j ∧ j ≠ i) chain (g.makeAlias i kept) ∧
      ∀ j, (g.makeAlias i kept).positionOf j = g.positionOf j := by
  obtain ⟨hlt, hmem, ha, hn⟩ := h.free i hi
  have hne : i ≠ kept := fun hik => hmem (hik ▸ hkept)
  have h₁ := h.onBlock kept (f := fun b =>
    { b with isTarget := b.isTarget || (g.blocks[i]?.map Block.isTarget).getD false })
    fun b => ⟨rfl, rfl, rfl⟩
  have hpos₁ := (sameShape_onBlock g kept (f := fun b =>
    { b with isTarget := b.isTarget || (g.blocks[i]?.map Block.isTarget).getD false })
    fun b => ⟨rfl, rfl, rfl⟩).positionOf_eq
  unfold BlockGraph.makeAlias
  rw [if_neg hne]
  dsimp only
  generalize (g.onBlock kept fun b =>
    { b with isTarget := b.isTarget || (g.blocks[i]?.map Block.isTarget).getD false }) = g₁ at h₁ hpos₁
  obtain ⟨hlt₁, -, -, hn₁⟩ := h₁.free i hi
  have hother : ∀ j, i ≠ j → (g₁.onBlock i fun b => { b with sameAs := some kept }).blocks[j]? =
      g₁.blocks[j]? := by
    intro j hj
    rw [getElem?_onBlock, if_neg hj]
  have hself : (g₁.onBlock i fun b => { b with sameAs := some kept }).blocks[i]? =
      g₁.blocks[i]?.map fun b => { b with sameAs := some kept } := by
    rw [getElem?_onBlock, if_pos rfl]
  have hnext : ∀ j, nextAt (g₁.onBlock i fun b => { b with sameAs := some kept }).blocks j =
      nextAt g₁.blocks j := by
    intro j
    by_cases hj : i = j
    · subst hj
      rw [nextAt, nextAt, hself]
      cases g₁.blocks[i]? <;> rfl
    · rw [nextAt, nextAt, hother j hj]
  have hsame : ∀ j, i ≠ j → aliasAt (g₁.onBlock i fun b => { b with sameAs := some kept }).blocks j =
      aliasAt g₁.blocks j := by
    intro j hj
    rw [aliasAt, aliasAt, hother j hj]
  have hpos : ∀ j, (g₁.onBlock i fun b => { b with sameAs := some kept }).positionOf j =
      g₁.positionOf j := by
    intro j
    by_cases hj : i = j
    · subst hj
      rw [positionOf, positionOf, hself]
      cases g₁.blocks[i]? <;> rfl
    · rw [positionOf, positionOf, hother j hj]
  have hsize := size_onBlock g₁ i fun b => { b with sameAs := some kept }
  have hne' : ∀ j ∈ chain, i ≠ j := fun j hj hij => hmem (hij ▸ hj)
  refine ⟨⟨h₁.head, h₁.last, h₁.linked.imp fun j k hjk => (hnext j).trans hjk,
    (hnext _).trans h₁.ends, fun j hj => Nat.lt_of_lt_of_eq (h₁.lt j hj) hsize.symm, ?_,
    fun j hj => (hsame j (hne' j hj)).trans (h₁.first j hj), h₁.current, ?_, ?_⟩,
    fun j => (hpos j).trans (hpos₁ j)⟩
  · exact h₁.ascending.imp fun hjk => by rwa [hpos, hpos]
  · intro j hj hmem hfree
    by_cases hij : i = j
    · subst hij
      refine ⟨kept, hkept, ?_⟩
      rw [aliasAt, hself, Array.getElem?_eq_getElem hlt₁]
      rfl
    · rw [hsame j hij]
      exact h₁.settled j (Nat.lt_of_lt_of_eq hj hsize) hmem fun hf => hfree ⟨hf, Ne.symm hij⟩
  · rintro j ⟨hj, hij⟩
    obtain ⟨hlt, hmem, ha, hn⟩ := h₁.free j hj
    exact ⟨Nat.lt_of_lt_of_eq hlt hsize.symm, hmem, (hsame j (Ne.symm hij)).trans ha,
      (hnext j).trans hn⟩

/-- A free block behind all others of the chain becomes its last one. -/
theorem Chained.append (h : Chained free chain g) (hi : free i)
    (hpos : g.positionOf g.last < g.positionOf i) (current : Option BlockId)
    (hcurrent : ∀ j, current = some j → j = i) :
    Chained (fun j => free j ∧ j ≠ i) (chain ++ [i]) (BlockGraph.append i { g with current := current }) ∧
      ∀ j, (BlockGraph.append i { g with current := current }).positionOf j = g.positionOf j := by
  obtain ⟨hlt, hmem, ha, hn⟩ := h.free i hi
  have hne : g.last ≠ i := fun hli => hmem (hli ▸ h.last_mem)
  have hblocks : (BlockGraph.append i { g with current := current }).blocks =
      (g.onBlock g.last fun b => { b with next := some i }).blocks := rfl
  have hother : ∀ j, g.last ≠ j → (BlockGraph.append i { g with current := current }).blocks[j]? =
      g.blocks[j]? := by
    intro j hj
    rw [hblocks, getElem?_onBlock, if_neg hj]
  have hself : (BlockGraph.append i { g with current := current }).blocks[g.last]? =
      g.blocks[g.last]?.map fun b => { b with next := some i } := by
    rw [hblocks, getElem?_onBlock, if_pos rfl]
  have hsame : ∀ j, aliasAt (BlockGraph.append i { g with current := current }).blocks j =
      aliasAt g.blocks j := by
    intro j
    by_cases hj : g.last = j
    · subst hj
      rw [aliasAt, aliasAt, hself]
      cases g.blocks[g.last]? <;> rfl
    · rw [aliasAt, aliasAt, hother j hj]
  have hpos' : ∀ j, (BlockGraph.append i { g with current := current }).positionOf j = g.positionOf j := by
    intro j
    by_cases hj : g.last = j
    · subst hj
      rw [positionOf, positionOf, hself]
      cases g.blocks[g.last]? <;> rfl
    · rw [positionOf, positionOf, hother j hj]
  have hnext : ∀ j, g.last ≠ j → nextAt (BlockGraph.append i { g with current := current }).blocks j =
      nextAt g.blocks j := by
    intro j hj
    rw [nextAt, nextAt, hother j hj]
  have hlast : nextAt (BlockGraph.append i { g with current := current }).blocks g.last = some i := by
    rw [nextAt, hself, Array.getElem?_eq_getElem (h.lt _ h.last_mem)]
    rfl
  have hsize : (BlockGraph.append i { g with current := current }).blocks.size = g.blocks.size :=
    size_onBlock ..
  refine ⟨⟨?_, List.getLast?_concat, ?_, (hnext i hne).trans hn, ?_, ?_, ?_, hcurrent, ?_, ?_⟩,
    hpos'⟩
  · rw [List.head?_append, h.head]
    rfl
  · refine List.isChain_append.2 ⟨?_, .singleton i, ?_⟩
    · refine List.IsChain.imp_of_mem_imp ?_ h.linked
      intro j k _ _ hjk
      have hlj : g.last ≠ j := by
        rintro rfl
        rw [h.ends] at hjk
        exact nomatch hjk
      rw [hnext j hlj, hjk]
    · intro j hj k hk
      rw [h.last, Option.mem_some_iff] at hj
      rw [List.head?_cons, Option.mem_some_iff] at hk
      rw [← hj, ← hk, hlast]
  · intro j hj
    rw [hsize]
    rcases List.mem_append.1 hj with hj | hj
    · exact h.lt j hj
    · exact List.mem_singleton.1 hj ▸ hlt
  · refine List.pairwise_append.2 ⟨h.ascending.imp fun hjk => by rwa [hpos', hpos'],
      List.pairwise_singleton _ _, fun j hj k hk => ?_⟩
    rw [hpos', hpos', List.mem_singleton.1 hk]
    exact Nat.lt_of_le_of_lt (h.le_last hj) hpos
  · intro j hj
    rw [hsame]
    rcases List.mem_append.1 hj with hj | hj
    · exact h.first j hj
    · exact List.mem_singleton.1 hj ▸ ha
  · intro j hj hmem' hfree
    rw [List.mem_append, not_or, List.mem_singleton] at hmem'
    rw [hsame]
    obtain ⟨k, hk, hjk⟩ := h.settled j (Nat.lt_of_lt_of_eq hj hsize) hmem'.1
      fun hf => hfree ⟨hf, hmem'.2⟩
    exact ⟨k, List.mem_append_left _ hk, hjk⟩
  · rintro j ⟨hj, hij⟩
    obtain ⟨hlt, hmem, ha, hn⟩ := h.free j hj
    have hlj : g.last ≠ j := fun hlj => hmem (hlj ▸ h.last_mem)
    refine ⟨Nat.lt_of_lt_of_eq hlt hsize.symm, ?_, (hsame j).trans ha, (hnext j hlj).trans hn⟩
    rw [List.mem_append, List.mem_singleton]
    exact fun hmem' => hmem'.elim hmem hij

theorem Chained.of_free {free' : BlockId → Prop} (h : Chained free chain g)
    (hfree : ∀ i, free i ↔ free' i) : Chained free' chain g :=
  funext (fun i => propext (hfree i)) ▸ h

/-- The current block is the last one of the chain, so it can be gone on in. -/
theorem Chained.withCurrent (h : Chained free chain g) {current : Option BlockId}
    (hcurrent : ∀ i, current = some i → i = g.last) :
    Chained free chain { g with current := current } :=
  h.congr ⟨rfl, fun _ => rfl, fun _ => rfl, fun _ => rfl⟩ rfl hcurrent

/-- **A free block is entered behind the others**, or as another name for the last one. -/
theorem Chained.enter (h : Chained free chain g) (hi : free i) {position : Nat}
    (hat : g.positionOf i = position) (hpos : g.positionOf g.last ≤ position) :
    ∃ chain', Chained (fun j => free j ∧ j ≠ i) chain' (g.enter i position) ∧
      (g.enter i position).positionOf (g.enter i position).last = position := by
  have hne : g.last ≠ i := fun hli => (h.free i hi).2.1 (hli ▸ h.last_mem)
  unfold BlockGraph.enter
  dsimp only
  by_cases heq : g.positionOf g.last = position
  · rw [if_pos ⟨hne, heq⟩]
    obtain ⟨h', hpos'⟩ := h.makeAlias hi h.last_mem
    have hlast : (g.makeAlias i g.last).last = g.last := by
      unfold BlockGraph.makeAlias
      split <;> rfl
    refine ⟨chain, h'.withCurrent ?_, ?_⟩
    · rintro j ⟨⟩
      exact hlast.symm
    · show (g.makeAlias i g.last).positionOf (g.makeAlias i g.last).last = position
      rw [hlast, hpos', heq]
  · rw [if_neg fun hand => heq hand.2]
    obtain ⟨h', hpos'⟩ := h.append hi (hat.symm ▸ Nat.lt_of_le_of_ne hpos heq) (some i)
      fun j hj => (Option.some.inj hj).symm
    exact ⟨chain ++ [i], h', (hpos' i).trans hat⟩

theorem last_addEdge (g : BlockGraph) (kind : EdgeKind) (i : BlockId) :
    (g.addEdge kind i).last = g.last := by
  unfold BlockGraph.addEdge
  split <;> rfl

theorem positionOf_addEdge (g : BlockGraph) (kind : EdgeKind) (i j : BlockId) :
    (g.addEdge kind i).positionOf j = g.positionOf j := by
  unfold BlockGraph.addEdge
  split
  · exact (sameShape_onBlock g _ (f := Block.addEdge ⟨kind, i⟩)
      fun b => ⟨rfl, rfl, rfl⟩).positionOf_eq j
  · rfl

/-- **A free block is started**, not before the last block. -/
theorem Chained.startBlock (h : Chained free chain g) (hmode : g.mode = .frames) (hi : free i)
    {position : Nat} (hpos : g.positionOf g.last ≤ position) :
    ∃ chain', Chained (fun j => free j ∧ j ≠ i) chain' (g.startBlock i position) ∧
      (g.startBlock i position).positionOf (g.startBlock i position).last = position := by
  obtain ⟨hplace, hat, hold⟩ := h.place hi position
  have hlast : (g.place i position).last = g.last := rfl
  have hpos' : (g.place i position).positionOf (g.place i position).last ≤ position := by
    rw [hlast, hold _ h.last_mem]
    exact hpos
  have hmode' : (g.place i position).mode = .frames := hmode
  unfold BlockGraph.startBlock
  generalize g.place i position = g₁ at hplace hat hpos' hmode'
  simp only [hmode']
  split
  · rename_i current hcurrent
    cases hplace.current current hcurrent
    split
    · rename_i heq
      obtain ⟨h', hkept⟩ := hplace.makeAlias hi hplace.last_mem
      refine ⟨chain, h', ?_⟩
      have hlast' : (g₁.makeAlias i g₁.last).last = g₁.last := by
        unfold BlockGraph.makeAlias
        split <;> rfl
      rw [hlast', hkept, heq]
    · refine (hplace.addEdge .normal i).enter hi ?_ ?_
      · rw [positionOf_addEdge, hat]
      · rw [last_addEdge, positionOf_addEdge]
        exact hpos'
  · exact hplace.enter hi hat hpos'

/-- A new block is started, not before the last block. -/
theorem Chained.startNew (h : Chained free chain g) (hmode : g.mode = .frames) {f : Block → Block}
    (hf : ∀ b, (f b).position = b.position ∧ (f b).next = b.next ∧ (f b).sameAs = b.sameAs)
    {position : Nat} (hpos : g.positionOf g.last ≤ position) :
    ∃ chain', Chained free chain'
        ((g.newBlock.2.onBlock g.newBlock.1 f).startBlock g.newBlock.1 position) ∧
      ((g.newBlock.2.onBlock g.newBlock.1 f).startBlock g.newBlock.1 position).positionOf
        ((g.newBlock.2.onBlock g.newBlock.1 f).startBlock g.newBlock.1 position).last =
          position := by
  have hnew := h.newBlock hmode
  have hlast : (g.newBlock.2.onBlock g.newBlock.1 f).positionOf
      (g.newBlock.2.onBlock g.newBlock.1 f).last = g.positionOf g.last := by
    rw [(sameShape_onBlock g.newBlock.2 g.newBlock.1 hf).positionOf_eq]
    show g.newBlock.2.positionOf g.last = g.positionOf g.last
    rw [positionOf, positionOf, newBlock_blocks hmode, Array.getElem?_push,
      if_neg (Nat.ne_of_lt (h.lt _ h.last_mem))]
  obtain ⟨chain', h', hpos'⟩ := (hnew.onBlock g.newBlock.1 hf).startBlock hmode (.inr rfl)
    (hlast ▸ hpos)
  refine ⟨chain', h'.of_free fun j => ⟨fun hj => hj.1.elim id fun heq => absurd heq hj.2,
    fun hj => ⟨.inl hj, Nat.ne_of_lt (h.free j hj).1⟩⟩, hpos'⟩

/-- **The current block is ended**, behind the start of the last block. -/
theorem Chained.endBlock (h : Chained free chain g) (hmode : g.mode = .frames) {stop : Nat}
    (hpos : g.positionOf g.last < stop) :
    ∃ chain', Chained free chain' (g.endBlock stop) ∧
      (g.endBlock stop).positionOf (g.endBlock stop).last = stop := by
  obtain ⟨hplace, hat, hold⟩ := (h.newBlock hmode).place (.inr rfl) stop
  have hlast : (g.newBlock.2.place g.blocks.size stop).positionOf
      (g.newBlock.2.place g.blocks.size stop).last = g.positionOf g.last := by
    show (g.newBlock.2.place g.blocks.size stop).positionOf g.last = g.positionOf g.last
    rw [hold _ h.last_mem, positionOf, positionOf, newBlock_blocks hmode, Array.getElem?_push,
      if_neg (Nat.ne_of_lt (h.lt _ h.last_mem))]
  obtain ⟨h', hpos'⟩ := hplace.append (.inr rfl) (by rw [hlast, hat]; exact hpos) none
    fun j hj => nomatch hj
  have heq : g.endBlock stop = BlockGraph.append g.blocks.size
      { g.newBlock.2.place g.blocks.size stop with current := none } := by
    unfold BlockGraph.endBlock
    rw [hmode]
    rfl
  rw [heq]
  refine ⟨chain ++ [g.blocks.size], h'.of_free fun j => ?_, (hpos' _).trans hat⟩
  exact ⟨fun hj => hj.1.elim id fun heq => absurd heq hj.2,
    fun hj => ⟨.inl hj, Nat.ne_of_lt (h.free j hj).1⟩⟩

/-! ## 4. Labels on the way -/

variable {T : TypeTable} {placed named : Label → Prop} {p : Nat} {l : Label}

/-- The blocks of labels that have not been placed. -/
def Unplaced (g : BlockGraph) (placed : Label → Prop) (i : BlockId) : Prop :=
  ∃ l, g.labels.get? l = some i ∧ ¬ placed l

/-- **The free blocks are those of labels that have not been placed**, and nothing has been placed
behind the offset `p`.  All labels that the graph knows of are `named`. -/
structure Charted (placed named : Label → Prop) (p : Nat) (g : BlockGraph) : Prop where
  chained : ∃ chain, Chained (g.Unplaced placed) chain g
  behind : g.positionOf g.last ≤ p
  known : ∀ l, placed l → (g.labels.get? l).isSome = true
  named : ∀ l i, g.labels.get? l = some i → named l
  injective : ∀ l l' i, g.labels.get? l = some i → g.labels.get? l' = some i → l = l'

theorem get?_start (l : Label) : (start .frames).labels.get? l = none := by
  refine InternTable.linked_empty.get?_eq_none_iff.2 ?_
  rw [InternTable.toList_empty]
  exact List.not_mem_nil

theorem charted_start : Charted (fun _ => False) named 0 (start .frames) where
  chained := by
    refine ⟨[0], chained_start.of_free fun i => ⟨False.elim, ?_⟩⟩
    rintro ⟨l, hl, -⟩
    rw [get?_start] at hl
    exact nomatch hl
  behind := Nat.le_refl 0
  known _ h := h.elim
  named l i hl := by
    rw [get?_start] at hl
    exact nomatch hl
  injective l l' i hl := by
    rw [get?_start] at hl
    exact nomatch hl

/-- An operation that knows nothing about labels. -/
theorem Charted.of_chained (h : Charted placed named p g) (hlabels : g'.labels = g.labels) {q : Nat}
    (hchain : ∀ chain, Chained (g.Unplaced placed) chain g →
      ∃ chain', Chained (g.Unplaced placed) chain' g')
    (hbehind : g'.positionOf g'.last ≤ q) : Charted placed named q g' := by
  obtain ⟨chain, hc⟩ := h.chained
  obtain ⟨chain', hc'⟩ := hchain chain hc
  refine ⟨⟨chain', hc'.of_free fun i => ?_⟩, hbehind, ?_, ?_, ?_⟩
  · rw [Unplaced, Unplaced, hlabels]
  · exact hlabels ▸ h.known
  · exact hlabels ▸ h.named
  · exact hlabels ▸ h.injective

theorem Charted.mono (h : Charted placed named p g) {named' : Label → Prop} {q : Nat}
    (hnamed : ∀ l, named l → named' l) (hq : p ≤ q) : Charted placed named' q g :=
  ⟨h.chained, Nat.le_trans h.behind hq, h.known, fun l i hl => hnamed l (h.named l i hl),
    h.injective⟩

/-- A change of a block that leaves it in its place. -/
theorem Charted.onBlock (h : Charted placed named p g) (i : BlockId) {f : Block → Block}
    (hf : ∀ b, (f b).position = b.position ∧ (f b).next = b.next ∧ (f b).sameAs = b.sameAs) :
    Charted placed named p (g.onBlock i f) := by
  refine h.of_chained (by rfl) (fun chain hc => ⟨chain, hc.onBlock i hf⟩) ?_
  rw [(sameShape_onBlock g i hf).positionOf_eq]
  exact h.behind

theorem Charted.addEdge (h : Charted placed named p g) (kind : EdgeKind) (i : BlockId) :
    Charted placed named p (g.addEdge kind i) := by
  unfold BlockGraph.addEdge
  split
  · exact h.onBlock _ fun b => ⟨rfl, rfl, rfl⟩
  · exact h

/-- The labels when a new block is that of a label on its first mention. -/
theorem WellBuilt.get?_bind_newBlock (hg : g.WellBuilt T) (hl : g.labels.get? l = none)
    (k : Label) : (g.newBlock.2.bind l g.blocks.size).labels.get? k =
      if k = l then some g.blocks.size else g.labels.get? k := by
  show (g.labels.insert l g.blocks.size).2.get? k = _
  rw [hg.labels_linked.get?_insert, hl]
  rfl

/-- **The block of a label**, which is free on the first mention. -/
theorem Charted.blockOf (h : Charted placed named p g) (hg : g.WellBuilt T) (hl : named l) :
    Charted placed named p (g.blockOf l).2 ∧
      (g.blockOf l).2.labels.get? l = some (g.blockOf l).1 := by
  unfold BlockGraph.blockOf
  cases hget : g.labels.get? l with
  | some i => exact ⟨h, hget⟩
  | none =>
    have hfresh : ¬ placed l := fun hp => by
      have hknown := h.known l hp
      rw [hget] at hknown
      exact nomatch hknown
    have hget' := hg.get?_bind_newBlock hget
    have hlt : ∀ k i, g.labels.get? k = some i → i ≠ g.blocks.size := fun k i hk =>
      Nat.ne_of_lt (hg.label_lt k i hk)
    obtain ⟨chain, hc⟩ := h.chained
    show Charted placed named p (g.newBlock.2.bind l g.blocks.size) ∧
      (g.newBlock.2.bind l g.blocks.size).labels.get? l = some g.blocks.size
    refine ⟨⟨⟨chain, ?_⟩, ?_, ?_, ?_, ?_⟩, ?_⟩
    · have hnew : Chained _ chain (g.newBlock.2.bind l g.blocks.size) :=
        (hc.newBlock hg.mode).congr ⟨rfl, fun _ => rfl, fun _ => rfl, fun _ => rfl⟩ rfl
          (hc.newBlock hg.mode).current
      refine hnew.of_free fun i => ⟨?_, ?_⟩
      · rintro (⟨k, hk, hp⟩ | rfl)
        · refine ⟨k, ?_, hp⟩
          rw [hget', if_neg, hk]
          rintro rfl
          rw [hget] at hk
          exact nomatch hk
        · exact ⟨l, by rw [hget', if_pos rfl], hfresh⟩
      · rintro ⟨k, hk, hp⟩
        rw [hget'] at hk
        split at hk
        · exact .inr (Option.some.inj hk).symm
        · exact .inl ⟨k, hk, hp⟩
    · show g.newBlock.2.positionOf g.last ≤ p
      rw [positionOf, newBlock_blocks hg.mode, Array.getElem?_push,
        if_neg (Nat.ne_of_lt hg.last_lt)]
      exact h.behind
    · intro k hk
      rw [hget']
      split
      · rfl
      · exact h.known k hk
    · intro k i hk
      rw [hget'] at hk
      split at hk
      · rename_i hkl
        exact hkl ▸ hl
      · exact h.named k i hk
    · intro k k' i hk hk'
      rw [hget'] at hk hk'
      split at hk <;> split at hk'
      · rename_i h₁ h₂
        rw [h₁, h₂]
      · exact absurd (Option.some.inj hk).symm (hlt _ _ hk')
      · exact absurd (Option.some.inj hk').symm (hlt _ _ hk)
      · exact h.injective k k' i hk hk'
    · rw [hget', if_pos rfl]

/-- A block that starts leaves what labels and handlers there are. -/
theorem tables_startBlock (g : BlockGraph) (hmode : g.mode = .frames) (i : BlockId)
    (position : Nat) : (g.startBlock i position).labels = g.labels ∧
      (g.startBlock i position).handlers = g.handlers := by
  have halias : ∀ (g : BlockGraph) (i kept : BlockId), (g.makeAlias i kept).labels = g.labels ∧
      (g.makeAlias i kept).handlers = g.handlers := by
    intro g i kept
    unfold BlockGraph.makeAlias
    split <;> exact ⟨rfl, rfl⟩
  have henter : ∀ (g : BlockGraph) (i : BlockId), (g.enter i position).labels = g.labels ∧
      (g.enter i position).handlers = g.handlers := by
    intro g i
    unfold BlockGraph.enter
    dsimp only
    split
    · exact halias g i g.last
    · exact ⟨rfl, rfl⟩
  have hedge : ∀ (g : BlockGraph) (i : BlockId), (g.addEdge .normal i).labels = g.labels ∧
      (g.addEdge .normal i).handlers = g.handlers := by
    intro g i
    unfold BlockGraph.addEdge
    split <;> exact ⟨rfl, rfl⟩
  unfold BlockGraph.startBlock
  have hmode' : (g.place i position).mode = .frames := hmode
  simp only [hmode']
  split
  · split
    · exact halias (g.place i position) i _
    · exact ⟨(henter _ i).1.trans (hedge (g.place i position) i).1,
        (henter _ i).2.trans (hedge (g.place i position) i).2⟩
  · exact henter (g.place i position) i

theorem labels_startBlock (g : BlockGraph) (hmode : g.mode = .frames) (i : BlockId)
    (position : Nat) : (g.startBlock i position).labels = g.labels :=
  (tables_startBlock g hmode i position).1

/-- **A label is placed** that has not been placed before. -/
theorem Charted.label (h : Charted placed named p g) (hg : g.WellBuilt T) (hl : named l)
    (hfresh : ¬ placed l) {position : Nat} (hp : p ≤ position) :
    Charted (fun k => placed k ∨ k = l) named position (g.label l position) := by
  obtain ⟨h', hget⟩ := h.blockOf hg hl
  have hmode := (hg.blockOf l).1.mode
  unfold BlockGraph.label
  rcases hb : g.blockOf l with ⟨i, g₁⟩
  rw [hb] at h' hget hmode
  have hlabels := labels_startBlock g₁ hmode i position
  obtain ⟨chain, hc⟩ := h'.chained
  obtain ⟨chain', hc', hat⟩ := hc.startBlock hmode ⟨l, hget, hfresh⟩ (Nat.le_trans h'.behind hp)
  refine ⟨⟨chain', hc'.of_free fun j => ?_⟩, Nat.le_of_eq hat, ?_, ?_, ?_⟩
  · rw [Unplaced, Unplaced, hlabels]
    constructor
    · rintro ⟨⟨k, hk, hp⟩, hj⟩
      refine ⟨k, hk, not_or.2 ⟨hp, ?_⟩⟩
      rintro rfl
      exact hj (Option.some.inj (hk.symm.trans hget))
    · rintro ⟨k, hk, hp⟩
      rw [not_or] at hp
      refine ⟨⟨k, hk, hp.1⟩, ?_⟩
      rintro rfl
      exact hp.2 (h'.injective k l j hk hget)
  · rintro k (hk | rfl)
    · exact hlabels ▸ h'.known k hk
    · rw [hlabels, hget]
      rfl
  · exact hlabels ▸ h'.named
  · exact hlabels ▸ h'.injective

/-! ## 5. Operations -/

/-- A block starts without a label. -/
theorem Charted.startNew (h : Charted placed named p g) (hmode : g.mode = .frames)
    {f : Block → Block}
    (hf : ∀ b, (f b).position = b.position ∧ (f b).next = b.next ∧ (f b).sameAs = b.sameAs)
    {position : Nat} (hp : p ≤ position) :
    Charted placed named position
      ((g.newBlock.2.onBlock g.newBlock.1 f).startBlock g.newBlock.1 position) := by
  have hpos := Nat.le_trans h.behind hp
  obtain ⟨chain, hc⟩ := h.chained
  obtain ⟨-, -, hat⟩ := hc.startNew hmode hf hpos
  refine h.of_chained ?_ (fun chain hc => (hc.startNew hmode hf hpos).imp fun _ h => h.1)
    (Nat.le_of_eq hat)
  exact labels_startBlock (g.newBlock.2.onBlock g.newBlock.1 f) hmode _ position

theorem Charted.splitAt (h : Charted placed named p g) (hmode : g.mode = .frames)
    {position : Nat} (hp : p ≤ position) :
    Charted placed named position (CodeWriter.splitAt position g) := by
  have hnew := h.startNew hmode (f := id) (fun _ => ⟨rfl, rfl, rfl⟩) hp
  rw [onBlock_id] at hnew
  exact hnew

theorem Charted.fallThrough (h : Charted placed named p g) (hmode : g.mode = .frames)
    {stop : Nat} (hp : p ≤ stop) (isTarget : Bool) :
    Charted placed named stop (g.fallThrough stop isTarget) := by
  unfold BlockGraph.fallThrough
  cases isTarget with
  | false => exact h.splitAt hmode hp
  | true =>
    exact h.startNew hmode (f := fun b => { b with isTarget := true })
      (fun _ => ⟨rfl, rfl, rfl⟩) hp

theorem Charted.endBlock (h : Charted placed named p g) (hmode : g.mode = .frames) {stop : Nat}
    (hp : p < stop) : Charted placed named stop (g.endBlock stop) := by
  have hpos := Nat.lt_of_le_of_lt h.behind hp
  obtain ⟨chain, hc⟩ := h.chained
  obtain ⟨-, -, hat⟩ := hc.endBlock hmode hpos
  refine h.of_chained ?_ (fun chain hc => (hc.endBlock hmode hpos).imp fun _ h => h.1)
    (Nat.le_of_eq hat)
  unfold BlockGraph.endBlock
  rw [hmode]
  rfl

theorem Charted.leadTo (h : Charted placed named p g) (hg : g.WellBuilt T) (hl : named l) :
    Charted placed named p (g.leadTo l) :=
  ((h.blockOf hg hl).1.onBlock _ (f := fun b => { b with isTarget := true })
    fun _ => ⟨rfl, rfl, rfl⟩).addEdge _ _

theorem Charted.leadToAll (h : Charted placed named p g) (hg : g.WellBuilt T) {ls : List Label}
    (hls : ∀ l ∈ ls, named l) :
    Charted placed named p (ls.foldl (fun g l => g.leadTo l) g) := by
  induction ls generalizing g with
  | nil => exact h
  | cons l ls ih =>
    exact ih (h.leadTo hg (hls l List.mem_cons_self)) (hg.leadTo l)
      fun l' hl' => hls l' (List.mem_cons_of_mem _ hl')

theorem Charted.addHandler (h : Charted placed named p g) (hg : g.WellBuilt T) {r : HandlerRange}
    (hstart : named r.start) (hstop : named r.stop) (hhandler : named r.handler) :
    Charted placed named p (g.addHandler r) := by
  obtain ⟨hg₁, -⟩ := hg.blockOf r.start
  obtain ⟨hg₂, -⟩ := hg₁.blockOf r.stop
  have hm : Charted placed named p (g.mention r) :=
    (((h.blockOf hg hstart).1.blockOf hg₁ hstop).1.blockOf hg₂ hhandler).1
  rw [addHandler_eq]
  exact hm.of_chained (by rfl)
    (fun chain hc => ⟨chain, hc.congr ⟨rfl, fun _ => rfl, fun _ => rfl, fun _ => rfl⟩ rfl
      hc.current⟩) hm.behind

/-- What an instruction adds to the graph. -/
theorem Charted.afterStep (h : Charted placed named p g) (hg : g.WellBuilt T) {stop : Nat}
    (hp : p < stop) (around : Bool) {i : Instruction Label} (hi : ∀ l ∈ i.targets, named l) :
    Charted placed named stop (g.afterStep stop around i) := by
  have hidle := h.mono (fun _ hl => hl) (Nat.le_of_lt hp)
  cases i
  case simple op =>
    rw [BlockGraph.afterStep]
    split
    · exact h.endBlock hg.mode hp
    · exact hidle
  case jump op goal =>
    have hlead := h.leadTo hg (hi goal List.mem_cons_self)
    rw [BlockGraph.afterStep]
    split
    · exact hlead.endBlock (hg.leadTo goal).mode hp
    · exact hlead.fallThrough (hg.leadTo goal).mode (Nat.le_of_lt hp) around
  case tableSwitch low high default targets =>
    exact (h.leadToAll hg hi).endBlock (hg.leadToAll (default :: targets)).mode hp
  case lookupSwitch default keys targets =>
    exact (h.leadToAll hg hi).endBlock (hg.leadToAll (default :: targets)).mode hp
  case int | var | type | field | method | invokeDynamic | constant | increment | multiArray =>
    exact hidle

/-- **An instruction behind those before it**, which takes at least one byte. -/
theorem Charted.step (hT : T.Sound h) (hc : Charted placed named p g) (hg : g.WellBuilt T)
    {start stop : Nat} (hp : p < stop) (around : Bool) {i : Instruction Label}
    (hi : ∀ l ∈ i.targets, named l) {r : Except Error Unit}
    (hrun : step start stop around i g T = ((r, g'), T')) : Charted placed named stop g' := by
  rw [step_apply hg.mode] at hrun
  rcases hf : BlockGraph.onFrame (frameStep start i) g T with ⟨⟨rf, g₁⟩, T₁⟩
  obtain ⟨-, -, hg₁⟩ := hg.onFrame hT (keeps_frameStep start i) hf
  have hc₁ : Charted placed named p g₁ := by
    rcases onFrame_cases hg hf with ⟨-, -, rfl, -⟩ | ⟨j, b, f, f', -, -, -, -, rfl⟩
    · exact hc
    · exact hc.onBlock j fun _ => ⟨rfl, rfl, rfl⟩
  have hidle := hc₁.mono (fun _ hl => hl) (Nat.le_of_lt hp)
  rw [hf] at hrun
  cases rf with
  | error e =>
    cases hrun
    exact hidle
  | ok u =>
    simp only at hrun
    obtain ⟨⟨-, rfl⟩, rfl⟩ := hrun
    split
    · exact hc₁.afterStep hg₁ hp around hi
    · exact hidle

/-! ## 6. Complete graphs -/

/-- A linked list of blocks is read off from its first one. -/
theorem chainFrom_eq {blocks : Array Block} {chain : List BlockId} {i : BlockId}
    (hhead : chain.head? = some i)
    (hlinked : chain.IsChain fun i j => nextAt blocks i = some j)
    (hends : ∀ j, chain.getLast? = some j → nextAt blocks j = none) {limit : Nat}
    (hlimit : chain.length ≤ limit) : chainFrom blocks limit (some i) = chain := by
  induction limit generalizing chain i with
  | zero =>
    rw [List.length_eq_zero_iff.1 (Nat.le_zero.1 hlimit)] at hhead
    exact nomatch hhead
  | succ limit ih =>
    rcases chain with _ | ⟨j, chain⟩
    · exact nomatch hhead
    · cases hhead
      rcases chain with _ | ⟨k, chain⟩
      · have hnone : blocks[i]?.bind Block.next = none := hends i rfl
        rw [chainFrom, hnone]
        cases limit <;> rfl
      · obtain ⟨hnext, hrest⟩ := List.isChain_cons_cons.1 hlinked
        have hsome : blocks[i]?.bind Block.next = some k := hnext
        rw [chainFrom, hsome, ih rfl hrest (fun j hj => hends j (by rwa [List.getLast?_cons_cons]))
          (Nat.le_of_succ_le_succ hlimit)]

/-- The chain as it is read off from one of its blocks. -/
theorem chain_of_append {front behind : List BlockId}
    (hlinked : chain.IsChain fun i j => nextAt g.blocks i = some j)
    (hends : ∀ j, chain.getLast? = some j → nextAt g.blocks j = none)
    (hlt : ∀ j ∈ chain, j < g.blocks.size) (hnodup : chain.Nodup)
    (hchain : chain = front ++ i :: behind) : g.chain i = i :: behind := by
  subst hchain
  refine chainFrom_eq rfl (List.isChain_append.1 hlinked).2.1 (fun j hj => ?_) ?_
  · refine hends j ?_
    rw [List.getLast?_append, hj]
    rfl
  · have hall : i :: behind ⊆ List.range g.blocks.size := fun j hj =>
      List.mem_range.2 (hlt j (List.mem_append_right _ hj))
    have hlen := ((List.nodup_append.1 hnodup).2.1.subperm hall).length_le
    rwa [List.length_range] at hlen

theorem Chained.nodup (h : Chained free chain g) : chain.Nodup := by
  refine List.Pairwise.imp ?_ h.ascending
  intro i j hij heq
  exact Nat.lt_irrefl _ (heq ▸ hij)

theorem Chained.chain_of_append (h : Chained free chain g) {front behind : List BlockId}
    (hchain : chain = front ++ i :: behind) : g.chain i = i :: behind := by
  refine BlockGraph.chain_of_append h.linked (fun j hj => ?_) h.lt h.nodup hchain
  obtain rfl := Option.some.inj (h.last.symm.trans hj)
  exact h.ends

/-- **The chain as it is read off from the entry.** -/
theorem Chained.chain_eq (h : Chained free chain g) : g.chain 0 = chain := by
  have hchain : 0 :: chain.tail = chain := List.cons_head?_tail h.head
  have hfront : chain = [] ++ 0 :: chain.tail := hchain.symm
  exact (h.chain_of_append hfront).trans hchain

/-- A block that is no other name stands for itself. -/
theorem follow_of_first {blocks : Array Block} (hi : aliasAt blocks i = none) (limit : Nat) :
    follow blocks limit i = i := by
  cases limit with
  | zero => rfl
  | succ limit =>
    have hnone : blocks[i]?.bind Block.sameAs = none := hi
    rw [follow, hnone]

/-- The block that stands for another one. -/
theorem follow_of_alias {blocks : Array Block} (hij : aliasAt blocks i = some j)
    (hj : aliasAt blocks j = none) (limit : Nat) : follow blocks (limit + 1) i = j := by
  have hsome : blocks[i]?.bind Block.sameAs = some j := hij
  rw [follow, hsome]
  exact follow_of_first hj limit

/-- Where nothing is free, following aliases leads into the chain. -/
theorem Chained.first_mem (h : Chained free chain g) (hfree : ∀ i, ¬ free i)
    (hi : i < g.blocks.size) : g.first i ∈ chain := by
  by_cases hmem : i ∈ chain
  · rw [BlockGraph.first, follow_of_first (h.first i hmem)]
    exact hmem
  · obtain ⟨k, hk, hik⟩ := h.settled i hi hmem (hfree i)
    rw [BlockGraph.first, follow_of_alias hik (h.first k hk)]
    exact hk

/-- What stands for a block stands for itself. -/
theorem Charted.first_first (h : Charted placed named p g) (hi : i < g.blocks.size) :
    g.first (g.first i) = g.first i := by
  obtain ⟨chain, hc⟩ := h.chained
  have hself : ∀ {k}, aliasAt g.blocks k = none → g.first k = k := fun hk => follow_of_first hk _
  by_cases hmem : i ∈ chain
  · rw [hself (hc.first i hmem), hself (hc.first i hmem)]
  by_cases hfree : g.Unplaced placed i
  · have hnone := (hc.free i hfree).2.2.1
    rw [hself hnone, hself hnone]
  · obtain ⟨k, hk, hik⟩ := hc.settled i hi hmem hfree
    have hfirst : g.first i = k := follow_of_alias hik (hc.first k hk) _
    rw [hfirst, hself (hc.first k hk)]

end ClassFile.BlockGraph
