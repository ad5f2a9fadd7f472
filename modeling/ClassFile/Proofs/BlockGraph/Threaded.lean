/-
# Graphs without ways back

In a graph with frames nothing leads back, whatever operations it was built by, as long as no label
was placed twice (`WellBuilt.operate`).

* Only a block that has no place yet is put behind the last one, and from then on it has a place.
  So the blocks that are behind a block become no fewer, and `next` never leads back (`Threaded`).
* An alias leads to a block of the chain, and no block of the chain is an alias.
* The blocks that have no place yet are those of labels that have not been placed (`Mapped`).

Nothing is asked of positions: blocks may follow each other at one position, which a chain with
ascending positions (`Chained`) does not allow.
-/
import ClassFile.Proofs.BlockGraph.Chain

namespace ClassFile

namespace BlockGraph

variable {g g' : BlockGraph} {free : BlockId → Prop} {i j : BlockId} {T T' : TypeTable}

/-! ## 1. Nothing leads back -/

/-- **Nothing leads back.**  The blocks that are `free` have no place in the chain yet; the walks
along `next` and along aliases meet only others. -/
structure Threaded (free : BlockId → Prop) (g : BlockGraph) : Prop where
  falls : ∃ rank : BlockId → Nat, ∀ i j, nextAt g.blocks i = some j → rank j < rank i
  next : ∀ i j, nextAt g.blocks i = some j → ¬ free i ∧ ¬ free j ∧ j < g.blocks.size
  sameAs : ∀ i j, aliasAt g.blocks i = some j →
    ¬ free i ∧ ¬ free j ∧ aliasAt g.blocks j = none ∧ j < g.blocks.size
  last : ¬ free g.last ∧ aliasAt g.blocks g.last = none
  current : ∀ i, g.current = some i → i = g.last

variable {mode : ComputeMode}

theorem threaded_start : Threaded (fun _ => False) (start mode) := by
  have hnone : ∀ i : BlockId, nextAt (start mode).blocks i = none ∧
      aliasAt (start mode).blocks i = none := by
    intro i
    cases i <;> exact ⟨rfl, rfl⟩
  refine ⟨⟨fun _ => 0, fun i j hij => ?_⟩, fun i j hij => ?_, fun i j hij => ?_,
    ⟨id, (hnone 0).2⟩, fun i hi => ?_⟩
  · exact nomatch (hnone i).1 ▸ hij
  · exact nomatch (hnone i).1 ▸ hij
  · exact nomatch (hnone i).2 ▸ hij
  · cases hi
    rfl

/-- A change that leads nowhere else. -/
theorem Threaded.congr (h : Threaded free g) (hsize : g.blocks.size ≤ g'.blocks.size)
    (hnext : ∀ i, nextAt g'.blocks i = nextAt g.blocks i)
    (halias : ∀ i, aliasAt g'.blocks i = aliasAt g.blocks i) (hlast : g'.last = g.last)
    (hcurrent : ∀ i, g'.current = some i → i = g.last) : Threaded free g' where
  falls := h.falls.imp fun rank hrank i j hij => hrank i j (hnext i ▸ hij)
  next i j hij := by
    obtain ⟨hi, hj, hlt⟩ := h.next i j (hnext i ▸ hij)
    exact ⟨hi, hj, Nat.lt_of_lt_of_le hlt hsize⟩
  sameAs i j hij := by
    obtain ⟨hi, hj, hnone, hlt⟩ := h.sameAs i j (halias i ▸ hij)
    exact ⟨hi, hj, (halias j).trans hnone, Nat.lt_of_lt_of_le hlt hsize⟩
  last := hlast ▸ ⟨h.last.1, (halias g.last).trans h.last.2⟩
  current i hi := hlast ▸ hcurrent i hi

theorem Threaded.of_free {free' : BlockId → Prop} (h : Threaded free g)
    (hfree : ∀ i, free i ↔ free' i) : Threaded free' g :=
  funext (fun i => propext (hfree i)) ▸ h

theorem Threaded.withCurrent (h : Threaded free g) {current : Option BlockId}
    (hcurrent : ∀ i, current = some i → i = g.last) :
    Threaded free { g with current := current } :=
  h.congr (Nat.le_refl _) (fun _ => rfl) (fun _ => rfl) rfl hcurrent

theorem nextAt_onBlock (g : BlockGraph) (i : BlockId) {f : Block → Block}
    (hf : ∀ b, (f b).next = b.next) (j : BlockId) :
    nextAt (g.onBlock i f).blocks j = nextAt g.blocks j := bind_onBlock g i hf j

theorem aliasAt_onBlock (g : BlockGraph) (i : BlockId) {f : Block → Block}
    (hf : ∀ b, (f b).sameAs = b.sameAs) (j : BlockId) :
    aliasAt (g.onBlock i f).blocks j = aliasAt g.blocks j := bind_onBlock g i hf j

theorem Threaded.onBlock (h : Threaded free g) (i : BlockId) {f : Block → Block}
    (hf : ∀ b, (f b).next = b.next ∧ (f b).sameAs = b.sameAs) : Threaded free (g.onBlock i f) :=
  h.congr (Nat.le_of_eq (size_onBlock g i f).symm) (nextAt_onBlock g i fun b => (hf b).1)
    (aliasAt_onBlock g i fun b => (hf b).2) rfl h.current

theorem Threaded.addEdge (h : Threaded free g) (kind : EdgeKind) (i : BlockId) :
    Threaded free (g.addEdge kind i) := by
  unfold BlockGraph.addEdge
  split
  · exact h.onBlock _ fun _ => ⟨rfl, rfl⟩
  · exact h

/-- A new block is free. -/
theorem Threaded.newBlock (h : Threaded free g) (hlt : g.last < g.blocks.size) :
    Threaded (fun j => free j ∨ j = g.blocks.size) g.newBlock.2 := by
  have hread : ∀ {r : Block → Option BlockId}, (∀ frame, r (.empty frame) = none) → ∀ j : BlockId,
      g.newBlock.2.blocks[j]?.bind r = g.blocks[j]?.bind r := by
    intro r hr j
    show (g.blocks.push _)[j]?.bind r = _
    rw [Array.getElem?_push]
    split
    · rename_i hj
      rw [hj, Array.getElem?_eq_none (Nat.le_refl _), Option.bind_some, hr, Option.bind_none]
    · rfl
  have hnext : ∀ j, nextAt g.newBlock.2.blocks j = nextAt g.blocks j := hread fun _ => rfl
  have halias : ∀ j, aliasAt g.newBlock.2.blocks j = aliasAt g.blocks j := hread fun _ => rfl
  have hsize : g.blocks.size ≤ g.newBlock.2.blocks.size :=
    Nat.le_of_lt (Nat.lt_of_lt_of_eq (Nat.lt_succ_self _) (Array.size_push _).symm)
  have hne : ∀ {r : Block → Option BlockId} {i j : BlockId}, g.blocks[i]?.bind r = some j →
      i ≠ g.blocks.size := by
    rintro r i j hij rfl
    rw [Array.getElem?_eq_none (Nat.le_refl _)] at hij
    exact nomatch hij
  obtain ⟨hlast, hfirst⟩ := h.last
  refine ⟨h.falls.imp fun rank hrank i j hij => hrank i j (hnext i ▸ hij), ?_, ?_,
    ⟨not_or.2 ⟨hlast, Nat.ne_of_lt hlt⟩, (halias _).trans hfirst⟩, h.current⟩
  · intro i j hij
    rw [hnext] at hij
    obtain ⟨hi, hj, hjlt⟩ := h.next i j hij
    exact ⟨not_or.2 ⟨hi, hne hij⟩, not_or.2 ⟨hj, Nat.ne_of_lt hjlt⟩, Nat.lt_of_lt_of_le hjlt hsize⟩
  · intro i j hij
    rw [halias] at hij
    obtain ⟨hi, hj, hnone, hjlt⟩ := h.sameAs i j hij
    exact ⟨not_or.2 ⟨hi, hne hij⟩, not_or.2 ⟨hj, Nat.ne_of_lt hjlt⟩, (halias j).trans hnone,
      Nat.lt_of_lt_of_le hjlt hsize⟩

/-- A free block becomes another name for the last one. -/
theorem Threaded.rename (h : Threaded free g) (hlast : g.last < g.blocks.size) (hi : free i) :
    Threaded (fun j => free j ∧ j ≠ i)
      (g.onBlock i fun b => { b with sameAs := some g.last }) := by
  have hne : g.last ≠ i := fun heq => h.last.1 (heq.symm ▸ hi)
  have hnext := nextAt_onBlock g i (f := fun b => { b with sameAs := some g.last }) fun _ => rfl
  have hsize := size_onBlock g i fun b => { b with sameAs := some g.last }
  have hother : ∀ j, j ≠ i → aliasAt (g.onBlock i fun b =>
      { b with sameAs := some g.last }).blocks j = aliasAt g.blocks j := by
    intro j hj
    rw [aliasAt, aliasAt, getElem?_onBlock, if_neg (Ne.symm hj)]
  have hself : ∀ k, aliasAt (g.onBlock i fun b => { b with sameAs := some g.last }).blocks i =
      some k → k = g.last := by
    intro k hk
    rw [aliasAt, getElem?_onBlock, if_pos rfl] at hk
    obtain ⟨b, hb, hk⟩ := Option.bind_eq_some_iff.1 hk
    obtain ⟨c, -, rfl⟩ := Option.map_eq_some_iff.1 hb
    exact (Option.some.inj hk).symm
  refine ⟨h.falls.imp fun rank hrank j k hjk => hrank j k (hnext j ▸ hjk), ?_, ?_,
    ⟨fun hand => h.last.1 hand.1, (hother g.last hne).trans h.last.2⟩, h.current⟩
  · intro j k hjk
    obtain ⟨hj, hk, hlt⟩ := h.next j k (hnext j ▸ hjk)
    exact ⟨fun hand => hj hand.1, fun hand => hk hand.1, Nat.lt_of_lt_of_eq hlt hsize.symm⟩
  · intro j k hjk
    by_cases hji : j = i
    · subst hji
      obtain rfl := hself k hjk
      exact ⟨fun hand => hand.2 rfl, fun hand => h.last.1 hand.1,
        (hother g.last hne).trans h.last.2, Nat.lt_of_lt_of_eq hlast hsize.symm⟩
    · obtain ⟨hj, hk, hnone, hlt⟩ := h.sameAs j k (hother j hji ▸ hjk)
      exact ⟨fun hand => hj hand.1, fun hand => hk hand.1,
        (hother k fun hki => hk (hki.symm ▸ hi)).trans hnone, Nat.lt_of_lt_of_eq hlt hsize.symm⟩

theorem Threaded.makeAlias (h : Threaded free g) (hg : g.WellBuilt T) (hi : free i) :
    Threaded (fun j => free j ∧ j ≠ i) (g.makeAlias i g.last) := by
  have hne : i ≠ g.last := fun heq => h.last.1 (heq ▸ hi)
  unfold BlockGraph.makeAlias
  rw [if_neg hne]
  exact (h.onBlock g.last (f := fun b =>
      { b with isTarget := b.isTarget || (g.blocks[i]?.map Block.isTarget).getD false })
      fun _ => ⟨rfl, rfl⟩).rename (Nat.lt_of_lt_of_eq hg.last_lt (size_onBlock ..).symm) hi

/-- **A free block becomes the last one.** -/
theorem Threaded.append (h : Threaded free g) (hi : free i) (hlt : i < g.blocks.size)
    {current : Option BlockId} (hcurrent : ∀ j, current = some j → j = i) :
    Threaded (fun j => free j ∧ j ≠ i) (BlockGraph.append i { g with current := current }) := by
  have hne : g.last ≠ i := fun heq => h.last.1 (heq.symm ▸ hi)
  have hblocks : (BlockGraph.append i { g with current := current }).blocks =
      (g.onBlock g.last fun b => { b with next := some i }).blocks := rfl
  have halias := aliasAt_onBlock g g.last (f := fun b => { b with next := some i }) fun _ => rfl
  have hsize := size_onBlock g g.last fun b => { b with next := some i }
  have hother : ∀ j, j ≠ g.last → nextAt (g.onBlock g.last fun b =>
      { b with next := some i }).blocks j = nextAt g.blocks j := by
    intro j hj
    rw [nextAt, nextAt, getElem?_onBlock, if_neg (Ne.symm hj)]
  have hself : ∀ k, nextAt (g.onBlock g.last fun b =>
      { b with next := some i }).blocks g.last = some k → k = i := by
    intro k hk
    rw [nextAt, getElem?_onBlock, if_pos rfl] at hk
    obtain ⟨b, hb, hk⟩ := Option.bind_eq_some_iff.1 hk
    obtain ⟨c, -, rfl⟩ := Option.map_eq_some_iff.1 hb
    exact (Option.some.inj hk).symm
  have hsame : aliasAt g.blocks i = none := by
    cases ha : aliasAt g.blocks i with
    | none => rfl
    | some k => exact absurd hi (h.sameAs i k ha).1
  obtain ⟨rank, hrank⟩ := h.falls
  refine ⟨⟨fun j => if j = i then 0 else rank j + 1, fun j k hjk => ?_⟩, fun j k hjk => ?_,
    fun j k hjk => ?_, ⟨fun hand => hand.2 rfl, (halias i).trans hsame⟩, hcurrent⟩
  · rw [hblocks] at hjk
    dsimp only
    by_cases hj : j = g.last
    · subst hj
      rw [hself k hjk, if_pos rfl, if_neg hne]
      exact Nat.succ_pos _
    · rw [hother j hj] at hjk
      obtain ⟨hjfree, hkfree, -⟩ := h.next j k hjk
      rw [if_neg fun hki : k = i => hkfree (hki ▸ hi), if_neg fun hji : j = i => hjfree (hji ▸ hi)]
      exact Nat.succ_lt_succ (hrank j k hjk)
  · rw [hblocks] at hjk ⊢
    by_cases hj : j = g.last
    · subst hj
      obtain rfl := hself k hjk
      exact ⟨fun hand => h.last.1 hand.1, fun hand => hand.2 rfl,
        Nat.lt_of_lt_of_eq hlt hsize.symm⟩
    · rw [hother j hj] at hjk
      obtain ⟨hjfree, hkfree, hklt⟩ := h.next j k hjk
      exact ⟨fun hand => hjfree hand.1, fun hand => hkfree hand.1,
        Nat.lt_of_lt_of_eq hklt hsize.symm⟩
  · obtain ⟨hj, hk, hnone, hklt⟩ := h.sameAs j k (halias j ▸ hjk)
    exact ⟨fun hand => hj hand.1, fun hand => hk hand.1, (halias k).trans hnone,
      Nat.lt_of_lt_of_eq hklt hsize.symm⟩

/-! ## 2. Starting and ending blocks -/

theorem last_makeAlias (g : BlockGraph) (i kept : BlockId) : (g.makeAlias i kept).last = g.last := by
  unfold BlockGraph.makeAlias
  split <;> rfl

/-- **A free block is started**, wherever that is. -/
theorem Threaded.startBlock (h : Threaded free g) (hg : g.WellBuilt T) (hi : free i)
    (hlt : i < g.blocks.size) (position : Nat) :
    Threaded (fun j => free j ∧ j ≠ i) (g.startBlock i position) := by
  have henter : ∀ {g : BlockGraph}, Threaded free g → g.WellBuilt T → i < g.blocks.size →
      Threaded (fun j => free j ∧ j ≠ i) (g.enter i position) := by
    intro g h hg hlt
    unfold BlockGraph.enter
    dsimp only
    split
    · refine (h.makeAlias hg hi).withCurrent ?_
      rintro j ⟨⟩
      exact (last_makeAlias g i g.last).symm
    · exact h.append hi hlt fun j hj => (Option.some.inj hj).symm
  have hplace : Threaded free (g.place i position) := h.onBlock i fun _ => ⟨rfl, rfl⟩
  have hlt' : i < (g.place i position).blocks.size := Nat.lt_of_lt_of_eq hlt (size_place ..).symm
  have hg' := hg.place i position
  unfold BlockGraph.startBlock
  generalize g.place i position = g₁ at hplace hlt' hg'
  simp only [hg'.mode]
  split
  · rename_i current hcurrent
    split
    · cases hplace.current current hcurrent
      exact hplace.makeAlias hg' hi
    · exact henter (hplace.addEdge .normal i)
        (hg'.addEdge ⟨hlt', by rintro t ⟨⟩⟩) (Nat.lt_of_lt_of_eq hlt' (size_addEdge ..).symm)
  · exact henter hplace hg' hlt'

/-- What is free when a new block has got a place. -/
theorem free_newBlock (hfree : ∀ j, free j → j < g.blocks.size) (j : BlockId) :
    (free j ∨ j = g.blocks.size) ∧ j ≠ g.blocks.size ↔ free j :=
  ⟨fun hj => hj.1.elim id fun heq => absurd heq hj.2,
    fun hj => ⟨.inl hj, Nat.ne_of_lt (hfree j hj)⟩⟩

theorem Threaded.startNew (h : Threaded free g) (hg : g.WellBuilt T)
    (hfree : ∀ j, free j → j < g.blocks.size) {f : Block → Block}
    (hf : ∀ b, (f b).next = b.next ∧ (f b).sameAs = b.sameAs)
    (hg' : (g.newBlock.2.onBlock g.newBlock.1 f).WellBuilt T) (position : Nat) :
    Threaded free ((g.newBlock.2.onBlock g.newBlock.1 f).startBlock g.newBlock.1 position) :=
  (((h.newBlock hg.last_lt).onBlock g.newBlock.1 hf).startBlock hg' (.inr rfl)
    (Nat.lt_of_lt_of_eq hg.newBlock.2.1 (size_onBlock ..).symm) position).of_free
    (free_newBlock hfree)

theorem Threaded.splitAt (h : Threaded free g) (hg : g.WellBuilt T)
    (hfree : ∀ j, free j → j < g.blocks.size) (position : Nat) :
    Threaded free (CodeWriter.splitAt position g) :=
  ((h.newBlock hg.last_lt).startBlock hg.newBlock.1 (.inr rfl) hg.newBlock.2.1 position).of_free
    (free_newBlock hfree)

theorem Threaded.endBlock (h : Threaded free g) (hg : g.WellBuilt T)
    (hfree : ∀ j, free j → j < g.blocks.size) (stop : Nat) : Threaded free (g.endBlock stop) := by
  have hplace : Threaded (fun j => free j ∨ j = g.blocks.size)
      (g.newBlock.2.place g.blocks.size stop) :=
    (h.newBlock hg.last_lt).onBlock g.blocks.size fun _ => ⟨rfl, rfl⟩
  have heq : g.endBlock stop = BlockGraph.append g.blocks.size
      { g.newBlock.2.place g.blocks.size stop with current := none } := by
    unfold BlockGraph.endBlock
    rw [hg.mode]
    rfl
  rw [heq]
  exact (hplace.append (.inr rfl) (Nat.lt_of_lt_of_eq hg.newBlock.2.1 (size_place ..).symm)
    fun j (hj : none = some j) => nomatch hj).of_free (free_newBlock hfree)

/-! ## 3. Labels on the way -/

variable {placed : Label → Prop} {l : Label}

/-- **The free blocks are those of labels that have not been placed.** -/
structure Mapped (placed : Label → Prop) (g : BlockGraph) : Prop where
  threaded : Threaded (g.Unplaced placed) g
  known : ∀ l, placed l → (g.labels.get? l).isSome = true
  injective : ∀ l l' i, g.labels.get? l = some i → g.labels.get? l' = some i → l = l'

theorem mapped_start : Mapped (fun _ => False) (start mode) where
  threaded := threaded_start.of_free fun i => ⟨False.elim, by
    rintro ⟨l, hl, -⟩
    exact nomatch (get?_start l).symm.trans hl⟩
  known _ h := h.elim
  injective l l' i hl := nomatch (get?_start l).symm.trans hl

theorem Unplaced.lt (hg : g.WellBuilt T) (hi : g.Unplaced placed i) : i < g.blocks.size := by
  obtain ⟨l, hl, -⟩ := hi
  exact hg.label_lt l i hl

/-- An operation that knows nothing about labels. -/
theorem Mapped.of_threaded (h : Mapped placed g) (hlabels : g'.labels = g.labels)
    (hthreaded : Threaded (g.Unplaced placed) g') : Mapped placed g' where
  threaded := hthreaded.of_free fun i => by rw [Unplaced, Unplaced, hlabels]
  known := hlabels ▸ h.known
  injective := hlabels ▸ h.injective

theorem Mapped.onBlock (h : Mapped placed g) (i : BlockId) {f : Block → Block}
    (hf : ∀ b, (f b).next = b.next ∧ (f b).sameAs = b.sameAs) : Mapped placed (g.onBlock i f) :=
  h.of_threaded rfl (h.threaded.onBlock i hf)

theorem Mapped.addEdge (h : Mapped placed g) (kind : EdgeKind) (i : BlockId) :
    Mapped placed (g.addEdge kind i) := by
  unfold BlockGraph.addEdge
  split
  · exact h.onBlock _ fun _ => ⟨rfl, rfl⟩
  · exact h

/-- Labels and the last block of the chain lead to blocks that are there. -/
structure Indexed (g : BlockGraph) : Prop where
  labels_linked : g.labels.Linked
  label_lt : ∀ l i, g.labels.get? l = some i → i < g.blocks.size
  last_lt : g.last < g.blocks.size

theorem WellBuilt.indexed (hg : g.WellBuilt T) : g.Indexed :=
  ⟨hg.labels_linked, hg.label_lt, hg.last_lt⟩

/-- A label may be given the block that has just been added. -/
theorem Indexed.blockOf (hg : g.Indexed) (l : Label) : (g.blockOf l).2.Indexed := by
  unfold BlockGraph.blockOf
  cases hget : g.labels.get? l with
  | some i => exact hg
  | none =>
    have hsize : (g.newBlock.2.bind l g.newBlock.1).blocks.size = g.blocks.size + 1 :=
      Array.size_push _
    refine ⟨hg.labels_linked.insert l _, fun k i hk => ?_, ?_⟩
    · have hk : (g.labels.insert l g.blocks.size).2.get? k = some i := hk
      rw [hg.labels_linked.get?_insert, hget] at hk
      rw [hsize]
      split at hk
      · cases hk
        exact Nat.lt_succ_self _
      · exact Nat.lt_succ_of_lt (hg.label_lt k i hk)
    · exact hsize ▸ Nat.lt_succ_of_lt hg.last_lt

/-- **The block of a label**, which is free on the first mention. -/
theorem Mapped.blockOf (h : Mapped placed g) (hg : g.Indexed) (l : Label) :
    Mapped placed (g.blockOf l).2 ∧ (g.blockOf l).2.labels.get? l = some (g.blockOf l).1 := by
  unfold BlockGraph.blockOf
  cases hget : g.labels.get? l with
  | some i => exact ⟨h, hget⟩
  | none =>
    have hfresh : ¬ placed l := fun hp => by
      have hknown := h.known l hp
      rw [hget] at hknown
      exact nomatch hknown
    have hget' : ∀ k, (g.newBlock.2.bind l g.blocks.size).labels.get? k =
        if k = l then some g.blocks.size else g.labels.get? k := by
      intro k
      show (g.labels.insert l g.blocks.size).2.get? k = _
      rw [hg.labels_linked.get?_insert, hget]
      rfl
    have hne : ∀ k, g.labels.get? k ≠ some g.blocks.size := fun k hk =>
      Nat.lt_irrefl _ (hg.label_lt k _ hk)
    have hnewBlock := h.threaded.newBlock hg.last_lt
    show Mapped placed (g.newBlock.2.bind l g.blocks.size) ∧
      (g.newBlock.2.bind l g.blocks.size).labels.get? l = some g.blocks.size
    refine ⟨⟨?_, fun k hk => ?_, fun k k' i hk hk' => ?_⟩, by rw [hget', if_pos rfl]⟩
    · have hnew : Threaded _ (g.newBlock.2.bind l g.blocks.size) :=
        hnewBlock.congr (Nat.le_refl _) (fun _ => rfl) (fun _ => rfl) rfl hnewBlock.current
      refine hnew.of_free fun i => ⟨?_, ?_⟩
      · rintro (⟨k, hk, hp⟩ | rfl)
        · refine ⟨k, ?_, hp⟩
          rw [hget', if_neg, hk]
          rintro rfl
          exact nomatch hget.symm.trans hk
        · exact ⟨l, by rw [hget', if_pos rfl], hfresh⟩
      · rintro ⟨k, hk, hp⟩
        rw [hget'] at hk
        split at hk
        · exact .inr (Option.some.inj hk).symm
        · exact .inl ⟨k, hk, hp⟩
    · rw [hget']
      split
      · rfl
      · exact h.known k hk
    · rw [hget'] at hk hk'
      split at hk <;> split at hk'
      · rename_i h₁ h₂
        rw [h₁, h₂]
      · exact absurd (hk'.trans hk.symm) (hne k')
      · exact absurd (hk.trans hk'.symm) (hne k)
      · exact h.injective k k' i hk hk'

/-- **The block of a label gets a place**, and no other one. -/
theorem Mapped.settle (h : Mapped placed g) (hget : g.labels.get? l = some i) (hfresh : ¬ placed l)
    (hlabels : g'.labels = g.labels)
    (hthreaded : Threaded (fun j => g.Unplaced placed j ∧ j ≠ i) g') :
    Mapped (fun k => placed k ∨ k = l) g' := by
  refine ⟨hthreaded.of_free fun j => ?_, ?_, hlabels ▸ h.injective⟩
  · rw [Unplaced, Unplaced, hlabels]
    constructor
    · rintro ⟨⟨k, hk, hp⟩, hj⟩
      refine ⟨k, hk, not_or.2 ⟨hp, ?_⟩⟩
      rintro rfl
      exact hj (Option.some.inj (hk.symm.trans hget))
    · rintro ⟨k, hk, hp⟩
      rw [not_or] at hp
      refine ⟨⟨k, hk, hp.1⟩, ?_⟩
      rintro rfl
      exact hp.2 (h.injective k l j hk hget)
  · rintro k (hk | rfl)
    · exact hlabels ▸ h.known k hk
    · rw [hlabels, hget]
      rfl

/-- **A label is placed** that has not been placed before. -/
theorem Mapped.label (h : Mapped placed g) (hg : g.WellBuilt T) (hfresh : ¬ placed l)
    (position : Nat) : Mapped (fun k => placed k ∨ k = l) (g.label l position) := by
  obtain ⟨h', hget⟩ := h.blockOf hg.indexed l
  obtain ⟨hg', hlt⟩ := hg.blockOf l
  unfold BlockGraph.label
  rcases hb : g.blockOf l with ⟨i, g₁⟩
  rw [hb] at h' hget hg' hlt
  exact h'.settle hget hfresh (labels_startBlock g₁ hg'.mode i position)
    (h'.threaded.startBlock hg' ⟨l, hget, hfresh⟩ hlt position)

theorem Mapped.splitAt (h : Mapped placed g) (hg : g.WellBuilt T) (position : Nat) :
    Mapped placed (CodeWriter.splitAt position g) :=
  h.of_threaded (labels_startBlock g.newBlock.2 hg.newBlock.1.mode g.newBlock.1 position)
    (h.threaded.splitAt hg (fun _ hi => hi.lt hg) position)

theorem Mapped.fallThrough (h : Mapped placed g) (hg : g.WellBuilt T) (stop : Nat)
    (isTarget : Bool) : Mapped placed (g.fallThrough stop isTarget) := by
  unfold BlockGraph.fallThrough
  cases isTarget with
  | false => exact h.splitAt hg stop
  | true =>
    have hg' := hg.newBlock.1.markTarget g.newBlock.1
    exact h.of_threaded (labels_startBlock _ hg'.mode _ stop)
      (h.threaded.startNew hg (fun _ hi => hi.lt hg) (f := fun b => { b with isTarget := true })
        (fun _ => ⟨rfl, rfl⟩) hg' stop)

theorem Mapped.endBlock (h : Mapped placed g) (hg : g.WellBuilt T) (stop : Nat) :
    Mapped placed (g.endBlock stop) := by
  refine h.of_threaded ?_ (h.threaded.endBlock hg (fun _ hi => hi.lt hg) stop)
  unfold BlockGraph.endBlock
  rw [hg.mode]
  rfl

theorem Mapped.leadTo (h : Mapped placed g) (hg : g.WellBuilt T) (l : Label) :
    Mapped placed (g.leadTo l) :=
  ((h.blockOf hg.indexed l).1.onBlock _ (f := fun b => { b with isTarget := true })
    fun _ => ⟨rfl, rfl⟩).addEdge _ _

theorem Mapped.leadToAll (h : Mapped placed g) (hg : g.WellBuilt T) (ls : List Label) :
    Mapped placed (ls.foldl (fun g l => g.leadTo l) g) := by
  induction ls generalizing g with
  | nil => exact h
  | cons l ls ih => exact ih (h.leadTo hg l) (hg.leadTo l)

theorem Mapped.addHandler (h : Mapped placed g) (hg : g.Indexed) (r : HandlerRange) :
    Mapped placed (g.addHandler r) := by
  have hg₁ := hg.blockOf r.start
  have hg₂ := hg₁.blockOf r.stop
  have hm : Mapped placed (g.mention r) :=
    (((h.blockOf hg r.start).1.blockOf hg₁ r.stop).1.blockOf hg₂ r.handler).1
  rw [addHandler_eq]
  exact hm.of_threaded rfl (hm.threaded.congr (Nat.le_refl _) (fun _ => rfl) (fun _ => rfl) rfl
    hm.threaded.current)

/-- What an instruction adds to the graph. -/
theorem Mapped.afterStep (h : Mapped placed g) (hg : g.WellBuilt T) (stop : Nat) (around : Bool)
    (i : Instruction Label) : Mapped placed (g.afterStep stop around i) := by
  cases i
  case simple op =>
    rw [BlockGraph.afterStep]
    split
    · exact h.endBlock hg stop
    · exact h
  case jump op goal =>
    rw [BlockGraph.afterStep]
    split
    · exact (h.leadTo hg goal).endBlock (hg.leadTo goal) stop
    · exact (h.leadTo hg goal).fallThrough (hg.leadTo goal) stop around
  case tableSwitch low high default targets =>
    exact (h.leadToAll hg (default :: targets)).endBlock (hg.leadToAll (default :: targets)) stop
  case lookupSwitch default keys targets =>
    exact (h.leadToAll hg (default :: targets)).endBlock (hg.leadToAll (default :: targets)) stop
  case int | var | type | field | method | invokeDynamic | constant | increment | multiArray =>
    exact h

theorem Mapped.onFrame (h : Mapped placed g) (hg : g.WellBuilt T) {act : FrameM Unit}
    {r : Except Error Unit} (hrun : onFrame act g T = ((r, g'), T')) : Mapped placed g' := by
  rcases onFrame_cases hg hrun with ⟨-, -, rfl, -⟩ | ⟨j, b, f, f', -, -, -, -, rfl⟩
  · exact h
  · exact h.onBlock j fun _ => ⟨rfl, rfl⟩

end BlockGraph

/-! ## 4. Operations -/

/-- Each label is placed once at most by these, and not before them. -/
structure PlacesOnce {α : Type} (placed? : α → Option Label) (placed : Label → Prop) (es : List α) :
    Prop where
  fresh : ∀ l ∈ es.filterMap placed?, ¬ placed l
  nodup : (es.filterMap placed?).Nodup

section PlacesOnce

variable {α : Type} {placed? : α → Option Label} {placed : Label → Prop} {e : α} {es es' : List α}

theorem mem_placed_cons (placed? : α → Option Label) (e : α) (es : List α) (l : Label) :
    l ∈ (e :: es).filterMap placed? ↔ placed? e = some l ∨ l ∈ es.filterMap placed? := by
  simp only [List.mem_filterMap, List.mem_cons, or_and_right, exists_or, exists_eq_left]

theorem PlacesOnce.cons (h : PlacesOnce placed? placed (e :: es)) :
    (∀ l, placed? e = some l → ¬ placed l) ∧
      PlacesOnce placed? (fun l => placed l ∨ placed? e = some l) es := by
  refine ⟨fun l hl => h.fresh l ((mem_placed_cons placed? e es l).2 (.inl hl)), ?_,
    h.nodup.sublist ((List.sublist_cons_self e es).filterMap _)⟩
  rintro l hl (hp | hl')
  · exact h.fresh l ((mem_placed_cons placed? e es l).2 (.inr hl)) hp
  · have hnodup := h.nodup
    rw [List.filterMap_cons_some hl'] at hnodup
    exact (List.nodup_cons.1 hnodup).1 hl

theorem PlacesOnce.append (h : PlacesOnce placed? placed (es ++ es')) :
    PlacesOnce placed? placed es ∧
      PlacesOnce placed? (fun l => placed l ∨ l ∈ es.filterMap placed?) es' := by
  obtain ⟨hfresh, hnodup⟩ := h
  rw [List.filterMap_append] at hfresh hnodup
  obtain ⟨hfront, hbehind, hdisjoint⟩ := List.nodup_append.1 hnodup
  refine ⟨⟨fun l hl => hfresh l (List.mem_append_left _ hl), hfront⟩, ?_, hbehind⟩
  rintro l hl (hp | hl')
  · exact hfresh l (List.mem_append_right _ hl) hp
  · exact hdisjoint l hl' l hl rfl

end PlacesOnce

/-- What a graph is built by: the events of a method that is written, and switches, which may have
any opcode here. -/
inductive GraphOperation where
  | event (e : GraphEvent)
  | switch (op : Opcode) (targets : List Label) (stop : Nat)

namespace GraphOperation

/-- What an operation does to a graph. -/
def act : GraphOperation → GraphM Unit
  | event e => e.act
  | switch op targets stop => BlockGraph.switch op targets stop

/-- The label that an operation places. -/
def placed? : GraphOperation → Option Label
  | event (.label l _) => some l
  | _ => none

end GraphOperation

namespace BlockGraph

variable {g g' : BlockGraph} {h : Hierarchy} {T T' : TypeTable} {placed : Label → Prop}

/-- **A switch with any opcode** changes the frame of the current block, and then ends it. -/
theorem switch_apply (hg : g.mode = .frames) (op : Opcode) (targets : List Label) (stop : Nat)
    (T : TypeTable) :
    switch op targets stop g T =
      match onFrame (Frame.plain op) g T with
      | ((.ok _, g'), T') =>
        ((.ok (), if g.current.isSome then (targets.foldl (fun g l => g.leadTo l) g').endBlock stop
          else g'), T')
      | ((.error e, g'), T') => ((.error e, g'), T') := by
  unfold switch
  rw [whenReached_apply]
  cases hc : g.current with
  | none =>
    rw [onFrame_unreached hc]
    rfl
  | some c =>
    simp only [Option.isSome_some, if_true, byMode_bind_apply _ _ _ hg, bind_assoc]
    exact onFrame_bind_apply _ (fun g T => rfl) g T

/-- **An operation keeps the graph well built and without ways back**, also when it fails. -/
theorem WellBuilt.operation (hT : T.Sound h) (hg : g.WellBuilt T) (hm : Mapped placed g)
    (o : GraphOperation) (hfresh : ∀ l, o.placed? = some l → ¬ placed l) {r : Except Error Unit}
    (hrun : o.act g T = ((r, g'), T')) :
    T'.Sound h ∧ g'.WellBuilt T' ∧ Mapped (fun l => placed l ∨ o.placed? = some l) g' := by
  have hstay : ∀ {g' : BlockGraph}, (∀ l, o.placed? ≠ some l) → Mapped placed g' →
      Mapped (fun l => placed l ∨ o.placed? = some l) g' := by
    intro g' hnone hm'
    simpa only [hnone, or_false] using hm'
  cases o with
  | switch op targets stop =>
    have hrun : BlockGraph.switch op targets stop g T = ((r, g'), T') := hrun
    rw [switch_apply hg.mode] at hrun
    rcases hf : BlockGraph.onFrame (Frame.plain op) g T with ⟨⟨rf, g₁⟩, T₁⟩
    obtain ⟨hs, -, hg₁⟩ := hg.onFrame hT (Frame.keeps_step 0 (.simple op : Instruction Label)) hf
    have hm₁ := hm.onFrame hg hf
    rw [hf] at hrun
    cases rf with
    | error e =>
      cases hrun
      exact ⟨hs, hg₁, hstay nofun hm₁⟩
    | ok u =>
      simp only at hrun
      obtain ⟨⟨-, rfl⟩, rfl⟩ := hrun
      split
      · exact ⟨hs, (hg₁.leadToAll targets).endBlock stop,
          hstay nofun ((hm₁.leadToAll hg₁ targets).endBlock (hg₁.leadToAll targets) stop)⟩
      · exact ⟨hs, hg₁, hstay nofun hm₁⟩
  | event e =>
    obtain ⟨hs, -, hg'⟩ := hg.act hT e hrun
    refine ⟨hs, hg', ?_⟩
    cases e with
    | instruction start stop around i =>
      have hrun : BlockGraph.step start stop around i g T = ((r, g'), T') := hrun
      rw [step_apply hg.mode] at hrun
      rcases hf : BlockGraph.onFrame (frameStep start i) g T with ⟨⟨rf, g₁⟩, T₁⟩
      obtain ⟨-, -, hg₁⟩ := hg.onFrame hT (keeps_frameStep start i) hf
      have hm₁ := hm.onFrame hg hf
      rw [hf] at hrun
      refine hstay nofun ?_
      cases rf with
      | error e =>
        cases hrun
        exact hm₁
      | ok u =>
        simp only at hrun
        obtain ⟨⟨-, rfl⟩, rfl⟩ := hrun
        split
        · exact hm₁.afterStep hg₁ stop around i
        · exact hm₁
    | label l position =>
      cases hrun
      have hl := hm.label hg (hfresh l rfl) position
      have heq : (fun k => placed k ∨ (GraphOperation.event (.label l position)).placed? = some k) =
          fun k => placed k ∨ k = l := by
        funext k
        simp [GraphOperation.placed?, eq_comm]
      rw [heq]
      exact hl
    | split position =>
      cases hrun
      exact hstay nofun (hm.splitAt hg position)
    | handler r =>
      cases hrun
      exact hstay nofun (hm.addHandler hg.indexed r)

/-- The graph and the table behind operations, some of which may have failed. -/
def operate : List GraphOperation → BlockGraph → TypeTable → BlockGraph × TypeTable
  | [], g, T => (g, T)
  | o :: os, g, T =>
    let ((_, g), T) := o.act g T
    operate os g T

/-- **A graph with frames has no ways back**, when each label is placed once at most. -/
theorem WellBuilt.operate (hT : T.Sound h) (hg : g.WellBuilt T) (hm : Mapped placed g)
    (os : List GraphOperation) (hfresh : ∀ o ∈ os, ∀ l, o.placed? = some l → ¬ placed l)
    (hnodup : (os.filterMap GraphOperation.placed?).Nodup) :
    (BlockGraph.operate os g T).2.Sound h ∧
      (BlockGraph.operate os g T).1.WellBuilt (BlockGraph.operate os g T).2 ∧
      ∃ placed', Mapped placed' (BlockGraph.operate os g T).1 := by
  induction os generalizing g T placed with
  | nil => exact ⟨hT, hg, placed, hm⟩
  | cons o os ih =>
    rcases hrun : o.act g T with ⟨⟨r, g'⟩, T'⟩
    obtain ⟨hT', hg', hm'⟩ := hg.operation hT hm o (hfresh o List.mem_cons_self) hrun
    rw [BlockGraph.operate, hrun]
    refine ih hT' hg' hm' (fun o' ho' l hl => ?_) ?_
    · rintro (hp | hl')
      · exact hfresh o' (List.mem_cons_of_mem _ ho') l hl hp
      · rw [List.filterMap_cons_some hl'] at hnodup
        exact (List.nodup_cons.1 hnodup).1 (List.mem_filterMap.2 ⟨o', ho', hl⟩)
    · exact hnodup.sublist ((List.sublist_cons_self o os).filterMap _)

end BlockGraph

end ClassFile
