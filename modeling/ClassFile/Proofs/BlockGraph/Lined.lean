/-
# Graphs of heights as they are drawn

Where only heights are recorded, each label starts a block of its own, even behind another label at the
same place.  The blocks form a chain in the order in which the labels are placed (`Lined`).  Labels,
instructions and handlers keep what is lined up and what is drawn.
-/
import ClassFile.Proofs.BlockGraph.Drawn
import ClassFile.Proofs.BlockGraph.HeightStep

namespace ClassFile.BlockGraph

variable {r r' : Routine} {s s' : Sketch} {g g' g'' : BlockGraph} {chain : List BlockId}
  {i j : BlockId} {l : Label} {e : Edge} {T T' : TypeTable}

/-! ## 1. What operations leave in blocks -/

/-- What can be read off a block stays the same where a block is changed in other respects. -/
theorem read_onBlock {α : Type} (g : BlockGraph) (i : BlockId) {f : Block → Block} (ρ : Block → α)
    (hf : ∀ b, ρ (f b) = ρ b) (j : BlockId) :
    (g.onBlock i f).blocks[j]?.map ρ = g.blocks[j]?.map ρ := by
  rw [getElem?_onBlock]
  split
  · rw [Option.map_map]
    exact congrArg (fun ρ => Option.map ρ g.blocks[j]?) (funext hf)
  · rfl

/-- What can be read off a block that is new, is what can be read off where there is none. -/
theorem read_blockOf {α : Type} (g : BlockGraph) (l : Label) (ρ : Block → α) (d : α)
    (hρ : ∀ f, ρ (.empty f) = d) (j : BlockId) :
    ((g.blockOf l).2.blocks[j]?.map ρ).getD d = (g.blocks[j]?.map ρ).getD d := by
  unfold BlockGraph.blockOf
  split
  · rfl
  · show ((g.blocks.push _)[j]?.map ρ).getD d = _
    rw [Array.getElem?_push]
    split
    · rename_i hj
      subst hj
      rw [Array.getElem?_eq_none (Nat.le_refl _)]
      exact hρ _
    · rfl

theorem edgesAt_blockOf (g : BlockGraph) (l : Label) (j : BlockId) :
    edgesAt (g.blockOf l).2.blocks j = edgesAt g.blocks j :=
  read_blockOf g l (fun b => b.edges.toList) [] (fun _ => rfl) j

theorem peakAt_blockOf (g : BlockGraph) (l : Label) (j : BlockId) :
    peakAt (g.blockOf l).2.blocks j = peakAt g.blocks j :=
  read_blockOf g l Block.peak 0 (fun _ => rfl) j

theorem positionOf_blockOf (g : BlockGraph) (l : Label) (j : BlockId) :
    (g.blockOf l).2.positionOf j = g.positionOf j :=
  read_blockOf g l Block.position 0 (fun _ => rfl) j

theorem getD_map_none {α : Type} (ρ : Block → Option α) (o : Option Block) :
    (o.map ρ).getD none = o.bind ρ := by
  cases o <;> rfl

theorem nextAt_blockOf (g : BlockGraph) (l : Label) (j : BlockId) :
    nextAt (g.blockOf l).2.blocks j = nextAt g.blocks j := by
  have := read_blockOf g l Block.next none (fun _ => rfl) j
  rwa [getD_map_none, getD_map_none] at this

theorem aliasAt_blockOf (g : BlockGraph) (l : Label) (j : BlockId) :
    aliasAt (g.blockOf l).2.blocks j = aliasAt g.blocks j := by
  have := read_blockOf g l Block.sameAs none (fun _ => rfl) j
  rwa [getD_map_none, getD_map_none] at this

theorem isPlaced_iff : g.IsPlaced i ↔ (g.blocks[i]?.map Block.isPlaced).getD false = true := by
  unfold IsPlaced
  cases g.blocks[i]? <;> simp

theorem isPlaced_blockOf (g : BlockGraph) (l : Label) (j : BlockId) :
    (g.blockOf l).2.IsPlaced j ↔ g.IsPlaced j := by
  rw [isPlaced_iff, isPlaced_iff, read_blockOf g l Block.isPlaced false (fun _ => rfl) j]

theorem unsearched_blockOf (hg : Unsearched g.blocks) (l : Label) :
    Unsearched (g.blockOf l).2.blocks := by
  unfold BlockGraph.blockOf
  split
  · exact hg
  · intro b hb
    rcases Array.mem_push.1 hb with hb | rfl
    · exact hg b hb
    · exact ⟨rfl, rfl⟩

/-- The labels behind the mention of one. -/
theorem get?_blockOf (hl : g.labels.Linked) (l k : Label) : (g.blockOf l).2.labels.get? k =
    if k = l then some (g.blockOf l).1 else g.labels.get? k := by
  unfold BlockGraph.blockOf
  cases hget : g.labels.get? l with
  | some i =>
    dsimp only
    split
    · rename_i hk
      rw [hk, hget]
    · rfl
  | none =>
    show (g.labels.insert l g.blocks.size).2.get? k = _
    rw [hl.get?_insert, hget]
    rfl

theorem blockOf_cases (g : BlockGraph) (l : Label) :
    g.labels.get? l = some (g.blockOf l).1 ∧ (g.blockOf l).2 = g ∨
    g.labels.get? l = none ∧ (g.blockOf l).1 = g.blocks.size ∧
      (g.blockOf l).2.blocks.size = g.blocks.size + 1 := by
  unfold BlockGraph.blockOf
  cases g.labels.get? l with
  | some i => exact .inl ⟨rfl, rfl⟩
  | none => exact .inr ⟨rfl, rfl, Array.size_push _⟩

theorem blockOf_fields (g : BlockGraph) (l : Label) : (g.blockOf l).2.mode = g.mode ∧
    (g.blockOf l).2.current = g.current ∧ (g.blockOf l).2.last = g.last ∧
    (g.blockOf l).2.height = g.height ∧ (g.blockOf l).2.peak = g.peak ∧
    (g.blockOf l).2.handlers = g.handlers := by
  unfold BlockGraph.blockOf
  split <;> exact ⟨rfl, rfl, rfl, rfl, rfl, rfl⟩

theorem heightIs_of_heights (hg : g.mode = .maxStack) {a : Int} :
    g.HeightIs a ↔ g.height = .ofInt a := by
  unfold HeightIs
  rw [hg]

theorem peakOf_of_heights (hg : g.mode = .maxStack) (i : BlockId) :
    g.peakOf i = (if g.current = some i then g.peak else peakAt g.blocks i).toInt := by
  unfold peakOf
  rw [hg]

/-! ## 2. Chains of labels -/

/-- **A graph of heights as a routine makes it.**  The blocks of labels that have been placed form a
chain behind the entry, in the order of the places, and each instruction stands in a block that comes in
the chain before those that begin behind it. -/
structure Lined (r : Routine) (s : Sketch) (chain : List BlockId) (g : BlockGraph) : Prop where
  frameless : g.Frameless
  unsearched : Unsearched g.blocks
  plain : ∀ i, aliasAt g.blocks i = none
  edges : ∀ i, ∀ e ∈ edgesAt g.blocks i, (∃ a, e.kind = .atHeight a) ∧ e.successor < g.blocks.size
  labels_linked : g.labels.Linked
  label_lt : ∀ l i, g.labels.get? l = some i → i < g.blocks.size
  injective : ∀ l l' i, g.labels.get? l = some i → g.labels.get? l' = some i → l = l'
  fresh : ∀ l i, g.labels.get? l = some i → (∀ k, (l, k) ∉ r.places) → ¬ g.IsPlaced i
  head : chain.head? = some 0
  last : chain.getLast? = some g.last
  linked : chain.IsChain fun i j => nextAt g.blocks i = some j
  ends : ∀ i, i ∉ chain ∨ i = g.last → nextAt g.blocks i = none
  placed : ∀ i ∈ chain, g.IsPlaced i
  nodup : chain.Nodup
  labels : List.Forall₂ (fun p i => g.labels.get? p.1 = some i) r.places chain.tail
  current : ∀ i, g.current = some i → i = g.last
  rows : ∀ (k : Nat) i a, s.rows[k]? = some (some (i, a)) → i ∈ chain
  order : chain.Pairwise fun i j => ∀ (k : Nat) a offset, s.rows[k]? = some (some (i, a)) →
    s.offsets[k]? = some offset → offset < g.positionOf j

theorem Lined.current_placed (h : Lined r s chain g) (hi : g.current = some i) : g.IsPlaced i := by
  obtain rfl := h.current i hi
  exact h.placed _ (List.mem_of_getLast? h.last)

theorem lined_start : Lined .empty .empty [0] (start .maxStack) where
  frameless := frameless_start
  unsearched b hb := by
    obtain rfl := Array.mem_singleton.1 hb
    exact ⟨rfl, rfl⟩
  plain i := by
    rcases i with _ | i <;> rfl
  edges i e he := by
    rcases i with _ | i <;> exact absurd he List.not_mem_nil
  labels_linked := InternTable.linked_empty
  label_lt l i hl := by
    rw [show (start .maxStack).labels.get? l = none from get?_start l] at hl
    exact nomatch hl
  injective l l' i hl := by
    rw [show (start .maxStack).labels.get? l = none from get?_start l] at hl
    exact nomatch hl
  fresh l i hl := by
    rw [show (start .maxStack).labels.get? l = none from get?_start l] at hl
    exact nomatch hl
  head := rfl
  last := rfl
  linked := .singleton 0
  ends i _ := by
    rcases i with _ | i <;> rfl
  placed i hi := by
    rw [List.mem_singleton.1 hi]
    exact ⟨_, rfl, rfl⟩
  nodup := List.nodup_singleton 0
  labels := .nil
  current i hi := (Option.some.inj hi).symm
  rows k i a hk := nomatch hk
  order := List.pairwise_singleton _ _

/-- The same blocks in the same places, of which no other one becomes the current one. -/
structure SameLines (g g' : BlockGraph) : Prop where
  size : g'.blocks.size = g.blocks.size
  placed : ∀ i, g'.IsPlaced i ↔ g.IsPlaced i
  position : ∀ i, g'.positionOf i = g.positionOf i
  next : ∀ i, nextAt g'.blocks i = nextAt g.blocks i
  sameAs : ∀ i, aliasAt g'.blocks i = aliasAt g.blocks i
  labels : g'.labels = g.labels
  last : g'.last = g.last
  current : ∀ i, g'.current = some i → g.current = some i

theorem SameLines.refl (g : BlockGraph) : SameLines g g :=
  ⟨rfl, fun _ => Iff.rfl, fun _ => rfl, fun _ => rfl, fun _ => rfl, rfl, rfl, fun _ => id⟩

theorem SameLines.trans (h : SameLines g g') (h' : SameLines g' g'') : SameLines g g'' :=
  ⟨h'.size.trans h.size, fun i => (h'.placed i).trans (h.placed i),
    fun i => (h'.position i).trans (h.position i), fun i => (h'.next i).trans (h.next i),
    fun i => (h'.sameAs i).trans (h.sameAs i), h'.labels.trans h.labels, h'.last.trans h.last,
    fun i hi => h.current i (h'.current i hi)⟩

/-- A change of a block that leaves it in its place. -/
theorem sameLines_onBlock (g : BlockGraph) (i : BlockId) {f : Block → Block}
    (hf : ∀ b, (f b).position = b.position ∧ (f b).next = b.next ∧ (f b).sameAs = b.sameAs)
    (hplaced : ∀ b, (f b).isPlaced = b.isPlaced) : SameLines g (g.onBlock i f) where
  size := size_onBlock g i f
  placed j := by rw [isPlaced_iff, isPlaced_iff, read_onBlock g i Block.isPlaced hplaced]
  position := (sameShape_onBlock g i hf).positionOf_eq
  next := (sameShape_onBlock g i hf).next
  sameAs := (sameShape_onBlock g i hf).sameAs
  labels := rfl
  last := rfl
  current _ hi := hi

theorem Lined.congr (h : Lined r s chain g) (hl : SameLines g g') (hframeless : g'.Frameless)
    (hunsearched : Unsearched g'.blocks) (hplaces : r'.places = r.places)
    (hedges : ∀ i, ∀ e ∈ edgesAt g'.blocks i,
      (∃ a, e.kind = .atHeight a) ∧ e.successor < g.blocks.size) :
    Lined r' s chain g' where
  frameless := hframeless
  unsearched := hunsearched
  plain i := (hl.sameAs i).trans (h.plain i)
  edges i e he := hl.size ▸ hedges i e he
  labels_linked := hl.labels ▸ h.labels_linked
  label_lt := by rw [hl.labels, hl.size]; exact h.label_lt
  injective := hl.labels ▸ h.injective
  fresh l i hget hfresh hi := by
    rw [hl.labels] at hget
    exact h.fresh l i hget (hplaces ▸ hfresh) ((hl.placed i).1 hi)
  head := h.head
  last := hl.last ▸ h.last
  linked := h.linked.imp fun i j hij => (hl.next i).trans hij
  ends i hi := (hl.next i).trans (h.ends i (hl.last ▸ hi))
  placed i hi := (hl.placed i).2 (h.placed i hi)
  nodup := h.nodup
  labels := by rw [hplaces, hl.labels]; exact h.labels
  current i hi := hl.last ▸ h.current i (hl.current i hi)
  rows := h.rows
  order := h.order.imp fun hij k a offset hk ho => by
    rw [hl.position]
    exact hij k a offset hk ho

/-- A new row, in the current block if there is one. -/
theorem Lined.add (h : Lined r s chain g) (hlength : s.rows.length < s.offsets.length)
    {row : Option (BlockId × Int)} (hnow : RowNow r s g row) (stop : Nat) {o : Instruction Label} :
    Lined (r.event (.instruction o)) (s.add row stop) chain g where
  frameless := h.frameless
  unsearched := h.unsearched
  plain := h.plain
  edges := h.edges
  labels_linked := h.labels_linked
  label_lt := h.label_lt
  injective := h.injective
  fresh := h.fresh
  head := h.head
  last := h.last
  linked := h.linked
  ends := h.ends
  placed := h.placed
  nodup := h.nodup
  labels := h.labels
  current := h.current
  rows k i a hk := by
    rcases getElem?_concat_eq_some_iff.1 hk with hk | ⟨-, hnew⟩
    · exact h.rows k i a hk
    · rw [h.current i (hnow.current hnew.symm)]
      exact List.mem_of_getLast? h.last
  order := by
    have hold : ∀ {k : Nat} {x offset}, s.rows[k]? = some x →
        (s.offsets ++ [stop])[k]? = some offset → s.offsets[k]? = some offset := by
      intro k x offset hk ho
      have hlt := (List.getElem?_eq_some_iff.1 hk).1
      rwa [List.getElem?_append_left (by omega)] at ho
    obtain ⟨init, hinit⟩ := List.getLast?_eq_some_iff.1 h.last
    have hpairwise := h.order
    have hnodup := h.nodup
    -- no block comes behind the last one, where the new row is
    rw [hinit] at hpairwise hnodup ⊢
    obtain ⟨hpairs, -, hlast⟩ := List.pairwise_append.1 hpairwise
    have hne : ∀ i ∈ init, i ≠ g.last := fun i hi heq =>
      (List.nodup_append.1 hnodup).2.2 i hi g.last (List.mem_singleton.2 rfl) heq
    have hnew : ∀ i j, i ∈ init → (∀ (k : Nat) a offset, s.rows[k]? = some (some (i, a)) →
        s.offsets[k]? = some offset → offset < g.positionOf j) →
        ∀ (k : Nat) a offset, (s.add row stop).rows[k]? = some (some (i, a)) →
          (s.add row stop).offsets[k]? = some offset → offset < g.positionOf j := by
      intro i j hi hij k a offset hk ho
      rcases getElem?_concat_eq_some_iff.1 hk with hk | ⟨-, hrow⟩
      · exact hij k a offset hk (hold hk ho)
      · exact absurd (h.current i (hnow.current hrow.symm)) (hne i hi)
    exact List.pairwise_append.2 ⟨hpairs.imp_of_mem fun hi _ => hnew _ _ hi,
      List.pairwise_singleton _ _, fun i hi j hj => hnew i j hi (hlast i hi j hj)⟩

/-! ## 3. Labels -/

/-- **The block of a label**, which is not placed on the first mention. -/
theorem Lined.blockOf (h : Lined r s chain g) (l : Label) :
    Lined r s chain (g.blockOf l).2 ∧ (g.blockOf l).2.labels.get? l = some (g.blockOf l).1 := by
  have hget := get?_blockOf h.labels_linked l
  refine ⟨?_, by rw [hget, if_pos rfl]⟩
  rcases blockOf_cases g l with ⟨-, hsame⟩ | ⟨hnone, hnew, hsize⟩
  · rw [hsame]
    exact h
  have hgrow : g.blocks.size < (g.blockOf l).2.blocks.size := hsize ▸ Nat.lt_succ_self _
  have hother : ∀ k i, g.labels.get? k = some i → i ≠ (g.blockOf l).1 := fun k i hk heq =>
    Nat.lt_irrefl _ (Nat.lt_of_lt_of_eq (h.label_lt k i hk) (heq.trans hnew).symm)
  have hkeeps : ∀ k i, g.labels.get? k = some i → (g.blockOf l).2.labels.get? k = some i := by
    intro k i hk
    rw [hget, if_neg, hk]
    rintro rfl
    rw [hnone] at hk
    exact nomatch hk
  obtain ⟨-, hcurrent, hlast, -⟩ := blockOf_fields g l
  have hlinked : (g.blockOf l).2.labels.Linked := by
    unfold BlockGraph.blockOf
    split
    · exact h.labels_linked
    · exact h.labels_linked.insert _ _
  refine ⟨h.frameless.blockOf l, unsearched_blockOf h.unsearched l, ?_, ?_, hlinked, ?_, ?_, ?_, h.head,
    ?_, ?_, ?_, ?_, h.nodup, ?_, ?_, h.rows, ?_⟩
  · exact fun i => (aliasAt_blockOf g l i).trans (h.plain i)
  · intro i e he
    rw [edgesAt_blockOf] at he
    exact ⟨(h.edges i e he).1, Nat.lt_trans (h.edges i e he).2 hgrow⟩
  · intro k i hk
    rw [hget] at hk
    split at hk
    · cases hk
      exact Nat.lt_of_le_of_lt (Nat.le_of_eq hnew) hgrow
    · exact Nat.lt_trans (h.label_lt k i hk) hgrow
  · intro k k' i hk hk'
    rw [hget] at hk hk'
    split at hk <;> split at hk'
    · rename_i h₁ h₂
      rw [h₁, h₂]
    · exact absurd (Option.some.inj hk).symm (hother k' i hk')
    · exact absurd (Option.some.inj hk').symm (hother k i hk)
    · exact h.injective k k' i hk hk'
  · intro k i hk hfresh
    rw [isPlaced_blockOf]
    rw [hget] at hk
    split at hk
    · cases hk
      intro hplaced
      exact absurd hplaced.lt (Nat.not_lt.2 (Nat.le_of_eq hnew.symm))
    · exact h.fresh k i hk hfresh
  · exact hlast ▸ h.last
  · exact h.linked.imp fun i j hij => (nextAt_blockOf g l i).trans hij
  · exact fun i hi => (nextAt_blockOf g l i).trans (h.ends i (hlast ▸ hi))
  · exact fun i hi => (isPlaced_blockOf g l i).2 (h.placed i hi)
  · exact h.labels.imp fun p i hp => hkeeps p.1 i hp
  · exact fun i hi => hlast ▸ h.current i (hcurrent ▸ hi)
  · exact h.order.imp fun hij k a offset hk ho => by
      rw [positionOf_blockOf]
      exact hij k a offset hk ho

/-- The kind of an edge says how high the stack is, whatever the block. -/
theorem Lined.leaves (h : Lined r s chain g) (he : e ∈ edgesAt g.blocks i) (g' : BlockGraph)
    (j : BlockId) {a : Int} (ha : g.Leaves i e a) : g'.Leaves j e a := by
  obtain ⟨⟨above, hkind⟩, -⟩ := h.edges i e he
  unfold Leaves at ha ⊢
  rw [hkind] at ha ⊢
  exact ha

/-- A label that is only mentioned. -/
theorem Lined.mentions (h : Lined r s chain g) (l : Label) : Mentions g (g.blockOf l).2 := by
  obtain ⟨hmode, hcurrent, -, hheight, hpeak, -⟩ := blockOf_fields g l
  have hmode' := hmode.trans h.frameless.mode
  refine ⟨⟨fun k i hk => ?_, fun i hi => ?_, fun i => ?_, fun i j hj => ?_⟩, hcurrent, fun a ha => ?_,
    fun i e he => ?_, fun i => (isPlaced_blockOf g l i).1, fun i _ => ?_⟩
  · rw [get?_blockOf h.labels_linked]
    split
    · rename_i hkl
      subst hkl
      rcases blockOf_cases g k with ⟨hget, -⟩ | ⟨hnone, -⟩
      · exact hget.symm.trans hk
      · rw [hnone] at hk
        exact nomatch hk
    · exact hk
  · exact ⟨(isPlaced_blockOf g l i).2 hi, positionOf_blockOf g l i⟩
  · rw [edgesAt_blockOf]
    exact List.Subset.refl _
  · exact (aliasAt_blockOf g l i).trans hj
  · rw [heightIs_of_heights hmode', hheight]
    exact (heightIs_of_heights h.frameless.mode).1 ha
  · rw [edgesAt_blockOf] at he
    exact ⟨he, fun a => h.leaves he _ i⟩
  · rw [peakOf_of_heights hmode', peakOf_of_heights h.frameless.mode, hcurrent, hpeak, peakAt_blockOf]

/-- What does not depend on edges and heights. -/
theorem startBlock_fields (hmode : g.mode = .maxStack) (i : BlockId) (position : Nat) :
    (g.startBlock i position).mode = .maxStack ∧ (g.startBlock i position).labels = g.labels ∧
    (g.startBlock i position).current = some i ∧ (g.startBlock i position).last = i ∧
    (g.startBlock i position).height = 0 ∧ (g.startBlock i position).peak = 0 ∧
    (g.startBlock i position).handlers = g.handlers := by
  obtain ⟨mode, blocks, labels, current, last, height, peak, handlers⟩ := g
  cases hmode
  cases current <;> exact ⟨rfl, rfl, rfl, rfl, rfl, rfl, rfl⟩

theorem size_startBlock (hmode : g.mode = .maxStack) (i : BlockId) (position : Nat) :
    (g.startBlock i position).blocks.size = g.blocks.size := by
  obtain ⟨mode, blocks, labels, current, last, height, peak, handlers⟩ := g
  cases hmode
  cases current <;>
    simp only [BlockGraph.startBlock, place, append, closeHeights, addEdge, onBlock, onBlocks,
      Array.size_modify]

/-- **What a block that starts leaves of the others**: the last one goes on to it, and the current one
has an edge to it. -/
theorem getElem?_startBlock (hmode : g.mode = .maxStack) (i : BlockId) (position : Nat)
    (j : BlockId) : (g.startBlock i position).blocks[j]? = g.blocks[j]?.map fun b =>
      { b with
        position := if i = j then position else b.position
        isPlaced := if i = j then true else b.isPlaced
        next := if g.last = j then some i else b.next
        edges := if g.current = some j then b.edges.push ⟨.atHeight g.height, i⟩ else b.edges
        peak := if g.current = some j then g.peak else b.peak } := by
  obtain ⟨mode, blocks, labels, current, last, height, peak, handlers⟩ := g
  cases hmode
  cases current with
  | none =>
    simp only [startBlock, place, append, closeHeights, addEdge, onBlock, onBlocks,
      Array.getElem?_modify]
    split_ifs <;> cases blocks[j]? <;> simp_all
  | some c =>
    simp only [startBlock, place, append, closeHeights, addEdge, onBlock, onBlocks,
      Array.getElem?_modify]
    split_ifs <;> cases blocks[j]? <;> simp_all [Block.addEdge]

section StartBlock

variable {position : Nat} (h : Lined r s chain g) (hi : i < g.blocks.size)

include h

theorem Lined.current_lt {c : BlockId} (hc : g.current = some c) : c < g.blocks.size :=
  (h.current_placed hc).lt

theorem Lined.edgesAt_startBlock (i : BlockId) (position : Nat) (j : BlockId) :
    edgesAt (g.startBlock i position).blocks j = if g.current = some j
      then edgesAt g.blocks j ++ [⟨.atHeight g.height, i⟩] else edgesAt g.blocks j := by
  unfold edgesAt
  rw [getElem?_startBlock h.frameless.mode]
  by_cases hj : g.current = some j
  · rw [Array.getElem?_eq_getElem (h.current_lt hj)]
    simp only [Option.map_some, hj, if_true, Array.toList_push, Option.getD_some]
  · cases g.blocks[j]? with
    | none => simp only [Option.map_none, hj, if_false]
    | some b => simp only [Option.map_some, hj, if_false]

theorem Lined.peakAt_startBlock (i : BlockId) (position : Nat) (j : BlockId) :
    peakAt (g.startBlock i position).blocks j =
      if g.current = some j then g.peak else peakAt g.blocks j := by
  unfold peakAt
  rw [getElem?_startBlock h.frameless.mode]
  by_cases hj : g.current = some j
  · rw [Array.getElem?_eq_getElem (h.current_lt hj)]
    simp only [Option.map_some, hj, if_true, Option.getD_some]
  · cases g.blocks[j]? with
    | none => simp only [Option.map_none, hj, if_false]
    | some b => simp only [Option.map_some, hj, if_false]

theorem Lined.aliasAt_startBlock (i : BlockId) (position : Nat) (j : BlockId) :
    aliasAt (g.startBlock i position).blocks j = aliasAt g.blocks j := by
  unfold aliasAt
  rw [getElem?_startBlock h.frameless.mode]
  cases g.blocks[j]? <;> rfl

theorem Lined.last_lt : g.last < g.blocks.size :=
  (h.placed _ (List.mem_of_getLast? h.last)).lt

theorem Lined.nextAt_startBlock (i : BlockId) (position : Nat) (j : BlockId) :
    nextAt (g.startBlock i position).blocks j =
      if g.last = j then some i else nextAt g.blocks j := by
  unfold nextAt
  rw [getElem?_startBlock h.frameless.mode]
  by_cases hj : g.last = j
  · rw [Array.getElem?_eq_getElem (hj ▸ h.last_lt)]
    simp only [Option.map_some, hj, if_true, Option.bind_some]
  · cases g.blocks[j]? with
    | none => simp only [Option.map_none, hj, if_false]
    | some b => simp only [Option.map_some, hj, if_false, Option.bind_some]

include hi in
theorem Lined.positionOf_startBlock (position : Nat) (j : BlockId) :
    (g.startBlock i position).positionOf j = if i = j then position else g.positionOf j := by
  unfold BlockGraph.positionOf
  rw [getElem?_startBlock h.frameless.mode]
  by_cases hj : i = j
  · rw [Array.getElem?_eq_getElem (hj ▸ hi)]
    simp only [Option.map_some, hj, if_true, Option.getD_some]
  · cases g.blocks[j]? with
    | none => simp only [Option.map_none, hj, if_false]
    | some b => simp only [Option.map_some, hj, if_false]

include hi in
theorem Lined.isPlaced_startBlock (position : Nat) (j : BlockId) :
    (g.startBlock i position).IsPlaced j ↔ i = j ∨ g.IsPlaced j := by
  rw [isPlaced_iff, isPlaced_iff, getElem?_startBlock h.frameless.mode]
  by_cases hj : i = j
  · rw [Array.getElem?_eq_getElem (hj ▸ hi)]
    simp [hj]
  · cases g.blocks[j]? <;> simp [hj]

end StartBlock

section Label

variable {offset : Nat} (h : Lined r s chain g) (hl : g.labels.get? l = some i)
  (hi : ¬ g.IsPlaced i)

include h hl hi

/-- **A block starts** that has not been placed. -/
theorem Lined.starts (offset : Nat) :
    Starts g (g.startBlock i offset) offset ∧ LabelAt (g.startBlock i offset) l i offset := by
  have hlt := h.label_lt l i hl
  obtain ⟨hmode, hlabels, hcurrent, -, hheight, hpeak, -⟩ :=
    startBlock_fields h.frameless.mode i offset
  have hne : ∀ {j}, g.IsPlaced j → i ≠ j := fun hj heq => hi (heq ▸ hj)
  have hplaced : (g.startBlock i offset).IsPlaced i := (h.isPlaced_startBlock hlt offset i).2 (.inl rfl)
  have hposition : (g.startBlock i offset).positionOf i = offset := by
    rw [h.positionOf_startBlock hlt, if_pos rfl]
  have hheights := heightIs_of_heights (a := 0) hmode
  refine ⟨⟨⟨fun k j hk => hlabels ▸ hk, fun j hj => ?_, fun j => ?_, fun j k hk => ?_⟩, fun j hj => ?_,
    fun c hc V hV hVc => ⟨i, hcurrent, ?_⟩, fun j e he _ => ?_, fun j hj => ?_, fun j hj => ?_⟩,
    hlabels ▸ hl, hplaced, hposition, fun V hV hVi => ⟨i, hcurrent, hVi⟩⟩
  · rw [h.positionOf_startBlock hlt, if_neg (hne hj)]
    exact ⟨(h.isPlaced_startBlock hlt offset j).2 (.inr hj), rfl⟩
  · rw [h.edgesAt_startBlock]
    split
    · exact List.subset_append_left _ _
    · exact List.Subset.refl _
  · rw [h.aliasAt_startBlock]
    exact hk
  · obtain rfl : i = j := Option.some.inj (hcurrent.symm.trans hj)
    exact ⟨hplaced, hposition, hheights.2 hheight⟩
  · refine hV.edge c hVc ⟨.atHeight g.height, i⟩ ?_
    rw [h.edgesAt_startBlock, if_pos hc]
    exact List.mem_append_right _ (List.mem_singleton.2 rfl)
  · rw [h.edgesAt_startBlock] at he
    split at he
    · rename_i hj
      rcases List.mem_append.1 he with he | he
      · exact .inl ⟨he, fun a => h.leaves he _ j⟩
      · obtain rfl := List.mem_singleton.1 he
        exact .inr ⟨hj, fun a => (heightIs_of_heights h.frameless.mode).1, hplaced, hposition⟩
    · exact .inl ⟨he, fun a => h.leaves he _ j⟩
  · rcases (h.isPlaced_startBlock hlt offset j).1 hj with rfl | hj
    · rw [peakOf_of_heights hmode, if_pos hcurrent, hpeak]
      exact .inr rfl
    · exact .inl hj
  · rw [peakOf_of_heights h.frameless.mode, peakOf_of_heights hmode, hcurrent,
      if_neg fun heq => hne hj (Option.some.inj heq), h.peakAt_startBlock]

/-- **A label lines up its block** behind all others. -/
theorem Lined.startBlock (hd : Drawn r s g)
    (hoffset : s.offsets[r.code.length]? = some offset) :
    Lined { r with places := r.places ++ [(l, r.code.length)] } s (chain ++ [i])
      (g.startBlock i offset) := by
  have hlt := h.label_lt l i hl
  obtain ⟨hmode, hlabels, hcurrent, hlast, -, -, -⟩ := startBlock_fields h.frameless.mode i offset
  have hne : ∀ {j}, g.IsPlaced j → i ≠ j := fun hj heq => hi (heq ▸ hj)
  have hmem : i ∉ chain := fun hmem => hi (h.placed i hmem)
  have hsize := size_startBlock h.frameless.mode i offset
  refine ⟨h.frameless.startBlock i offset, fun b hb => ?_,
    fun j => (h.aliasAt_startBlock i offset j).trans (h.plain j), fun j e he => ?_,
    hlabels ▸ h.labels_linked, ?_, hlabels ▸ h.injective, fun k j hk hfresh => ?_, ?_, ?_, ?_,
    fun j hj => ?_, fun j hj => ?_, ?_, ?_, fun j hj => ?_, fun k j a hk => ?_, ?_⟩
  · obtain ⟨j, hj⟩ := Array.getElem?_of_mem hb
    rw [getElem?_startBlock h.frameless.mode] at hj
    obtain ⟨c, hc, rfl⟩ := Option.map_eq_some_iff.1 hj
    exact h.unsearched c (Array.mem_of_getElem? hc)
  · rw [hsize]
    rw [h.edgesAt_startBlock] at he
    split at he
    · rcases List.mem_append.1 he with he | he
      · exact h.edges j e he
      · obtain rfl := List.mem_singleton.1 he
        exact ⟨⟨_, rfl⟩, hlt⟩
    · exact h.edges j e he
  · rw [hlabels, hsize]
    exact h.label_lt
  · rw [h.isPlaced_startBlock hlt]
    rw [hlabels] at hk
    rintro (rfl | hj)
    · obtain rfl := h.injective l k i hl hk
      exact hfresh _ (List.mem_append_right _ (List.mem_singleton.2 rfl))
    · exact h.fresh k j hk (fun n hn => hfresh n (List.mem_append_left _ hn)) hj
  · exact List.head?_append.trans (by rw [h.head]; rfl)
  · rw [hlast, List.getLast?_concat]
  · refine List.isChain_append.2 ⟨h.linked.imp fun j k hjk => ?_, .singleton i, fun j hj k hk => ?_⟩
    · rw [h.nextAt_startBlock, if_neg, hjk]
      intro heq
      rw [h.ends j (.inr heq.symm)] at hjk
      exact nomatch hjk
    · obtain rfl : i = k := Option.some.inj hk
      obtain rfl : g.last = j := Option.some.inj (h.last.symm.trans hj)
      rw [h.nextAt_startBlock, if_pos rfl]
  · have hlastmem : g.last ∈ chain := List.mem_of_getLast? h.last
    rw [h.nextAt_startBlock]
    rcases hj with hj | hj
    · rw [List.mem_append, not_or] at hj
      rw [if_neg fun heq : g.last = j => hj.1 (heq ▸ hlastmem)]
      exact h.ends j (.inl hj.1)
    · obtain rfl : j = i := hj.trans hlast
      rw [if_neg fun heq : g.last = j => hmem (heq ▸ hlastmem)]
      exact h.ends j (.inl hmem)
  · rw [h.isPlaced_startBlock hlt]
    rcases List.mem_append.1 hj with hj | hj
    · exact .inr (h.placed j hj)
    · exact .inl (List.mem_singleton.1 hj).symm
  · exact List.nodup_append.2 ⟨h.nodup, List.nodup_singleton i, fun j hj k hk heq =>
      hmem (List.mem_singleton.1 hk ▸ heq ▸ hj)⟩
  · rw [hlabels, List.tail_append_of_ne_nil (by rintro rfl; exact nomatch h.head)]
    exact List.rel_append h.labels (.cons hl .nil)
  · rw [hlast]
    exact (Option.some.inj (hcurrent.symm.trans hj)).symm
  · exact List.mem_append_left _ (h.rows k j a hk)
  · refine List.pairwise_append.2 ⟨h.order.imp_of_mem fun {j j'} _ hj' hjj' k a o hk ho => ?_,
      List.pairwise_singleton _ _, fun j _ j' hj' k a o hk ho => ?_⟩
    · rw [h.positionOf_startBlock hlt, if_neg (hne (h.placed j' hj'))]
      exact hjj' k a o hk ho
    · rw [List.mem_singleton.1 hj', h.positionOf_startBlock hlt, if_pos rfl]
      have hk' := (List.getElem?_eq_some_iff.1 hk).1
      rw [hd.rows_length] at hk'
      exact hd.offset_lt hk' ho hoffset

end Label

/-- **A label** that stands behind all code so far. -/
theorem Lined.label (h : Lined r s chain g) (hd : Drawn r s g) (hdebug : l.debug = false)
    (hnew : ∀ k, (l, k) ∉ r.places) {offset : Nat} (hoffset : s.offsets[r.code.length]? = some offset) :
    Drawn (r.event (.label l)) s (g.label l offset) ∧
      ∃ i, Lined (r.event (.label l)) s (chain ++ [i]) (g.label l offset) := by
  obtain ⟨h', hget⟩ := h.blockOf l
  have hd' : Drawn r s (g.blockOf l).2 := hd.mention rfl rfl (h.mentions l)
  have hfree := h'.fresh l _ hget hnew
  have hevent : r.event (.label l) = { r with places := r.places ++ [(l, r.code.length)] } :=
    if_neg (by rw [hdebug]; exact Bool.false_ne_true)
  obtain ⟨hstarts, hmarks⟩ := h'.starts hget hfree offset
  refine ⟨(hd'.start hoffset hstarts).labelAt hdebug hoffset hmarks, (g.blockOf l).1, ?_⟩
  rw [hevent]
  exact h'.startBlock hget hfree hd' hoffset

theorem Lined.handlers_label (h : Lined r s chain g) (l : Label) (offset : Nat) :
    (g.label l offset).handlers = g.handlers := by
  obtain ⟨hmode, -, -, -, -, hhandlers⟩ := blockOf_fields g l
  obtain ⟨-, -, -, -, -, -, hstart⟩ :=
    startBlock_fields (hmode.trans h.frameless.mode) (g.blockOf l).1 offset
  exact hstart.trans hhandlers

/-! ## 4. Handlers -/

theorem handlers_mention (g : BlockGraph) (range : HandlerRange) :
    (g.mention range).handlers = g.handlers := by
  unfold BlockGraph.mention
  obtain ⟨-, -, -, -, -, hstart⟩ := blockOf_fields g range.start
  obtain ⟨-, -, -, -, -, hstop⟩ := blockOf_fields (g.blockOf range.start).2 range.stop
  obtain ⟨-, -, -, -, -, hhandler⟩ :=
    blockOf_fields ((g.blockOf range.start).2.blockOf range.stop).2 range.handler
  exact hhandler.trans (hstop.trans hstart)

theorem mentions_handlers (g : BlockGraph) (handlers : Array HandlerRange) :
    Mentions g { g with handlers } where
  keeps := ⟨fun _ _ => id, fun _ hi => ⟨hi, rfl⟩, fun _ => List.Subset.refl _, fun _ _ => id⟩
  current := rfl
  height _ ha := ha
  sent _ _ he := ⟨he, fun _ ha => ha⟩
  placed _ hi := hi
  peak _ _ := rfl

/-- **A handler** mentions its labels. -/
theorem Lined.addHandler (h : Lined r s chain g) (hd : Drawn r s g) (range : HandlerRange) :
    Drawn { r with handlers := r.handlers ++ [range] } s (g.addHandler range) ∧
      Lined { r with handlers := r.handlers ++ [range] } s chain (g.addHandler range) ∧
      (g.addHandler range).handlers.toList = g.handlers.toList ++ [range] := by
  obtain ⟨h₁, -⟩ := h.blockOf range.start
  obtain ⟨h₂, -⟩ := h₁.blockOf range.stop
  have h₃ : Lined r s chain (g.mention range) := (h₂.blockOf range.handler).1
  have hd₃ : Drawn r s (g.mention range) :=
    ((hd.mention rfl rfl (h.mentions range.start)).mention rfl rfl (h₁.mentions range.stop)).mention
      rfl rfl (h₂.mentions range.handler)
  have hhandlers := handlers_mention g range
  rw [addHandler_eq]
  generalize g.mention range = g₃ at hd₃ h₃ hhandlers
  refine ⟨hd₃.mention rfl rfl (mentions_handlers g₃ _), h₃.congr ?_ (h₃.frameless.congr rfl rfl)
    h₃.unsearched rfl h₃.edges, ?_⟩
  · exact ⟨rfl, fun _ => Iff.rfl, fun _ => rfl, fun _ => rfl, fun _ => rfl, rfl, rfl, fun _ => id⟩
  · rw [Array.toList_push, hhandlers]

/-! ## 5. Instructions -/

/-- **Edges to labels** from the current block, in the height that it has now. -/
structure EdgesTo (g g' : BlockGraph) (ls : List Label) : Prop where
  keeps : Extends g g'
  current : g'.current = g.current
  height : g'.height = g.height
  handlers : g'.handlers = g.handlers
  sends : ∀ i, g.current = some i → ∀ l ∈ ls,
    ∃ e ∈ edgesAt g'.blocks i, g'.labels.get? l = some e.successor
  sent : ∀ i e, e ∈ edgesAt g'.blocks i → e ∈ edgesAt g.blocks i ∨
    g.current = some i ∧ e.kind = .atHeight g.height ∧ ∃ l ∈ ls, g'.labels.get? l = some e.successor
  placed : ∀ i, g'.IsPlaced i → g.IsPlaced i
  peak : ∀ i, g'.peakOf i = g.peakOf i

theorem EdgesTo.nil (g : BlockGraph) : EdgesTo g g [] where
  keeps := .refl g
  current := rfl
  height := rfl
  handlers := rfl
  sends _ _ _ hl := absurd hl List.not_mem_nil
  sent _ _ he := .inl he
  placed _ hi := hi
  peak _ := rfl

theorem EdgesTo.cons {ls : List Label} (h : EdgesTo g g' [l]) (h' : EdgesTo g' g'' ls) :
    EdgesTo g g'' (l :: ls) where
  keeps := h.keeps.trans h'.keeps
  current := h'.current.trans h.current
  height := h'.height.trans h.height
  handlers := h'.handlers.trans h.handlers
  sends i hi k hk := by
    rcases List.mem_cons.1 hk with rfl | hk
    · obtain ⟨e, he, hget⟩ := h.sends i hi k (List.mem_singleton.2 rfl)
      exact ⟨e, h'.keeps.edges i he, h'.keeps.labels k _ hget⟩
    · exact h'.sends i (h.current.trans hi) k hk
  sent i e he := by
    rcases h'.sent i e he with he | ⟨hi, hkind, k, hk, hget⟩
    · rcases h.sent i e he with hold | ⟨hi, hkind, k, hk, hget⟩
      · exact .inl hold
      · obtain rfl := List.mem_singleton.1 hk
        exact .inr ⟨hi, hkind, k, List.mem_cons_self, h'.keeps.labels k _ hget⟩
    · exact .inr ⟨h.current.symm.trans hi, h.height ▸ hkind, k, List.mem_cons_of_mem _ hk, hget⟩
  placed i hi := h.placed i (h'.placed i hi)
  peak i := (h'.peak i).trans (h.peak i)

theorem edgesAt_addEdge (hc : ∀ c, g.current = some c → c < g.blocks.size) (kind : EdgeKind)
    (i j : BlockId) : edgesAt (g.addEdge kind i).blocks j = if g.current = some j
      then edgesAt g.blocks j ++ [⟨kind, i⟩] else edgesAt g.blocks j := by
  unfold BlockGraph.addEdge
  split
  · rename_i c hcurrent
    unfold edgesAt
    rw [getElem?_onBlock, hcurrent]
    by_cases hj : c = j
    · subst hj
      rw [if_pos rfl, if_pos rfl, Array.getElem?_eq_getElem (hc c hcurrent)]
      exact Array.toList_push
    · rw [if_neg hj, if_neg fun heq => hj (Option.some.inj heq)]
  · rename_i hcurrent
    rw [hcurrent, if_neg nofun]

/-- An edge changes nothing but the block that it leaves. -/
theorem sameLines_addEdge (g : BlockGraph) (kind : EdgeKind) (i : BlockId) :
    SameLines g (g.addEdge kind i) := by
  unfold BlockGraph.addEdge
  split
  · exact sameLines_onBlock g _ (fun _ => ⟨rfl, rfl, rfl⟩) fun _ => rfl
  · exact .refl g

theorem peakAt_addEdge (g : BlockGraph) (kind : EdgeKind) (i j : BlockId) :
    peakAt (g.addEdge kind i).blocks j = peakAt g.blocks j := by
  unfold BlockGraph.addEdge
  split
  · rename_i c _
    have hread := read_onBlock g c (f := Block.addEdge ⟨kind, i⟩) Block.peak (fun _ => rfl) j
    unfold peakAt
    rw [hread]
  · rfl

theorem unsearched_onBlock (hg : Unsearched g.blocks) (i : BlockId) {f : Block → Block}
    (hf : ∀ b, (f b).isPending = b.isPending ∧ (f b).entryHeight = b.entryHeight) :
    Unsearched (g.onBlock i f).blocks := by
  intro b hb
  rcases mem_onBlock hb with hb | ⟨c, hc, rfl⟩
  · exact hg b hb
  · rw [(hf c).1, (hf c).2]
    exact hg c hc

/-- **An edge to a label.** -/
theorem Lined.leadAtHeight (h : Lined r s chain g) (l : Label) :
    Lined r s chain (g.leadAtHeight l) ∧ EdgesTo g (g.leadAtHeight l) [l] := by
  obtain ⟨h', hget⟩ := h.blockOf l
  have hm := h.mentions l
  have hlt := h'.label_lt l _ hget
  obtain ⟨-, -, -, hheight, hpeak, hhandlers⟩ := blockOf_fields g l
  have hplaced := isPlaced_blockOf g l
  have hpeaks : ∀ j, (g.blockOf l).2.peakOf j = g.peakOf j := fun j => by
    rw [peakOf_of_heights h'.frameless.mode, peakOf_of_heights h.frameless.mode, hm.current, hpeak,
      peakAt_blockOf]
  unfold BlockGraph.leadAtHeight
  generalize (g.blockOf l).1 = i at hget hlt
  generalize (g.blockOf l).2 = g₁ at h' hget hm hlt hheight hpeak hhandlers hplaced hpeaks
  have hline := sameLines_addEdge g₁ (.atHeight g₁.height) i
  have hedges := edgesAt_addEdge (fun c hc => h'.current_lt hc) (.atHeight g₁.height) i
  have hlabels := hline.labels
  have hframeless := h'.frameless.addEdge (.atHeight g₁.height) i
  have hfields : (g₁.addEdge (.atHeight g₁.height) i).current = g₁.current ∧
      (g₁.addEdge (.atHeight g₁.height) i).height = g₁.height ∧
      (g₁.addEdge (.atHeight g₁.height) i).peak = g₁.peak ∧
      (g₁.addEdge (.atHeight g₁.height) i).handlers = g₁.handlers := by
    unfold BlockGraph.addEdge
    split <;> exact ⟨rfl, rfl, rfl, rfl⟩
  refine ⟨h'.congr hline hframeless ?_ rfl fun j e he => ?_, ?_⟩
  · unfold BlockGraph.addEdge
    split
    · exact unsearched_onBlock h'.unsearched _ fun _ => ⟨rfl, rfl⟩
    · exact h'.unsearched
  · rw [hedges] at he
    split at he
    · rcases List.mem_append.1 he with he | he
      · exact h'.edges j e he
      · obtain rfl := List.mem_singleton.1 he
        exact ⟨⟨_, rfl⟩, hlt⟩
    · exact h'.edges j e he
  refine ⟨hm.keeps.trans ⟨fun k j hk => hlabels ▸ hk,
      fun j hj => ⟨(hline.placed j).2 hj, hline.position j⟩, fun j => ?_,
      fun j k hk => (hline.sameAs j).trans hk⟩,
    hfields.1.trans hm.current, hfields.2.1.trans hheight, hfields.2.2.2.trans hhandlers,
    fun j hj k hk => ?_, fun j e he => ?_, fun j hj => hm.placed j ((hline.placed j).1 hj), fun j => ?_⟩
  · rw [hedges]
    split
    · exact List.subset_append_left _ _
    · exact List.Subset.refl _
  · obtain rfl := List.mem_singleton.1 hk
    refine ⟨⟨.atHeight g₁.height, i⟩, ?_, hlabels ▸ hget⟩
    rw [hedges, if_pos (hm.current.trans hj)]
    exact List.mem_append_right _ (List.mem_singleton.2 rfl)
  · rw [hedges] at he
    split at he
    · rename_i hj
      rcases List.mem_append.1 he with he | he
      · exact .inl (hm.sent j e he).1
      · obtain rfl := List.mem_singleton.1 he
        exact .inr ⟨hm.current ▸ hj, congrArg EdgeKind.atHeight hheight, l, List.mem_singleton.2 rfl,
          hlabels ▸ hget⟩
    · exact .inl (hm.sent j e he).1
  · rw [← hpeaks, peakOf_of_heights h'.frameless.mode, peakOf_of_heights hframeless.mode, hfields.1,
      hfields.2.2.1, peakAt_addEdge]

theorem Lined.leadAll (h : Lined r s chain g) (ls : List Label) :
    Lined r s chain (ls.foldl (fun g l => g.leadAtHeight l) g) ∧
      EdgesTo g (ls.foldl (fun g l => g.leadAtHeight l) g) ls := by
  induction ls generalizing g with
  | nil => exact ⟨h, .nil g⟩
  | cons l ls ih =>
    obtain ⟨h', hl⟩ := h.leadAtHeight l
    obtain ⟨h'', hls⟩ := ih h'
    exact ⟨h'', hl.cons hls⟩

theorem edgesAt_closeHeights (g : BlockGraph) (i : BlockId) :
    edgesAt g.closeHeights.blocks i = edgesAt g.blocks i := by
  unfold BlockGraph.closeHeights
  split
  · rename_i c _
    have hread := read_onBlock g c (f := fun b => { b with peak := g.peak }) (fun b => b.edges.toList)
      (fun _ => rfl) i
    unfold edgesAt
    rw [hread]
  · rfl

/-- **Blocks remember their peaks.** -/
theorem Lined.peakAt_closeHeights (h : Lined r s chain g) (i : BlockId) :
    (peakAt g.closeHeights.blocks i).toInt = g.peakOf i := by
  rw [peakOf_of_heights h.frameless.mode]
  refine congrArg Int32.toInt ?_
  unfold BlockGraph.closeHeights
  split
  · rename_i c hc
    unfold peakAt
    rw [getElem?_onBlock, hc]
    by_cases hi : c = i
    · subst hi
      rw [if_pos rfl, if_pos rfl, Array.getElem?_eq_getElem (h.current_lt hc)]
      rfl
    · rw [if_neg hi, if_neg fun heq => hi (Option.some.inj heq)]
  · rename_i hc
    rw [hc, if_neg nofun]

theorem sameLines_closeHeights (g : BlockGraph) : SameLines g g.closeHeights := by
  unfold BlockGraph.closeHeights
  split
  · exact sameLines_onBlock g _ (fun _ => ⟨rfl, rfl, rfl⟩) fun _ => rfl
  · exact .refl g

theorem Lined.closeHeights (h : Lined r s chain g) :
    SameLines g g.closeHeights ∧ Lined r s chain g.closeHeights := by
  have hline := sameLines_closeHeights g
  refine ⟨hline, h.congr hline h.frameless.closeHeights ?_ rfl fun i e he => ?_⟩
  · unfold BlockGraph.closeHeights
    split
    · exact unsearched_onBlock h.unsearched _ fun _ => ⟨rfl, rfl⟩
    · exact h.unsearched
  · rw [edgesAt_closeHeights] at he
    exact h.edges i e he

/-- Blocks stay in their places, and edges are added. -/
theorem SameLines.extends (hl : SameLines g g')
    (hedges : ∀ i, edgesAt g.blocks i ⊆ edgesAt g'.blocks i) : Extends g g' where
  labels _ _ hk := hl.labels ▸ hk
  placed i hi := ⟨(hl.placed i).2 hi, hl.position i⟩
  edges := hedges
  sameAs i _ hj := (hl.sameAs i).trans hj

/-- **The end of a block.** -/
theorem Lined.endBlock (h : Lined r s chain g) (stop : Nat) :
    Lined r s chain (g.endBlock stop) ∧ SameLines g (g.endBlock stop) ∧
      (g.endBlock stop).current = none ∧
      (∀ i, edgesAt (g.endBlock stop).blocks i = edgesAt g.blocks i) ∧
      ∀ i, (g.endBlock stop).peakOf i = g.peakOf i := by
  obtain ⟨hline, hclose⟩ := h.closeHeights
  have hend : g.endBlock stop = { g.closeHeights with current := none } := by
    unfold BlockGraph.endBlock
    simp only [h.frameless.mode]
  have hnone : SameLines g.closeHeights { g.closeHeights with current := none } :=
    ⟨rfl, fun _ => Iff.rfl, fun _ => rfl, fun _ => rfl, fun _ => rfl, rfl, rfl, nofun⟩
  rw [hend]
  refine ⟨hclose.congr hnone (hclose.frameless.congr rfl rfl) hclose.unsearched rfl hclose.edges,
    hline.trans hnone, rfl, edgesAt_closeHeights g, fun i => ?_⟩
  have hpeak : BlockGraph.peakOf { g.closeHeights with current := none } i =
      (peakAt g.closeHeights.blocks i).toInt :=
    (peakOf_of_heights (g := { g.closeHeights with current := none }) hclose.frameless.mode i).trans
      (congrArg Int32.toInt (if_neg nofun))
  exact hpeak.trans (h.peakAt_closeHeights i)

theorem handlers_endBlock (g : BlockGraph) (stop : Nat) : (g.endBlock stop).handlers = g.handlers := by
  obtain ⟨mode, blocks, labels, current, last, height, peak, handlers⟩ := g
  cases mode with
  | frames => rfl
  | maxStack => cases current <;> rfl

section Instruction

variable {o : Instruction Label} {u : StackUse} {stop : Nat}

/-- What an instruction does that control gets to. -/
theorem Lined.moves (h : Lined r s chain g) {c : BlockId} (hc : g.current = some c) {change : Int}
    {peak : Int32} (hs : StepsTo g g' o u stop change peak) :
    Lined r s chain g' ∧ Moves g g' o u stop ∧ g'.handlers = g.handlers := by
  have hmode := h.frameless.mode
  have h₀ : Lined r s chain { g with height := g.height + .ofInt change, peak } :=
    h.congr ⟨rfl, fun _ => Iff.rfl, fun _ => rfl, fun _ => rfl, fun _ => rfl, rfl, rfl, fun _ => id⟩
      (h.frameless.congr rfl rfl) h.unsearched rfl h.edges
  have hext₀ : Extends g { g with height := g.height + .ofInt change, peak } :=
    ⟨fun _ _ => id, fun _ hi => ⟨hi, rfl⟩, fun _ => List.Subset.refl _, fun _ _ => id⟩
  have hpeak₀ : ∀ i, BlockGraph.peakOf { g with height := g.height + .ofInt change, peak } i =
      (if g.current = some i then peak else peakAt g.blocks i).toInt := peakOf_of_heights hmode
  obtain ⟨h₁, hl⟩ := h₀.leadAll o.targets
  have heq := hs.eq
  generalize o.targets.foldl (fun (g : BlockGraph) l => g.leadAtHeight l)
    { g with height := g.height + Int32.ofInt change, peak := peak } = g₁ at h₁ hl heq
  have hc₁ : g₁.current = some c := hl.current.trans hc
  have hheight : ∀ {a}, g.HeightIs a → change = u.net → g.height + .ofInt change = .ofInt (a + u.net) := by
    rintro a ha rfl
    rw [(heightIs_of_heights hmode).1 ha, Int32.ofInt_add]
  -- edges of jumps are there before the block ends
  have hsent : ∀ i e, e ∈ edgesAt g₁.blocks i → e ∈ edgesAt g.blocks i ∨ g.current = some i ∧
      (∀ a, g.HeightIs a → ∀ g₂ : BlockGraph, g₂.Leaves i e (a + u.net)) ∧
        ∃ l ∈ o.targets, g₁.labels.get? l = some e.successor := by
    intro i e he
    rcases hl.sent i e he with hold | ⟨hi, hkind, l, hmem, hget⟩
    · exact .inl hold
    · refine .inr ⟨hi, fun a ha g₂ => ?_, l, hmem, hget⟩
      unfold Leaves
      rw [hkind]
      exact hheight ha (hs.exact (.inr (List.ne_nil_of_mem hmem)))
  have hothers : ∀ i, g.current ≠ some i → g₁.peakOf i = g.peakOf i := fun i hi => by
    rw [hl.peak, hpeak₀, peakOf_of_heights hmode, if_neg hi, if_neg hi]
  have hpeak : ∀ i a, g.current = some i → g.HeightIs a → a ≤ g.peakOf i → u.Within a →
      g₁.peakOf i = max (g.peakOf i) (a + u.net) := by
    intro i a hi ha hle hwithin
    have hexact : g.height.toInt = a := by
      rw [(heightIs_of_heights hmode).1 ha, hwithin.toInt_ofInt]
    rw [peakOf_of_heights hmode, if_pos hi] at hle ⊢
    rw [hl.peak, hpeak₀, if_pos hi, ← hexact]
    exact hs.peak_eq (hexact ▸ hle) (hexact ▸ hwithin)
  cases hfalls : o.fallsThrough with
  | true =>
    rw [hfalls] at heq
    obtain rfl : g' = g₁ := heq
    refine ⟨h₁, ⟨hext₀.trans hl.keeps, hl.sends, fun i e he _ => ?_, fun i hi _ => ?_,
      fun j _ => ⟨c, hc, hfalls⟩, fun j hj => .inl (hl.placed j hj), fun i _ => hothers i, hpeak⟩,
      hl.handlers⟩
    · rcases hsent i e he with hold | ⟨hi, hleaves, hlabel⟩
      · exact .inl ⟨hold, fun a => h.leaves hold _ i⟩
      · exact .inr ⟨hi, fun a ha => hleaves a ha _, .inl hlabel⟩
    · refine ⟨i, hl.current.trans hi, .inl ⟨rfl, fun a ha => ?_⟩⟩
      rw [heightIs_of_heights h₁.frameless.mode, hl.height]
      exact hheight ha (hs.exact (.inl hfalls))
  | false =>
    rw [hfalls] at heq
    obtain rfl : g' = g₁.endBlock stop := heq
    obtain ⟨h', hline, hnone, hedges, hsame⟩ := h₁.endBlock stop
    have hext := hline.extends fun i => (hedges i).symm ▸ List.Subset.refl _
    refine ⟨h', ⟨(hext₀.trans hl.keeps).trans hext, fun i hi l hmem => ?_, fun i e he _ => ?_,
      fun i _ hfalls' => ?_, fun j hj => ?_, fun j hj => .inl (hl.placed j ((hline.placed j).1 hj)),
      fun i _ hi => (hsame i).trans (hothers i hi),
      fun i a hi ha hle hw => (hsame i).trans (hpeak i a hi ha hle hw)⟩,
      (handlers_endBlock g₁ stop).trans hl.handlers⟩
    · obtain ⟨e, he, hget⟩ := hl.sends i hi l hmem
      exact ⟨e, hext.edges i he, hext.labels l _ hget⟩
    · rw [hedges] at he
      rcases hsent i e he with hold | ⟨hi, hleaves, l, hmem, hget⟩
      · exact .inl ⟨hold, fun a => h.leaves hold _ i⟩
      · exact .inr ⟨hi, fun a ha => hleaves a ha _, .inl ⟨l, hmem, hext.labels l _ hget⟩⟩
    · rw [hfalls] at hfalls'
      exact nomatch hfalls'
    · rw [hnone] at hj
      exact nomatch hj

/-- **An instruction.** -/
theorem Lined.instruction (h : Lined r s chain g) (hd : Drawn r s g)
    (hu : o.stackUse? = some u) {start : Nat} {around : Bool} (hstop : ∀ x ∈ s.offsets, x < stop)
    (hrun : step start stop around (CodeWriter.reported o) g T = ((.ok (), g'), T')) :
    ∃ row, Drawn (r.event (.instruction o)) (s.add row stop) g' ∧
      Lined (r.event (.instruction o)) (s.add row stop) chain g' ∧ g'.handlers = g.handlers := by
  have hlength : s.rows.length < s.offsets.length := by
    rw [hd.rows_length, hd.offsets_length]
    exact Nat.lt_succ_self _
  obtain ⟨row, hnow⟩ := hd.exists_rowNow
  refine ⟨row, ?_⟩
  cases hc : g.current with
  | none =>
    rw [step_unreached hc] at hrun
    cases hrun
    exact ⟨hd.instruction hnow hu hstop (moves_unreached hc o u stop), h.add hlength hnow stop, rfl⟩
  | some c =>
    obtain ⟨change, peak, hs⟩ := step_heights h.frameless (by rw [hc]; rfl) hu hrun
    obtain ⟨h', hm, hhandlers⟩ := (h.add hlength hnow stop).moves hc hs
    exact ⟨hd.instruction hnow hu hstop hm, h', hhandlers⟩

end Instruction

end ClassFile.BlockGraph
