/-
# The greatest height is exact

If the heights on entry of the blocks agree along all edges (`Heights`), the search finds the greatest
height of the blocks that can be reached, and nothing else (`computeMaxStack_exact`).  It visits a block
once, with the height that it is found with, so the heights that it finds are the given ones; what it has
found is closed under edges, so it has found what can be reached (`Searchable.greatest`).  Heights that are
on the way may go round, as long as 32 bits hold the greatest height in each block.

The order of edges decides which blocks wait when, but not what is found: graphs that differ in the order
of edges and handlers only have the same greatest height (`Reordered`).
-/
import ClassFile.Proofs.BlockGraph.Weighed
import Mathlib.Data.Int.LeastGreatest
import Mathlib.Order.Bounds.Basic

namespace ClassFile.BlockGraph

variable {g g' : BlockGraph} {blocks : Array Block} {H : BlockId → Int} {T : TypeTable}

/-! ## 1. The search -/

namespace HeightSearch

variable {start : Array Block} {P : BlockId → Int32 → Prop} {s : HeightSearch}

/-- Visiting blocks until none waits any more. -/
inductive Ends : HeightSearch → HeightSearch → Prop where
  | done {blocks : Array Block} {greatest : Int32} : Ends ⟨blocks, [], greatest⟩ ⟨blocks, [], greatest⟩
  | visit {blocks : Array Block} {i : BlockId} {pending : List BlockId} {greatest : Int32}
      {s : HeightSearch} : Ends (visit i ⟨blocks, pending, greatest⟩) s →
      Ends ⟨blocks, i :: pending, greatest⟩ s

/-- A search that has nothing left to visit has not been stopped. -/
theorem ends_run {limit : Nat} (hdone : (run limit s).pending = []) : Ends s (run limit s) := by
  induction limit generalizing s with
  | zero =>
    obtain ⟨blocks, pending, greatest⟩ := s
    obtain rfl : pending = [] := hdone
    exact .done
  | succ limit ih =>
    obtain ⟨blocks, pending, greatest⟩ := s
    cases pending with
    | nil => exact .done
    | cons i pending => exact .visit (ih hdone)

/-- The greatest height is that of a block, unless no block has more than nothing. -/
structure Attained (start : Array Block) (P : BlockId → Int32 → Prop) (greatest : Int32) : Prop where
  nonneg : 0 ≤ greatest.toInt
  attained : greatest = 0 ∨ ∃ i height, P i height ∧ greatest = height + peakAt start i

theorem greatest_followAll (edges : List Edge) (height : Int32) (s : HeightSearch) :
    (edges.foldl (follow height) s).greatest = s.greatest := by
  induction edges generalizing s with
  | nil => rfl
  | cons e edges ih =>
    have hone : (follow height s e).greatest = s.greatest := by
      rcases follow_cases height s e with ⟨hsame, -⟩ | ⟨hfind, -⟩
      · rw [hsame]
      · rw [hfind]
        rfl
    exact (ih _).trans hone

theorem Searching.attained_visit {i : BlockId} {blocks : Array Block} {pending : List BlockId}
    {greatest : Int32} (hs : Searching start P ⟨blocks, i :: pending, greatest⟩)
    (h : Attained start P greatest) :
    Attained start P (HeightSearch.visit i ⟨blocks, pending, greatest⟩).greatest := by
  obtain ⟨height, b, hb, hpending, hheight⟩ := hs.pending i List.mem_cons_self
  have hp : P i height := hs.right i height ⟨b, hb, hpending, hheight⟩
  have hpeak : peakAt start i = b.peak := by
    have hshape := hs.alike i
    rw [show blocks[i]? = some b from hb] at hshape
    obtain ⟨c, hc, hcb⟩ := Option.map_eq_some_iff.1 hshape.symm
    rw [peakAt, hc]
    exact congrArg Prod.snd hcb
  have hgreatest : (visit i ⟨blocks, pending, greatest⟩).greatest =
      max greatest (height + peakAt start i) := by
    unfold HeightSearch.visit
    simp only [show blocks[i]? = some b from hb, ← Array.foldl_toList, greatest_followAll, hheight,
      hpeak]
  rw [hgreatest]
  refine ⟨?_, ?_⟩
  · rw [toInt_max]
    exact Int.le_trans h.nonneg (Int.le_max_left _ _)
  · show (if greatest ≤ height + peakAt start i then height + peakAt start i else greatest) = 0 ∨ _
    split
    · rename_i hle
      exact .inr ⟨i, height, hp, if_pos hle⟩
    · rename_i hlt
      rcases h.attained with hzero | ⟨j, height', hp', heq⟩
      · exact .inl hzero
      · exact .inr ⟨j, height', hp', (if_neg hlt).trans heq⟩

theorem Searched.attained_run {limit : Nat} (hs : Searched start P s)
    (h : Attained start P s.greatest)
    (hp : ∀ i height, P i height → ∀ e ∈ edgesAt start i, P e.successor (e.entering height)) :
    Attained start P (HeightSearch.run limit s).greatest := by
  induction limit generalizing s with
  | zero => exact h
  | succ limit ih =>
    obtain ⟨blocks, pending, greatest⟩ := s
    cases pending with
    | nil => exact h
    | cons i pending => exact ih (hs.visit hp).1 (hs.attained_visit h)

end HeightSearch

/-! ## 2. Heights that agree -/

/-- The height with which an edge enters a block, from one that is entered with a height, when heights do
not go round. -/
def enteredAt (height : Int) (e : Edge) : Int :=
  match e.kind with
  | .atHeight above => height + above.toInt
  | _ => 1

theorem entering_ofInt_eq (e : Edge) (height : Int) :
    e.entering (.ofInt height) = .ofInt (enteredAt height e) := by
  obtain ⟨_ | _ | _ | _, successor⟩ := e
  · rename_i above
    exact Edge.entering_ofInt (congrArg EdgeKind.atHeight (Int32.ofInt_toInt above).symm) height
  all_goals rfl

/-- **Heights on entry that agree** along the edges of all blocks that can be reached. -/
structure Heights (blocks : Array Block) (H : BlockId → Int) : Prop where
  entry : H 0 = 0
  edge : ∀ i, Reaches blocks i → ∀ e ∈ edgesAt blocks i, H e.successor = enteredAt (H i) e

/-- The greatest heights in blocks that can be reached. -/
def summits (blocks : Array Block) (H : BlockId → Int) : Set Int :=
  {x | ∃ i, Reaches blocks i ∧ x = H i + (peakAt blocks i).toInt}

/-- 32 bits hold the greatest heights in blocks that can be reached. -/
def SummitsHeld (blocks : Array Block) (H : BlockId → Int) : Prop :=
  ∀ x ∈ summits blocks H, -2 ^ 31 ≤ x ∧ x < 2 ^ 31

theorem SummitsHeld.toInt_eq (hheld : SummitsHeld blocks H) {i : BlockId} (hi : Reaches blocks i) :
    (.ofInt (H i) + peakAt blocks i : Int32).toInt = H i + (peakAt blocks i).toInt := by
  obtain ⟨hlow, hhigh⟩ := hheld _ ⟨i, hi, rfl⟩
  rw [← Int32.ofInt_toInt (peakAt blocks i), ← Int32.ofInt_add, Int32.ofInt_toInt]
  exact Int32.toInt_ofInt_of_le hlow hhigh

/-- Where no block is another name, edges lead to their successors. -/
theorem Reaches.successor (hplain : ∀ i, aliasAt blocks i = none) {i : BlockId} {e : Edge}
    (hi : Reaches blocks i) (he : e ∈ edgesAt blocks i) : Reaches blocks e.successor := by
  have htarget := hi.edge he
  rwa [targetOf, follow_of_first (hplain _)] at htarget

/-- What a search needs of the blocks. -/
structure Searchable (g : BlockGraph) : Prop where
  unsearched : Unsearched g.blocks
  pos : 0 < g.blocks.size
  plain : ∀ i, aliasAt g.blocks i = none
  successor_lt : ∀ i, ∀ e ∈ edgesAt g.blocks i, e.successor < g.blocks.size

/-- **What is found is the greatest of the heights**, or nothing if they are all below. -/
theorem Searchable.greatest (hg : g.Searchable) (hH : Heights g.blocks H)
    (hheld : SummitsHeld g.blocks H) :
    ∃ m, IsGreatest (summits g.blocks H) m ∧ g.searchHeights.2.toInt = max 0 m := by
  have hp : ∀ i height, Reaches g.blocks i ∧ height = .ofInt (H i) → ∀ e ∈ edgesAt g.blocks i,
      Reaches g.blocks e.successor ∧ e.entering height = .ofInt (H e.successor) := by
    rintro i _ ⟨hi, rfl⟩ e he
    exact ⟨hi.successor hg.plain he, by rw [entering_ofInt_eq, hH.edge i hi e he]⟩
  have hstart := searched_start (P := fun i height => Reaches g.blocks i ∧ height = .ofInt (H i))
    hg.unsearched hg.pos ⟨.entry, by rw [hH.entry]; rfl⟩
  obtain ⟨hs, hdone⟩ := hstart.run (load_searchStart g) hp
  obtain ⟨hnonneg, hattained⟩ : HeightSearch.Attained g.blocks _ g.searchHeights.2 :=
    hstart.attained_run ⟨Int.le_refl 0, .inl rfl⟩ hp
  -- what can be reached has been found, since nothing waits any more
  have hfound : ∀ i, Reaches g.blocks i →
      Found (HeightSearch.run (g.blocks.size + 1) (searchStart g)).blocks i := by
    intro i hi
    induction hi with
    | entry => exact ⟨0, hs.entry⟩
    | @edge i e _ he ih =>
      obtain ⟨height, hf⟩ := ih
      rw [targetOf, follow_of_first (hg.plain _)]
      exact (hs.followed i height hf (hdone ▸ List.not_mem_nil)).1 e he (hg.successor_lt i e he)
  have hle : ∀ x ∈ summits g.blocks H, x ≤ g.searchHeights.2.toInt := by
    rintro x ⟨i, hi, rfl⟩
    obtain ⟨height, hf⟩ := hfound i hi
    rw [← hheld.toInt_eq hi, ← (hs.right i height hf).2]
    exact (hs.followed i height hf (hdone ▸ List.not_mem_nil)).2
  rcases hattained with hzero | ⟨i, height, ⟨hi, rfl⟩, heq⟩
  · obtain ⟨m, hm, hmax⟩ := Int.exists_greatest_of_bdd (P := (· ∈ summits g.blocks H))
      ⟨_, hle⟩ ⟨_, 0, .entry, rfl⟩
    refine ⟨m, ⟨hm, hmax⟩, ?_⟩
    have := hle m hm
    rw [hzero] at this ⊢
    exact (Int.max_eq_left this).symm
  · refine ⟨g.searchHeights.2.toInt, ⟨⟨i, hi, ?_⟩, hle⟩, (Int.max_eq_right hnonneg).symm⟩
    rw [heq, hheld.toInt_eq hi]

/-! ## 3. The order of edges -/

/-- The same graph, to which edges and handlers may have been added in another order. -/
structure Reordered (g g' : BlockGraph) : Prop where
  mode : g'.mode = g.mode
  labels : g'.labels = g.labels
  current : g'.current = g.current
  last : g'.last = g.last
  height : g'.height = g.height
  peak : g'.peak = g.peak
  handlers : g'.handlers.toList.Perm g.handlers.toList
  blocks : ∀ i : BlockId, ∀ b, g.blocks[i]? = some b → ∃ edges : Array Edge,
    edges.toList.Perm b.edges.toList ∧ g'.blocks[i]? = some { b with edges }
  size : g'.blocks.size = g.blocks.size

theorem Reordered.refl (g : BlockGraph) : Reordered g g :=
  ⟨rfl, rfl, rfl, rfl, rfl, rfl, .refl _, fun _ b hb => ⟨b.edges, .refl _, hb⟩, rfl⟩

/-- What has nothing to do with edges can be read off both graphs. -/
theorem Reordered.read {α : Type} (h : Reordered g g') {ρ : Block → α}
    (hρ : ∀ b edges, ρ { b with edges } = ρ b) (i : BlockId) :
    g'.blocks[i]?.map ρ = g.blocks[i]?.map ρ := by
  cases hb : g.blocks[i]? with
  | none =>
    rw [Array.getElem?_eq_none_iff, ← h.size, ← Array.getElem?_eq_none_iff] at hb
    rw [hb]
  | some b =>
    obtain ⟨edges, -, hb'⟩ := h.blocks i b hb
    rw [hb']
    exact congrArg some (hρ b edges)

theorem Reordered.mem_edgesAt_iff (h : Reordered g g') {i : BlockId} {e : Edge} :
    e ∈ edgesAt g'.blocks i ↔ e ∈ edgesAt g.blocks i := by
  cases hb : g.blocks[i]? with
  | none =>
    have hb' : g'.blocks[i]? = none := by
      rwa [Array.getElem?_eq_none_iff, h.size, ← Array.getElem?_eq_none_iff]
    rw [edgesAt, edgesAt, hb, hb']
  | some b =>
    obtain ⟨edges, hperm, hb'⟩ := h.blocks i b hb
    rw [edgesAt, edgesAt, hb, hb']
    exact hperm.mem_iff

theorem Reordered.peakAt_eq (h : Reordered g g') (i : BlockId) :
    peakAt g'.blocks i = peakAt g.blocks i := by
  rw [peakAt, peakAt, h.read fun _ _ => rfl]

theorem Reordered.sameLines (h : Reordered g g') : SameLines g g' where
  size := h.size
  placed i := by rw [isPlaced_iff, isPlaced_iff, h.read fun _ _ => rfl]
  position i := by rw [positionOf, positionOf, h.read fun _ _ => rfl]
  next i := by
    rw [nextAt, nextAt, ← getD_map_none, ← getD_map_none, h.read fun _ _ => rfl]
  sameAs i := by
    rw [aliasAt, aliasAt, ← getD_map_none, ← getD_map_none, h.read fun _ _ => rfl]
  labels := h.labels
  last := h.last
  current i hi := h.current ▸ hi

theorem Reordered.unsearched (h : Reordered g g') (hg : Unsearched g.blocks) :
    Unsearched g'.blocks := by
  intro b hb
  obtain ⟨i, hi⟩ := Array.getElem?_of_mem hb
  have hread : g'.blocks[i]?.map (fun b => (b.isPending, b.entryHeight)) =
      g.blocks[i]?.map fun b => (b.isPending, b.entryHeight) := h.read (fun _ _ => rfl) i
  rw [hi] at hread
  obtain ⟨c, hc, hcb⟩ := Option.map_eq_some_iff.1 hread.symm
  obtain ⟨hpending, hheight⟩ := Prod.mk.injEq .. ▸ hcb
  rw [← hpending, ← hheight]
  exact hg c (Array.mem_of_getElem? hc)

theorem Reordered.closeHeights (h : Reordered g g') :
    Reordered g.closeHeights g'.closeHeights := by
  unfold BlockGraph.closeHeights
  rw [h.current, h.peak]
  split
  · rename_i c _
    refine ⟨h.mode, h.labels, h.current, h.last, h.height, h.peak, h.handlers, fun i b hb => ?_, ?_⟩
    · rw [getElem?_onBlock] at hb ⊢
      split at hb
      · rename_i hi
        obtain ⟨b₀, hb₀, rfl⟩ := Option.map_eq_some_iff.1 hb
        obtain ⟨edges, hperm, hb'⟩ := h.blocks i b₀ hb₀
        exact ⟨edges, hperm, by rw [if_pos hi, hb']; rfl⟩
      · rename_i hi
        obtain ⟨edges, hperm, hb'⟩ := h.blocks i b hb
        exact ⟨edges, hperm, by rw [if_neg hi, hb']⟩
    · rw [size_onBlock, size_onBlock, h.size]
  · exact h

/-- The same edges and peaks, whatever their order. -/
structure Alike (g g' : BlockGraph) : Prop where
  edges : ∀ i e, e ∈ edgesAt g'.blocks i ↔ e ∈ edgesAt g.blocks i
  peak : ∀ i, peakAt g'.blocks i = peakAt g.blocks i

/-- **The same blocks can be reached**, with the same heights. -/
theorem Alike.summits_eq (h : Alike g g') (hg : g.Searchable) (hg' : g'.Searchable)
    (hH : Heights g.blocks H) :
    Heights g'.blocks H ∧ summits g'.blocks H = summits g.blocks H := by
  have hreaches : ∀ {g g' : BlockGraph}, g.Searchable → g'.Searchable →
      (∀ i e, e ∈ edgesAt g.blocks i → e ∈ edgesAt g'.blocks i) →
      ∀ {i : BlockId}, Reaches g.blocks i → Reaches g'.blocks i := by
    intro g g' hg hg' hedges i hi
    induction hi with
    | entry => exact .entry
    | @edge i e _ he ih =>
      rw [targetOf, follow_of_first (hg.plain _)]
      exact ih.successor hg'.plain (hedges i e he)
  have hiff : ∀ i, Reaches g'.blocks i ↔ Reaches g.blocks i := fun i =>
    ⟨hreaches hg' hg fun i e => (h.edges i e).1, hreaches hg hg' fun i e => (h.edges i e).2⟩
  refine ⟨⟨hH.entry, fun i hi e he => hH.edge i ((hiff i).1 hi) e ((h.edges i e).1 he)⟩, ?_⟩
  unfold summits
  simp only [hiff, h.peak]

/-- **Edges to handlers** are the same ones, in another order. -/
theorem Reordered.addAllHandlerEdges (h : Reordered g g') (hg : g.Weighed) (T : TypeTable) :
    ∃ g₁ g₁', addAllHandlerEdges g T = ((.ok (), g₁), T) ∧
      BlockGraph.addAllHandlerEdges g' T = ((.ok (), g₁'), T) ∧ Alike g₁ g₁' ∧
      g₁.Searchable ∧ g₁'.Searchable := by
  obtain ⟨g₁, hrun, hjoins, hlt⟩ := hg.addAllHandlerEdges T
  obtain ⟨g₁', hrun', hjoins'⟩ := joins_addAllHandlerEdges (h.mode.trans hg.mode) T
  have hsize : g₁'.blocks.size = g₁.blocks.size :=
    hjoins'.lines.size.trans (h.size.trans hjoins.lines.size.symm)
  have halike : Alike g₁ g₁' := by
    refine ⟨fun i e => ?_, fun i => ?_⟩
    · rw [hjoins.edges, hjoins'.edges, h.mem_edgesAt_iff]
      simp only [h.handlers.mem_iff, h.sameLines.throws_iff]
    · rw [hjoins.peak, hjoins'.peak, h.peakAt_eq]
  have hpos : 0 < g₁.blocks.size :=
    Nat.lt_of_lt_of_eq (Nat.zero_lt_of_lt hg.indexed.last_lt) hjoins.lines.size.symm
  refine ⟨g₁, g₁', hrun, hrun', halike, ⟨hjoins.unsearched hg.unsearched, hpos, fun i => ?_, hlt⟩,
    ⟨hjoins'.unsearched (h.unsearched hg.unsearched), hsize ▸ hpos, fun i => ?_, fun i e he => ?_⟩⟩
  · rw [hjoins.lines.sameAs, hg.aliasAt_eq]
  · rw [hjoins'.lines.sameAs, h.sameLines.sameAs, hg.aliasAt_eq]
  · exact hsize ▸ hlt i e ((halike.edges i e).1 he)

/-! ## 4. All graphs -/

/-- **The search for the greatest height is exact**, for every graph that operations have built.  While
edges to handlers are added, the walks along `next` and along aliases end; and so does the search.  If
there are heights on entry that agree along the edges, those to handlers included, and 32 bits hold the
greatest heights in the blocks that can be reached, the result is the greatest of these, between 0 and
65535; and the order in which edges and handlers were added does not matter. -/
theorem computeMaxStack_exact {T₀ : TypeTable} (os : List GraphOperation)
    (hos : (os.filterMap GraphOperation.placed?).Nodup)
    (hbuild : operate os (start .maxStack) T₀ = (g, T)) :
    (∀ g₁ T₁, Relation.ReflTransGen AddsEdges (g.closeHeights, T) (g₁, T₁) →
      ∀ i, Walk (nextAt g₁.blocks) (some i) (g₁.chain i) ∧
        ∃ others, Walk (aliasAt g₁.blocks) (some i) (others ++ [g₁.first i])) ∧
    ∃ g₁, addAllHandlerEdges g.closeHeights T = ((.ok (), g₁), T) ∧
      HeightSearch.Ends (searchStart g₁)
        (HeightSearch.run (g₁.blocks.size + 1) (searchStart g₁)) ∧
      ∀ H, Heights g₁.blocks H → SummitsHeld g₁.blocks H → ∃ m written, IsGreatest (summits g₁.blocks H) m ∧
        (written.toNat : Int) = min (max 0 m) 65535 ∧
        (∃ g₂, computeMaxStack g T = ((.ok written, g₂), T)) ∧
        ∀ g', Reordered g g' → ∃ g₂, computeMaxStack g' T = ((.ok written, g₂), T) := by
  have honce : PlacesOnce GraphOperation.placed? (fun _ => False) os := ⟨fun _ _ => id, hos⟩
  obtain ⟨hg, placed, hm⟩ := weighed_start.operate mapped_start honce T₀
  rw [hbuild] at hg hm
  have hclose := hg.closeHeights
  refine ⟨fun g₁ T₁ hadds i => ?_, ?_⟩
  · obtain ⟨-, hlines⟩ := AddsEdges.sameLines hclose.mode hadds
    have ht := hm.threaded.closeHeights.of_sameLines hlines
    have hpos : 0 < g₁.blocks.size :=
      Nat.lt_of_lt_of_eq (Nat.zero_lt_of_lt hclose.indexed.last_lt) hlines.size.symm
    exact ⟨ht.walk_chain hpos i, ht.walk_first i⟩
  · obtain ⟨g₁, -, hrun, -, -, hs, -⟩ := (Reordered.refl g.closeHeights).addAllHandlerEdges hclose T
    refine ⟨g₁, hrun, ?_, fun H hH hheld => ?_⟩
    · have hstart := searched_start (P := fun _ _ => True) hs.unsearched hs.pos trivial
      exact HeightSearch.ends_run (hstart.run (load_searchStart g₁) fun _ _ _ _ _ => trivial).2
    · obtain ⟨m, hm, hgreatest⟩ := hs.greatest hH hheld
      refine ⟨m, writtenHeight (max 0 m), hm, ?_, ?_, fun g' hg' => ?_⟩
      · rw [toNat_writtenHeight]
        omega
      · rw [computeMaxStack_of_edges hrun, hgreatest]
        exact ⟨_, rfl⟩
      · obtain ⟨g₂, g₃, hrun₂, hrun₃, halike, hs₂, hs₃⟩ :=
          hg'.closeHeights.addAllHandlerEdges hclose T
        obtain rfl : g₁ = g₂ := congrArg (fun r => r.1.2) (hrun.symm.trans hrun₂)
        obtain ⟨hH', hsummits⟩ := halike.summits_eq hs hs₃ hH
        obtain ⟨m', hm', hgreatest'⟩ := hs₃.greatest hH' (by unfold SummitsHeld; rwa [hsummits])
        rw [hsummits] at hm'
        rw [computeMaxStack_of_edges hrun₃, hgreatest', hm'.unique hm]
        exact ⟨_, rfl⟩

/-- A number that is left for the next block, which throws, and code behind it to which nothing leads. -/
def deadOperations : List GraphOperation :=
  [.event (.instruction 0 1 false (.simple Opcode.iconst0)), .event (.split 1),
    .event (.instruction 1 2 false (.simple Opcode.iconst0)),
    .event (.instruction 2 3 false (.simple Opcode.athrow)), .event (.split 3),
    .event (.instruction 3 4 false (.simple Opcode.dup2)),
    .event (.instruction 4 5 false (.simple Opcode.dup2))]

set_option maxRecDepth 20000 in
/-- Only the blocks that can be reached count. -/
theorem computeMaxStack_exact_dead : ∃ g,
    computeMaxStack (operate deadOperations (start .maxStack) .empty).1 .empty =
      ((.ok 2, g), .empty) := by
  have hbuild : operate deadOperations (start .maxStack) .empty =
      ((operate deadOperations (start .maxStack) .empty).1, .empty) := rfl
  obtain ⟨-, g₁, hrun, -, hgreatest⟩ := computeMaxStack_exact deadOperations (by decide) hbuild
  obtain rfl : (operate deadOperations (start .maxStack) .empty).1.closeHeights = g₁ :=
    congrArg (fun r => r.1.2) hrun
  have hedges : ∀ i, ∀ e ∈ edgesAt
      (operate deadOperations (start .maxStack) .empty).1.closeHeights.blocks i,
      i = 0 ∧ e = ⟨.atHeight 1, 1⟩ := by
    rintro (_ | _ | _ | i) e he
    · exact ⟨rfl, List.mem_singleton.1 he⟩
    all_goals exact absurd he List.not_mem_nil
  have hreaches : ∀ {i}, Reaches
      (operate deadOperations (start .maxStack) .empty).1.closeHeights.blocks i → i = 0 ∨ i = 1 := by
    intro i hi
    cases hi with
    | entry => exact .inl rfl
    | edge _ he =>
      obtain ⟨-, rfl⟩ := hedges _ _ he
      exact .inr rfl
  have hsummits : ∀ x ∈ summits (operate deadOperations (start .maxStack) .empty).1.closeHeights.blocks
      (fun i => (i : Int)), x = 1 ∨ x = 2 := by
    rintro x ⟨i, hi, rfl⟩
    rcases hreaches hi with rfl | rfl
    · exact .inl rfl
    · exact .inr rfl
  have hheld : SummitsHeld (operate deadOperations (start .maxStack) .empty).1.closeHeights.blocks
      fun i => (i : Int) := fun x hx => by
    rcases hsummits x hx with rfl | rfl <;> decide
  obtain ⟨m, written, ⟨hm, hmax⟩, hwritten, ⟨g, hcompute⟩, -⟩ := hgreatest (fun i => (i : Int))
    ⟨rfl, fun i _ e he => by obtain ⟨rfl, rfl⟩ := hedges i e he; rfl⟩ hheld
  have hone : Reaches (operate deadOperations (start .maxStack) .empty).1.closeHeights.blocks 1 :=
    Reaches.entry.edge (e := ⟨.atHeight 1, 1⟩) (List.mem_singleton.2 rfl)
  have htwo : 2 ≤ m := hmax ⟨1, hone, rfl⟩
  obtain rfl : m = 2 := (hsummits m hm).resolve_left (by omega)
  obtain rfl : written = 2 := UInt16.toNat_inj.1 (Int.ofNat.inj hwritten)
  exact ⟨g, hcompute⟩

end ClassFile.BlockGraph
