/-
# Graphs of heights, whatever they were built by

Operations may fail, and report what no method would have: jumps to labels that are never placed, or a
switch with any opcode.  Where only heights are recorded, the graph behind them is still one that can be
searched (`Weighed`): no block has been found, and edges, labels and the chain lead to blocks that are
there.  As long as no label is placed twice, nothing leads back along the chain (`Mapped`).

Whatever an instruction is, it changes the height, leads to labels and ends its block, in some order; so
what these three keep, each instruction keeps (`Kept.step`), also when it fails.
-/
import ClassFile.Proofs.BlockGraph.Ends
import ClassFile.Proofs.BlockGraph.Thrown

namespace ClassFile

/-! ## 1. Graphs that can be searched -/

/-- A block that has not been found, in a graph of `n` blocks without frames.  It is no other name for
another one. -/
structure Block.Weighed (n : Nat) (b : Block) : Prop where
  frame : b.frame = none
  unsearched : b.isPending = false ∧ b.entryHeight = 0
  plain : b.sameAs = none
  edges : ∀ e ∈ b.edges, e.successor < n

theorem Block.Weighed.mono {n n' : Nat} {b : Block} (hb : b.Weighed n) (hn : n ≤ n') :
    b.Weighed n' :=
  ⟨hb.frame, hb.unsearched, hb.plain, fun e he => Nat.lt_of_lt_of_le (hb.edges e he) hn⟩

namespace BlockGraph

/-- **A graph of heights in which nothing leads outside.** -/
structure Weighed (g : BlockGraph) : Prop where
  mode : g.mode = .maxStack
  blocks : ∀ b ∈ g.blocks, b.Weighed g.blocks.size
  indexed : g.Indexed

variable {g g' : BlockGraph} {free : BlockId → Prop} {placed : Label → Prop} {i j : BlockId}
  {l : Label} {T T' : TypeTable}

theorem Weighed.frameless (hg : g.Weighed) : g.Frameless :=
  ⟨hg.mode, fun b hb => (hg.blocks b hb).frame⟩

theorem Weighed.unsearched (hg : g.Weighed) : Unsearched g.blocks :=
  fun b hb => (hg.blocks b hb).unsearched

theorem Weighed.aliasAt_eq (hg : g.Weighed) (i : BlockId) : aliasAt g.blocks i = none := by
  cases hb : g.blocks[i]? with
  | none => rw [aliasAt, hb, Option.bind_none]
  | some b =>
    rw [aliasAt, hb]
    exact (hg.blocks b (Array.mem_of_getElem? hb)).plain

theorem Weighed.successor_lt (hg : g.Weighed) {e : Edge} (he : e ∈ edgesAt g.blocks i) :
    e.successor < g.blocks.size := by
  cases hb : g.blocks[i]? with
  | none =>
    rw [edgesAt, hb] at he
    exact absurd he List.not_mem_nil
  | some b =>
    rw [edgesAt, hb] at he
    exact (hg.blocks b (Array.mem_of_getElem? hb)).edges e (Array.mem_toList_iff.1 he)

theorem weighed_start : (start .maxStack).Weighed where
  mode := rfl
  blocks b hb := by
    obtain rfl := Array.mem_singleton.1 hb
    exact ⟨rfl, ⟨rfl, rfl⟩, rfl, fun e he => absurd he (Array.not_mem_empty e)⟩
  indexed := by
    refine ⟨InternTable.linked_empty, fun l i hi => ?_, Nat.one_pos⟩
    exact nomatch (get?_start l).symm.trans hi

theorem Weighed.onBlock (hg : g.Weighed) (i : BlockId) {f : Block → Block}
    (hf : ∀ b, b.Weighed g.blocks.size → (f b).Weighed g.blocks.size) : (g.onBlock i f).Weighed := by
  have hsize := size_onBlock g i f
  refine ⟨hg.mode, fun b hb => ?_, hg.indexed.labels_linked, fun l j hj => ?_, ?_⟩
  · rw [hsize]
    rcases mem_onBlock hb with hb | ⟨c, hc, rfl⟩
    · exact hg.blocks b hb
    · exact hf c (hg.blocks c hc)
  · exact hsize ▸ hg.indexed.label_lt l j hj
  · exact hsize ▸ hg.indexed.last_lt

/-- What is neither mode, blocks nor labels may change. -/
theorem Weighed.congr (hg : g.Weighed) (hmode : g'.mode = g.mode) (hblocks : g'.blocks = g.blocks)
    (hlabels : g'.labels = g.labels) (hlast : g'.last < g.blocks.size) : g'.Weighed := by
  refine ⟨hmode.trans hg.mode, ?_, hlabels ▸ hg.indexed.labels_linked, ?_, hblocks ▸ hlast⟩
  · rw [hblocks]
    exact hg.blocks
  · rw [hlabels, hblocks]
    exact hg.indexed.label_lt

theorem Weighed.newBlock (hg : g.Weighed) : g.newBlock.2.Weighed := by
  obtain ⟨mode, blocks, labels, current, last, height, peak, handlers⟩ := g
  obtain rfl : mode = .maxStack := hg.mode
  have hsize : (blocks.push (Block.empty none)).size = blocks.size + 1 := Array.size_push _
  have hle : blocks.size ≤ (blocks.push (Block.empty none)).size := hsize ▸ Nat.le_succ _
  refine ⟨rfl, fun b hb => ?_, hg.indexed.labels_linked,
    fun l i hi => Nat.lt_of_lt_of_le (hg.indexed.label_lt l i hi) hle,
    Nat.lt_of_lt_of_le hg.indexed.last_lt hle⟩
  rcases Array.mem_push.1 hb with hb | rfl
  · exact (hg.blocks b hb).mono hle
  · exact ⟨rfl, ⟨rfl, rfl⟩, rfl, fun e he => absurd he (Array.not_mem_empty e)⟩

theorem Weighed.blockOf (hg : g.Weighed) (l : Label) :
    (g.blockOf l).2.Weighed ∧ (g.blockOf l).1 < (g.blockOf l).2.blocks.size := by
  have hindexed := hg.indexed.blockOf l
  refine ⟨⟨(blockOf_fields g l).1.trans hg.mode, ?_, hindexed⟩, ?_⟩
  · unfold BlockGraph.blockOf
    split
    · exact hg.blocks
    · exact hg.newBlock.blocks
  · refine hindexed.label_lt l _ ?_
    rw [get?_blockOf hg.indexed.labels_linked, if_pos rfl]

theorem Weighed.addEdge (hg : g.Weighed) (kind : EdgeKind) (hi : i < g.blocks.size) :
    (g.addEdge kind i).Weighed := by
  unfold BlockGraph.addEdge
  split
  · refine hg.onBlock _ fun b hb => ⟨hb.frame, hb.unsearched, hb.plain, fun e he => ?_⟩
    rcases Array.mem_push.1 he with he | rfl
    · exact hb.edges e he
    · exact hi
  · exact hg

theorem Weighed.closeHeights (hg : g.Weighed) : g.closeHeights.Weighed := by
  unfold BlockGraph.closeHeights
  split
  · exact hg.onBlock _ fun _ hb => ⟨hb.frame, hb.unsearched, hb.plain, hb.edges⟩
  · exact hg

theorem Weighed.append (hg : g.Weighed) (hi : i < g.blocks.size) : (g.append i).Weighed := by
  have hlast := hg.onBlock g.last (f := fun b => { b with next := some i }) fun _ hb =>
    ⟨hb.frame, hb.unsearched, hb.plain, hb.edges⟩
  exact hlast.congr rfl rfl rfl (Nat.lt_of_lt_of_eq hi (size_onBlock ..).symm)

/-! ## 2. Operations -/

/-- The block that starts, as the last one of the chain. -/
theorem startBlock_heights (hmode : g.mode = .maxStack) (i : BlockId) (position : Nat) :
    g.startBlock i position = BlockGraph.append i
      { (g.place i position).closeHeights.addEdge (.atHeight (g.place i position).height) i with
        current := some i, height := 0, peak := 0 } := by
  obtain ⟨mode, blocks, labels, current, last, height, peak, handlers⟩ := g
  cases hmode
  rfl

theorem endBlock_heights (hmode : g.mode = .maxStack) (stop : Nat) :
    g.endBlock stop = { g.closeHeights with current := none } := by
  obtain ⟨mode, blocks, labels, current, last, height, peak, handlers⟩ := g
  cases hmode
  rfl

theorem Weighed.startBlock (hg : g.Weighed) (hi : i < g.blocks.size) (position : Nat) :
    (g.startBlock i position).Weighed := by
  have hplaced : (g.place i position).Weighed :=
    hg.onBlock i fun _ hb => ⟨hb.frame, hb.unsearched, hb.plain, hb.edges⟩
  have hlt : i < (g.place i position).closeHeights.blocks.size :=
    Nat.lt_of_lt_of_eq hi ((sameLines_closeHeights _).size.trans (size_place g i position)).symm
  have hedge := hplaced.closeHeights.addEdge (.atHeight (g.place i position).height) hlt
  rw [startBlock_heights hg.mode]
  have hstarted : Weighed { (g.place i position).closeHeights.addEdge
      (.atHeight (g.place i position).height) i with current := some i, height := 0, peak := 0 } :=
    hedge.congr rfl rfl rfl hedge.indexed.last_lt
  exact hstarted.append (Nat.lt_of_lt_of_eq hlt (size_addEdge ..).symm)

theorem Weighed.endBlock (hg : g.Weighed) (stop : Nat) : (g.endBlock stop).Weighed := by
  rw [endBlock_heights hg.mode]
  exact hg.closeHeights.congr rfl rfl rfl hg.closeHeights.indexed.last_lt

theorem Weighed.label (hg : g.Weighed) (l : Label) (position : Nat) :
    (g.label l position).Weighed := by
  obtain ⟨hg', hi⟩ := hg.blockOf l
  exact hg'.startBlock hi position

theorem Weighed.splitAt (hg : g.Weighed) (position : Nat) :
    (CodeWriter.splitAt position g).Weighed :=
  hg.newBlock.startBlock (Nat.lt_of_lt_of_eq (Nat.lt_succ_self _) (Array.size_push _).symm) position

theorem Weighed.leadAtHeight (hg : g.Weighed) (l : Label) : (g.leadAtHeight l).Weighed := by
  obtain ⟨hg', hi⟩ := hg.blockOf l
  exact hg'.addEdge _ hi

theorem Weighed.addHandler (hg : g.Weighed) (r : HandlerRange) : (g.addHandler r).Weighed := by
  have hm : (g.mention r).Weighed :=
    (((hg.blockOf r.start).1.blockOf r.stop).1.blockOf r.handler).1
  rw [addHandler_eq]
  exact hm.congr rfl rfl rfl hm.indexed.last_lt

theorem Threaded.closeHeights (h : Threaded free g) : Threaded free g.closeHeights := by
  unfold BlockGraph.closeHeights
  split
  · exact h.onBlock _ fun _ => ⟨rfl, rfl⟩
  · exact h

/-- **A free block is started**, and no other one has its place. -/
theorem Threaded.startBlock_heights (h : Threaded free g) (hmode : g.mode = .maxStack) (hi : free i)
    (hlt : i < g.blocks.size) (position : Nat) :
    Threaded (fun j => free j ∧ j ≠ i) (g.startBlock i position) := by
  have hplaced : Threaded free (g.place i position) := h.onBlock i fun _ => ⟨rfl, rfl⟩
  have hedge := hplaced.closeHeights.addEdge (.atHeight (g.place i position).height) i
  have hsize : ((g.place i position).closeHeights.addEdge
      (.atHeight (g.place i position).height) i).blocks.size = g.blocks.size :=
    (size_addEdge ..).trans ((sameLines_closeHeights _).size.trans (size_place g i position))
  have happend : Threaded (fun j => free j ∧ j ≠ i) (BlockGraph.append i
      { (g.place i position).closeHeights.addEdge (.atHeight (g.place i position).height) i with
        current := some i }) :=
    hedge.append hi (Nat.lt_of_lt_of_eq hlt hsize.symm) fun j hj => (Option.some.inj hj).symm
  rw [BlockGraph.startBlock_heights hmode]
  exact happend.congr (Nat.le_refl _) (fun _ => rfl) (fun _ => rfl) rfl happend.current

theorem Mapped.endBlock_heights (h : Mapped placed g) (hmode : g.mode = .maxStack) (stop : Nat) :
    Mapped placed (g.endBlock stop) := by
  rw [BlockGraph.endBlock_heights hmode]
  exact h.of_threaded (sameLines_closeHeights g).labels (h.threaded.closeHeights.withCurrent nofun)

theorem Mapped.leadAtHeight (h : Mapped placed g) (hg : g.Indexed) (l : Label) :
    Mapped placed (g.leadAtHeight l) := (h.blockOf hg l).1.addEdge _ _

theorem Mapped.label_heights (h : Mapped placed g) (hg : g.Weighed) (hfresh : ¬ placed l)
    (position : Nat) : Mapped (fun k => placed k ∨ k = l) (g.label l position) := by
  obtain ⟨h', hget⟩ := h.blockOf hg.indexed l
  obtain ⟨hg', hlt⟩ := hg.blockOf l
  obtain ⟨-, hlabels, -⟩ := startBlock_fields hg'.mode (g.blockOf l).1 position
  exact h'.settle hget hfresh hlabels
    (h'.threaded.startBlock_heights hg'.mode ⟨l, hget, hfresh⟩ hlt position)

theorem Mapped.splitAt_heights (h : Mapped placed g) (hg : g.Weighed) (position : Nat) :
    Mapped placed (CodeWriter.splitAt position g) := by
  obtain ⟨-, hlabels, -⟩ := startBlock_fields hg.newBlock.mode g.newBlock.1 position
  have hnew := (h.threaded.newBlock hg.indexed.last_lt).startBlock_heights hg.newBlock.mode
    (.inr rfl) (Nat.lt_of_lt_of_eq (Nat.lt_succ_self _) (Array.size_push _).symm) position
  refine h.of_threaded hlabels (hnew.of_free (free_newBlock fun j hj => ?_))
  obtain ⟨l, hl, -⟩ := hj
  exact hg.indexed.label_lt l j hl

/-! ## 3. Instructions -/

/-- What instructions keep, whatever they are. -/
structure Kept (P : BlockGraph → Prop) : Prop where
  frameless : ∀ g, P g → g.Frameless
  heights : ∀ g height peak, P g → P { g with height, peak }
  leadAtHeight : ∀ g l, P g → P (g.leadAtHeight l)
  endBlock : ∀ g stop, P g → P (g.endBlock stop)

/-- An operation keeps a property, also when it fails. -/
def Keeps {α : Type} (P : BlockGraph → Prop) (f : GraphM α) : Prop := ∀ g T, P g → P (f g T).1.2

section Kept

variable {P : BlockGraph → Prop} {α β : Type}

theorem Keeps.bind {m : GraphM α} {k : α → GraphM β} (hm : Keeps P m) (hk : ∀ a, Keeps P (k a)) :
    Keeps P (m >>= k) := by
  intro g T hg
  have hg' := hm g T hg
  rw [bind_apply₂]
  rcases hr : (m g T : (Except Error α × BlockGraph) × TypeTable) with ⟨⟨e | a, g'⟩, T'⟩
  · rw [hr] at hg'
    exact hg'
  · rw [hr] at hg'
    exact hk a g' T' hg'

theorem Keeps.pure (a : α) : Keeps P (Pure.pure a) := fun _ _ hg => hg

theorem Keeps.lift (x : Except Error α) : Keeps P (liftM x : GraphM α) := fun _ _ hg => hg

theorem Keeps.modify {k : BlockGraph → BlockGraph} (hk : ∀ g, P g → P (k g)) :
    Keeps P (modify k) := fun g _ hg => hk g hg

theorem Keeps.whenReached {act : GraphM Unit} (h : Keeps P act) : Keeps P (whenReached act) := by
  intro g T hg
  rw [whenReached_apply]
  split
  · exact h g T hg
  · exact hg

variable (hP : Kept P)

include hP

theorem Kept.byMode {frames heights : GraphM Unit} (h : Keeps P heights) :
    Keeps P (byMode frames heights) := by
  intro g T hg
  rw [byMode_heights_apply frames heights (hP.frameless g hg).mode]
  exact h g T hg

theorem Kept.onFrame (act : FrameM Unit) : Keeps P (onFrame act) := by
  intro g T hg
  rw [onFrame_frameless (hP.frameless g hg)]
  exact hg

theorem Kept.grow (slots : Int32) : Keeps P (modify (grow slots)) :=
  .modify fun g hg => hP.heights g _ _ hg

theorem Kept.growBy (op : Opcode) (stop : Nat) : Keeps P (growBy BlockGraph.grow op stop) := by
  unfold BlockGraph.growBy
  split
  · exact hP.grow _
  · exact fun _ _ hg => hg

theorem Kept.end (stop : Nat) : Keeps P (modify (BlockGraph.endBlock stop)) :=
  .modify fun g hg => hP.endBlock g stop hg

theorem Kept.leadAll (ls : List Label) {g : BlockGraph} (hg : P g) :
    P (ls.foldl (fun g l => g.leadAtHeight l) g) := by
  induction ls generalizing g with
  | nil => exact hg
  | cons l ls ih => exact ih (hP.leadAtHeight g l hg)

/-- A switch with any opcode. -/
theorem Kept.switch (op : Opcode) (targets : List Label) (stop : Nat) :
    Keeps P (switch op targets stop) := by
  refine Keeps.whenReached (.bind (hP.byMode (.modify fun g hg => ?_)) fun _ => hP.end stop)
  exact hP.leadAll targets (hP.heights g _ g.peak hg)

/-- A jump whose opcode says no change of the height fails before it leads anywhere. -/
theorem Kept.jump (op : Opcode) (goal : Label) (stop : Nat) (around : Bool) :
    Keeps P (jump op goal stop around) := by
  refine Keeps.whenReached (.bind (hP.byMode fun g T hg => ?_) fun _ => ?_)
  · cases hop : op.stackDelta? with
    | some slots =>
      rw [growBy_jump_apply hop]
      exact hP.leadAtHeight _ goal (hP.heights g _ g.peak hg)
    | none =>
      unfold BlockGraph.growBy
      rw [hop]
      exact hg
  · split
    · exact hP.end stop
    · exact .pure ()

/-- **Each instruction** keeps what the change of the height, edges to labels and the end of a block
keep. -/
theorem Kept.step (start stop : Nat) (around : Bool) (i : Instruction Label) :
    Keeps P (step start stop around i) := by
  cases i
  case simple op =>
    refine Keeps.whenReached ((hP.byMode (hP.growBy op stop)).bind fun _ => ?_)
    split
    · exact hP.end stop
    · exact .pure ()
  case int op operand =>
    refine Keeps.whenReached (hP.byMode ?_)
    split
    · exact hP.grow _
    · exact .pure ()
  case var op index =>
    refine Keeps.whenReached (hP.byMode ?_)
    split
    · exact hP.end stop
    · exact hP.growBy op stop
  case type op name =>
    refine Keeps.whenReached (hP.byMode ?_)
    split
    · exact hP.grow _
    · exact .pure ()
  case field op owner name descriptor =>
    exact Keeps.whenReached (hP.byMode ((Keeps.lift _).bind fun _ => hP.grow _))
  case method op owner name descriptor interface =>
    exact Keeps.whenReached (hP.byMode ((Keeps.lift _).bind fun _ => hP.grow _))
  case invokeDynamic name descriptor bootstrap arguments =>
    exact Keeps.whenReached (hP.byMode ((Keeps.lift _).bind fun _ => hP.grow _))
  case jump op goal => exact hP.jump op goal stop around
  case constant value => exact Keeps.whenReached (hP.byMode (hP.grow _))
  case increment index amount => exact hP.onFrame _
  case tableSwitch low high default targets => exact hP.switch _ _ _
  case lookupSwitch default keys targets => exact hP.switch _ _ _
  case multiArray descriptor dimensions => exact Keeps.whenReached (hP.byMode (hP.grow _))

end Kept

theorem kept_weighed (placed : Label → Prop) : Kept fun g => g.Weighed ∧ Mapped placed g where
  frameless _ hg := hg.1.frameless
  heights _ _ _ hg := ⟨hg.1.congr rfl rfl rfl hg.1.indexed.last_lt,
    hg.2.of_threaded rfl (hg.2.threaded.congr (Nat.le_refl _) (fun _ => rfl) (fun _ => rfl) rfl
      hg.2.threaded.current)⟩
  leadAtHeight _ l hg := ⟨hg.1.leadAtHeight l, hg.2.leadAtHeight hg.1.indexed l⟩
  endBlock _ stop hg := ⟨hg.1.endBlock stop, hg.2.endBlock_heights hg.1.mode stop⟩

/-! ## 4. All operations -/

/-- **An operation keeps the graph in order**, also when it fails. -/
theorem Weighed.operation (hg : g.Weighed) (hm : Mapped placed g) (o : GraphOperation)
    (hfresh : ∀ l, o.placed? = some l → ¬ placed l) (T : TypeTable) :
    (o.act g T).1.2.Weighed ∧ Mapped (fun l => placed l ∨ o.placed? = some l) (o.act g T).1.2 := by
  have hkept := kept_weighed placed
  have hstay : ∀ {g' : BlockGraph}, o.placed? = none → g'.Weighed ∧ Mapped placed g' →
      g'.Weighed ∧ Mapped (fun l => placed l ∨ o.placed? = some l) g' := by
    intro g' hnone hg'
    simpa only [hnone, reduceCtorEq, or_false] using hg'
  cases o with
  | switch op targets stop => exact hstay rfl (hkept.switch op targets stop g T ⟨hg, hm⟩)
  | event e =>
    cases e with
    | instruction start stop around i => exact hstay rfl (hkept.step start stop around i g T ⟨hg, hm⟩)
    | label l position =>
      have heq : (fun k => placed k ∨ (GraphOperation.event (.label l position)).placed? = some k) =
          fun k => placed k ∨ k = l := by
        funext k
        simp [GraphOperation.placed?, eq_comm]
      rw [heq]
      exact ⟨hg.label l position, hm.label_heights hg (hfresh l rfl) position⟩
    | split position => exact hstay rfl ⟨hg.splitAt position, hm.splitAt_heights hg position⟩
    | handler r => exact hstay rfl ⟨hg.addHandler r, hm.addHandler hg.indexed r⟩

/-- **A graph of heights can be searched**, when each label is placed once at most. -/
theorem Weighed.operate {os : List GraphOperation} (hg : g.Weighed) (hm : Mapped placed g)
    (hos : PlacesOnce GraphOperation.placed? placed os) (T : TypeTable) :
    (operate os g T).1.Weighed ∧ ∃ placed', Mapped placed' (BlockGraph.operate os g T).1 := by
  induction os generalizing g T placed with
  | nil => exact ⟨hg, placed, hm⟩
  | cons o os ih =>
    obtain ⟨hfresh, hos'⟩ := hos.cons
    obtain ⟨hg', hm'⟩ := hg.operation hm o hfresh T
    exact ih hg' hm' hos' _

/-! ## 5. Edges to handlers -/

theorem Weighed.firstOf_lt (hg : g.Weighed) (l : Label) : g.firstOf l < g.blocks.size := by
  rw [firstOf, first, follow_of_first (hg.aliasAt_eq _)]
  cases hl : g.labels.get? l with
  | none => exact Nat.zero_lt_of_lt hg.indexed.last_lt
  | some i => exact hg.indexed.label_lt l i hl

/-- **All edges to handlers** lead to blocks that are there. -/
theorem Weighed.addAllHandlerEdges (hg : g.Weighed) (T : TypeTable) :
    ∃ g', addAllHandlerEdges g T = ((.ok (), g'), T) ∧
      Joins g g' (fun i e => ∃ r ∈ g.handlers.toList, g.Throws r i e) ∧
      ∀ i, ∀ e ∈ edgesAt g'.blocks i, e.successor < g'.blocks.size := by
  obtain ⟨g', hrun, hjoins⟩ := joins_addAllHandlerEdges hg.mode T
  refine ⟨g', hrun, hjoins, fun i e he => ?_⟩
  rw [hjoins.lines.size]
  rcases (hjoins.edges i e).1 he with he | ⟨r, -, -, -, -, rfl⟩
  · exact hg.successor_lt he
  · exact hg.firstOf_lt r.handler

theorem Threaded.of_sameLines (h : Threaded free g) (hl : SameLines g g') : Threaded free g' :=
  h.congr (Nat.le_of_eq hl.size.symm) hl.next hl.sameAs hl.last fun i hi =>
    h.current i (hl.current i hi)

/-- Edges to handlers leave the blocks in their places. -/
theorem AddsEdges.sameLines {p q : BlockGraph × TypeTable} (hmode : p.1.mode = .maxStack)
    (hadds : Relation.ReflTransGen AddsEdges p q) : q.1.mode = .maxStack ∧ SameLines p.1 q.1 := by
  induction hadds with
  | refl => exact ⟨hmode, .refl _⟩
  | @tail q q' _ hstep ih =>
    obtain ⟨r, ans, hrun⟩ := hstep
    obtain ⟨hmode', hlines⟩ := ih
    rw [addHandlerEdges_heights hmode'] at hrun
    obtain ⟨g', T'⟩ := q'
    cases hrun
    have hjoins := joins_throwTo q.1 r
    exact ⟨hjoins.mode.trans hmode', hlines.trans hjoins.lines⟩

end BlockGraph

end ClassFile
