/-
# Blocks in their places

Where there are frames, a block that starts where the last one does becomes another name for it, and any
other one is put behind it (`Puts`).  If control falls through to it, the current block gets an edge to
it, and nothing else changes.

Before a block gets its place, nothing is known of it.  A label that is mentioned for the first time, and
marks of what is led to, draw nothing (`Widens`).
-/
import ClassFile.Proofs.BlockGraph.Caught

namespace ClassFile.BlockGraph

variable {r r' : Routine} {s s' : Sketch} {g g' g'' : BlockGraph} {i j k : BlockId} {l : Label}
  {e : Edge} {T T' : TypeTable} {position : Nat} {named falls : Bool}

/-! ## 1. Putting blocks in their places -/

theorem heightIs_of_frames (hmode : g.mode = .frames) {a : Int} :
    g.HeightIs a ↔ ((g.current.bind (frameAt g.blocks)).map Frame.net).getD 0 = a := by
  unfold HeightIs
  rw [hmode]

theorem peakOf_of_frames (hmode : g.mode = .frames) (i : BlockId) :
    g.peakOf i = ((frameAt g.blocks i).map fun f => (f.peak : Int)).getD 0 := by
  unfold peakOf
  rw [hmode]

/-- What the block `j` becomes when the block `i` is put in its place. -/
def afterPut (g : BlockGraph) (i : BlockId) (position : Nat) (named falls : Bool) (j : BlockId)
    (b : Block) : Block :=
  { b with
    position := if i = j then position else b.position
    isPlaced := if i = j then true else b.isPlaced
    next := if named = false ∧ g.last = j then some i else b.next
    sameAs := if named = true ∧ i = j then some g.last else b.sameAs
    edges := if named = false ∧ falls = true ∧ g.current = some j then b.edges.push ⟨.normal, i⟩
      else b.edges }

/-- **A block is put in its place**: it becomes another name for the last one if that starts there, and
else it comes behind it.  If control falls through to it, the current block has an edge to it. -/
structure Puts (g g' : BlockGraph) (i : BlockId) (position : Nat) (named falls : Bool) : Prop where
  blocks : ∀ j, ∃ marks : Block → Bool, g'.blocks[j]? =
    g.blocks[j]?.map fun b => { g.afterPut i position named falls j b with isTarget := marks b }
  mode : g'.mode = .frames
  labels : g'.labels = g.labels
  handlers : g'.handlers = g.handlers
  last : g'.last = if named then g.last else i
  current : g'.current = if falls then some g'.last else none
  same : named = true → g.positionOf g.last = position

/-- A block that becomes another name for the last one. -/
theorem puts_named (hmode : g.mode = .frames) (hne : g.last ≠ i)
    (hsame : g.positionOf g.last = position) :
    Puts g { (g.place i position).makeAlias i g.last with current := some g.last } i position true
      true := by
  obtain ⟨mode, blocks, labels, current, last, height, peak, handlers⟩ := g
  cases hmode
  dsimp only at hne
  refine ⟨fun j => ⟨fun b => if last = j then b.isTarget || ((((blocks.modify i fun b =>
    { b with position, isPlaced := true })[i]?.map Block.isTarget).getD false)) else b.isTarget, ?_⟩,
    ?_, ?_, ?_, ?_, ?_, fun _ => hsame⟩
  · simp only [makeAlias, place, onBlock, onBlocks, if_neg hne.symm, Array.getElem?_modify, afterPut]
    split_ifs <;> cases blocks[j]? <;> simp_all
  all_goals simp only [makeAlias, place, onBlock, onBlocks, if_neg hne.symm, if_true]

/-- A block that comes behind the last one. -/
theorem puts_behind (hmode : g.mode = .frames) (i : BlockId) (position : Nat) :
    Puts g (BlockGraph.append i { (g.place i position).addEdge .normal i with current := some i }) i
      position false true := by
  obtain ⟨mode, blocks, labels, current, last, height, peak, handlers⟩ := g
  cases hmode
  refine ⟨fun j => ⟨Block.isTarget, ?_⟩, ?_, ?_, ?_, ?_, ?_, nofun⟩
  · cases current <;>
      simp only [append, addEdge, place, onBlock, onBlocks, Array.getElem?_modify, afterPut] <;>
      split_ifs <;> cases blocks[j]? <;> simp_all [Block.addEdge]
  all_goals cases current <;> rfl

theorem puts_startBlock (hmode : g.mode = .frames) (hi : g.Fresh i)
    (hcurrent : ∀ c, g.current = some c → c = g.last) (position : Nat) :
    ∃ named, Puts g (g.startBlock i position) i position named true := by
  have hne : g.last ≠ i := hi.ne_last.symm
  have hpos : (g.place i position).positionOf g.last = g.positionOf g.last :=
    positionOf_onBlock_ne _ hne _
  have hlast : (g.place i position).last = g.last := rfl
  have hcurrent' : (g.place i position).current = g.current := rfl
  have hmode' : (g.place i position).mode = .frames := hmode
  unfold BlockGraph.startBlock
  simp only [hmode', hcurrent']
  by_cases hsame : g.positionOf g.last = position
  · refine ⟨true, ?_⟩
    have hputs := puts_named (i := i) hmode hne hsame
    cases hc : g.current with
    | none =>
      dsimp only
      rw [enter, if_pos ⟨hne, hpos.trans hsame⟩]
      exact hputs
    | some c =>
      obtain rfl : c = g.last := hcurrent c hc
      dsimp only
      rw [if_pos (hpos.trans hsame)]
      have hstays : ((g.place i position).makeAlias i g.last).current = some g.last := by
        unfold makeAlias
        rw [if_neg hne.symm]
        exact hc
      rw [← hstays] at hputs
      exact hputs
  · refine ⟨false, ?_⟩
    have hputs := puts_behind hmode i position
    cases hc : g.current with
    | none =>
      dsimp only
      rw [enter, if_neg fun h => hsame (hpos.symm.trans h.2)]
      have hedgeless : (g.place i position).addEdge .normal i = g.place i position := by
        unfold addEdge
        rw [hcurrent', hc]
      rwa [hedgeless] at hputs
    | some c =>
      obtain rfl : c = g.last := hcurrent c hc
      dsimp only
      rw [if_neg fun h => hsame (hpos.symm.trans h), enter, if_neg fun h => hsame ?_]
      · exact hputs
      · rw [← h.2, last_addEdge, positionOf_addEdge, hlast, hpos]

/-- The current block ends, and a new one comes behind it that control does not fall through to. -/
theorem puts_endBlock (hmode : g.mode = .frames) (stop : Nat) :
    Puts g.newBlock.2 (g.endBlock stop) g.blocks.size stop false false := by
  obtain ⟨mode, blocks, labels, current, last, height, peak, handlers⟩ := g
  cases hmode
  refine ⟨fun j => ⟨Block.isTarget, ?_⟩, rfl, rfl, rfl, rfl, rfl, nofun⟩
  simp only [endBlock, newBlock, append, place, onBlock, onBlocks, Array.getElem?_modify, afterPut]
  split_ifs <;> cases (blocks.push _)[j]? <;> simp_all

section Puts

variable (hp : Puts g g' i position named falls) (hi : i < g.blocks.size)

include hp

theorem Puts.read {α : Type} (ρ : Block → α)
    (hρ : ∀ b : Block, ∀ mark, ρ { b with isTarget := mark } = ρ b) (j : BlockId) :
    g'.blocks[j]?.map ρ = g.blocks[j]?.map fun b => ρ (g.afterPut i position named falls j b) := by
  obtain ⟨marks, hmarks⟩ := hp.blocks j
  rw [hmarks, Option.map_map]
  exact congrArg (fun ρ => Option.map ρ g.blocks[j]?) (funext fun b => hρ _ _)

theorem Puts.frameAt (j : BlockId) : frameAt g'.blocks j = frameAt g.blocks j := by
  have hread := hp.read Block.frame (fun _ _ => rfl) j
  unfold BlockGraph.frameAt
  cases h : g'.blocks[j]? <;> cases h' : g.blocks[j]? <;> simp_all [afterPut]

theorem Puts.edgesAt (hcurrent : ∀ c, g.current = some c → c < g.blocks.size) (j : BlockId) :
    edgesAt g'.blocks j = if named = false ∧ falls = true ∧ g.current = some j
      then edgesAt g.blocks j ++ [⟨.normal, i⟩] else edgesAt g.blocks j := by
  unfold BlockGraph.edgesAt
  rw [hp.read (fun b => b.edges.toList) fun _ _ => rfl]
  simp only [afterPut]
  by_cases hj : named = false ∧ falls = true ∧ g.current = some j
  · simp only [if_pos hj, Array.getElem?_eq_getElem (hcurrent j hj.2.2), Option.map_some,
      Array.toList_push, Option.getD_some]
  · simp only [if_neg hj]

theorem Puts.nextAt (hlast : g.last < g.blocks.size) (j : BlockId) :
    nextAt g'.blocks j = if named = false ∧ g.last = j then some i else nextAt g.blocks j := by
  unfold BlockGraph.nextAt
  rw [← getD_map_none, hp.read Block.next fun _ _ => rfl]
  simp only [afterPut]
  by_cases hj : named = false ∧ g.last = j
  · simp only [if_pos hj, Array.getElem?_eq_getElem (hj.2 ▸ hlast), Option.map_some, Option.getD_some]
  · simp only [if_neg hj, getD_map_none]

include hi in
theorem Puts.aliasAt (j : BlockId) :
    aliasAt g'.blocks j = if named = true ∧ i = j then some g.last else aliasAt g.blocks j := by
  unfold BlockGraph.aliasAt
  rw [← getD_map_none, hp.read Block.sameAs fun _ _ => rfl]
  simp only [afterPut]
  by_cases hj : named = true ∧ i = j
  · simp only [if_pos hj, Array.getElem?_eq_getElem (hj.2 ▸ hi), Option.map_some, Option.getD_some]
  · simp only [if_neg hj, getD_map_none]

include hi in
theorem Puts.positionOf (j : BlockId) :
    g'.positionOf j = if i = j then position else g.positionOf j := by
  unfold BlockGraph.positionOf
  rw [hp.read Block.position fun _ _ => rfl]
  simp only [afterPut]
  by_cases hj : i = j
  · simp only [if_pos hj, Array.getElem?_eq_getElem (hj ▸ hi), Option.map_some, Option.getD_some]
  · simp only [if_neg hj]

include hi in
theorem Puts.isPlaced (j : BlockId) : g'.IsPlaced j ↔ i = j ∨ g.IsPlaced j := by
  rw [isPlaced_iff, isPlaced_iff, hp.read Block.isPlaced fun _ _ => rfl]
  simp only [afterPut]
  by_cases hj : i = j
  · simp [hj, hj ▸ hi]
  · simp [hj]

theorem Puts.lt_iff (j : BlockId) : j < g'.blocks.size ↔ j < g.blocks.size := by
  have hread := congrArg Option.isSome (hp.read (fun _ => ()) (fun _ _ => rfl) j)
  rw [Option.isSome_map, Option.isSome_map, Bool.eq_iff_iff] at hread
  simpa using hread

/-- **One more block has its place**, unless it has become another name. -/
theorem Puts.passed (hi : g.Fresh i) (hlast : g.last < g.blocks.size) (hj : g'.Passed j) :
    g.Passed j ∨ j = i ∧ named = false := by
  obtain ⟨hlt, hfirst, hplaced⟩ := hj
  rw [hp.lt_iff] at hlt
  rw [hp.aliasAt hi.lt] at hfirst
  rw [hp.last, hp.nextAt hlast] at hplaced
  cases named with
  | true =>
    simp only [true_and, if_true, Bool.true_eq_false, false_and, if_false] at hfirst hplaced
    split at hfirst
    · exact nomatch hfirst
    · exact .inl ⟨hlt, hfirst, hplaced⟩
  | false =>
    simp only [true_and, if_false, Bool.false_eq_true, false_and] at hfirst hplaced
    rcases hplaced with rfl | hplaced
    · exact .inr ⟨rfl, rfl⟩
    · refine .inl ⟨hlt, hfirst, ?_⟩
      split at hplaced
      · rename_i heq
        exact .inl heq.symm
      · exact .inr hplaced

/-- What has no place yet had none before, and is another block. -/
theorem Puts.fresh (hi : g.Fresh i) (hlast : g.last < g.blocks.size) (hj : g'.Fresh j) :
    g.Fresh j ∧ j ≠ i := by
  obtain ⟨hlt, hne, hnext, hfirst⟩ := hj
  rw [hp.lt_iff] at hlt
  rw [hp.aliasAt hi.lt] at hfirst
  rw [hp.last] at hne
  rw [hp.nextAt hlast] at hnext
  cases named with
  | true =>
    simp only [true_and, if_true, Bool.true_eq_false, false_and, if_false] at hfirst hne hnext
    split at hfirst
    · exact nomatch hfirst
    · rename_i hij
      exact ⟨⟨hlt, hne, hnext, hfirst⟩, Ne.symm hij⟩
  | false =>
    simp only [true_and, if_false, Bool.false_eq_true, false_and] at hfirst hne hnext
    split at hnext
    · exact nomatch hnext
    · rename_i heq
      exact ⟨⟨hlt, Ne.symm heq, hnext, hfirst⟩, hne⟩

end Puts

/-! ## 2. Blocks of which nothing is known -/

/-- Blocks without the marks of what is led to. -/
def unmarked (blocks : Array Block) : Array Block := blocks.map fun b => { b with isTarget := false }

/-- Another graph that has at most one more block, of which nothing is known, and perhaps other marks. -/
structure Widens (g g' : BlockGraph) : Prop where
  blocks : unmarked g'.blocks = unmarked g.blocks ∨
    unmarked g'.blocks = (unmarked g.blocks).push (.empty (some .empty))
  mode : g'.mode = g.mode
  current : g'.current = g.current
  last : g'.last = g.last
  handlers : g'.handlers = g.handlers
  labels : ∀ l i, g.labels.get? l = some i → g'.labels.get? l = some i

theorem widens_newBlock (hmode : g.mode = .frames) : Widens g g.newBlock.2 := by
  refine ⟨.inr ?_, rfl, rfl, rfl, rfl, fun _ _ => id⟩
  rw [newBlock_blocks hmode, unmarked, Array.map_push]
  rfl

theorem WellBuilt.widens_blockOf (hg : g.WellBuilt T) (l : Label) : Widens g (g.blockOf l).2 := by
  obtain ⟨hmode, hcurrent, hlast, -, -, hhandlers⟩ := blockOf_fields g l
  refine ⟨?_, hmode, hcurrent, hlast, hhandlers, (hg.onward_blockOf l).1.labels⟩
  unfold BlockGraph.blockOf
  split
  · exact .inl rfl
  · exact (widens_newBlock hg.mode).blocks

/-- A mark draws nothing. -/
theorem Widens.mark (hw : Widens g g') (i : BlockId) :
    Widens g (g'.onBlock i fun b => { b with isTarget := true }) := by
  have hsame : unmarked (g'.onBlock i fun b => { b with isTarget := true }).blocks =
      unmarked g'.blocks := by
    apply Array.ext_getElem?
    intro j
    simp only [unmarked, Array.getElem?_map, getElem?_onBlock]
    split <;> cases g'.blocks[j]? <;> rfl
  exact ⟨hsame ▸ hw.blocks, hw.mode, hw.current, hw.last, hw.handlers, hw.labels⟩

section Widens

variable (hw : Widens g g')

include hw

/-- What is read off a block of which nothing is known is what is read off where there is none. -/
theorem Widens.read {α : Type} {ρ : Block → α} {d : α}
    (hmark : ∀ b : Block, ρ { b with isTarget := false } = ρ b)
    (hd : ρ (.empty (some .empty)) = d) (j : BlockId) :
    (g'.blocks[j]?.map ρ).getD d = (g.blocks[j]?.map ρ).getD d := by
  have hread : ∀ blocks : Array Block, blocks[j]?.map ρ = (unmarked blocks)[j]?.map ρ := by
    intro blocks
    rw [unmarked, Array.getElem?_map, Option.map_map]
    exact congrArg (fun ρ => Option.map ρ blocks[j]?) (funext fun b => (hmark b).symm)
  rw [hread, hread g.blocks]
  rcases hw.blocks with hsame | hpush
  · rw [hsame]
  · rw [hpush, Array.getElem?_push]
    split
    · rename_i hj
      rw [hj, Array.getElem?_eq_none (Nat.le_refl _)]
      exact hd
    · rfl

theorem Widens.size_le : g.blocks.size ≤ g'.blocks.size := by
  have hsize : ∀ blocks : Array Block, (unmarked blocks).size = blocks.size := fun _ =>
    Array.size_map
  rw [← hsize, ← hsize g'.blocks]
  rcases hw.blocks with hsame | hpush
  · rw [hsame]
  · rw [hpush, Array.size_push]
    exact Nat.le_succ _

theorem Widens.edgesAt (j : BlockId) : edgesAt g'.blocks j = edgesAt g.blocks j :=
  hw.read (ρ := fun b => b.edges.toList) (fun _ => rfl) rfl j

theorem Widens.nextAt (j : BlockId) : nextAt g'.blocks j = nextAt g.blocks j := by
  have hread := hw.read (ρ := Block.next) (d := none) (fun _ => rfl) rfl j
  rwa [getD_map_none, getD_map_none] at hread

theorem Widens.aliasAt (j : BlockId) : aliasAt g'.blocks j = aliasAt g.blocks j := by
  have hread := hw.read (ρ := Block.sameAs) (d := none) (fun _ => rfl) rfl j
  rwa [getD_map_none, getD_map_none] at hread

theorem Widens.positionOf (j : BlockId) : g'.positionOf j = g.positionOf j :=
  hw.read (ρ := Block.position) (fun _ => rfl) rfl j

theorem Widens.isPlaced (j : BlockId) : g'.IsPlaced j ↔ g.IsPlaced j := by
  rw [isPlaced_iff, isPlaced_iff, hw.read (ρ := Block.isPlaced) (d := false) (fun _ => rfl) rfl]

theorem Widens.frameAt_lt (hj : j < g.blocks.size) : frameAt g'.blocks j = frameAt g.blocks j := by
  have hread := hw.read (ρ := Block.frame) (d := some .empty) (fun _ => rfl) rfl j
  have hj' := Nat.lt_of_lt_of_le hj hw.size_le
  rw [Array.getElem?_eq_getElem hj, Array.getElem?_eq_getElem hj'] at hread
  rw [BlockGraph.frameAt, BlockGraph.frameAt, Array.getElem?_eq_getElem hj,
    Array.getElem?_eq_getElem hj']
  exact hread

/-- A new block is empty. -/
theorem Widens.frameAt {f : Frame} (hf : frameAt g'.blocks j = some f) :
    BlockGraph.frameAt g.blocks j = some f ∨ f = .empty := by
  by_cases hj : j < g.blocks.size
  · exact .inl (hw.frameAt_lt hj ▸ hf)
  · right
    have hread := hw.read (ρ := Block.frame) (d := some .empty) (fun _ => rfl) rfl j
    obtain ⟨b, hb, hbf⟩ := Option.bind_eq_some_iff.1 hf
    rw [hb, Array.getElem?_eq_none (Nat.le_of_not_lt hj), Option.map_some, Option.getD_some,
      hbf] at hread
    exact Option.some.inj hread

theorem Widens.peakOf (hmode : g.mode = .frames) (j : BlockId) : g'.peakOf j = g.peakOf j := by
  have hread := hw.read (ρ := fun b => (b.frame.map fun f => (f.peak : Int)).getD 0) (d := 0)
    (fun _ => rfl) rfl j
  have hframe : ∀ blocks : Array Block, ((BlockGraph.frameAt blocks j).map fun f => (f.peak : Int)).getD 0 =
      (blocks[j]?.map fun b => (b.frame.map fun f => (f.peak : Int)).getD 0).getD 0 := by
    intro blocks
    unfold BlockGraph.frameAt
    cases blocks[j]? <;> rfl
  rw [peakOf_of_frames hmode, peakOf_of_frames (hw.mode.trans hmode), hframe, hframe, hread]

/-- Blocks that have their places are the same ones. -/
theorem Widens.passed_iff (hlast : g.last < g.blocks.size) : g'.Passed j ↔ g.Passed j := by
  constructor
  · rintro ⟨-, hfirst, hplaced⟩
    rw [hw.aliasAt] at hfirst
    rw [hw.last, hw.nextAt] at hplaced
    refine ⟨?_, hfirst, hplaced⟩
    rcases hplaced with rfl | hnext
    · exact hlast
    · obtain ⟨k, hk⟩ := Option.isSome_iff_exists.1 hnext
      obtain ⟨b, hb, -⟩ := Option.bind_eq_some_iff.1 hk
      exact (Array.getElem?_eq_some_iff.1 hb).1
  · rintro ⟨hlt, hfirst, hplaced⟩
    refine ⟨Nat.lt_of_lt_of_le hlt hw.size_le, ?_, ?_⟩
    · rwa [hw.aliasAt]
    · rwa [hw.last, hw.nextAt]

end Widens

end ClassFile.BlockGraph
