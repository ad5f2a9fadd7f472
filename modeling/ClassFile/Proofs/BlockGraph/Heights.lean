/-
# Graphs that record only heights

Where only heights are recorded, no block has a frame (`Frameless`), so nothing is asked of the table of
types: an instruction and the search for the greatest height leave it as it is (`quiet_step`,
`quiet_computeMaxStack`).  Nor do they know where code lies, so their errors are of content.
-/
import ClassFile.Proofs.BlockGraph.Build
import ClassFile.Proofs.Content

namespace ClassFile.BlockGraph

variable {g : BlockGraph} {T : TypeTable} {α β : Type}

/-! ## 1. Graphs without frames -/

/-- Only heights are recorded, and no block has a frame. -/
structure Frameless (g : BlockGraph) : Prop where
  mode : g.mode = .maxStack
  frame : ∀ b ∈ g.blocks, b.frame = none

theorem frameless_start : (start .maxStack).Frameless where
  mode := rfl
  frame b hb := by
    obtain rfl := Array.mem_singleton.1 hb
    rfl

theorem Frameless.onBlock (hg : g.Frameless) (i : BlockId) {f : Block → Block}
    (hf : ∀ b, b.frame = none → (f b).frame = none) : (g.onBlock i f).Frameless := by
  refine ⟨hg.mode, fun b hb => ?_⟩
  rcases mem_onBlock hb with hb | ⟨c, hc, rfl⟩
  · exact hg.frame b hb
  · exact hf c (hg.frame c hc)

/-- What is neither mode nor blocks may change. -/
theorem Frameless.congr {g' : BlockGraph} (hg : g.Frameless) (hmode : g'.mode = g.mode)
    (hblocks : g'.blocks = g.blocks) : g'.Frameless :=
  ⟨hmode.trans hg.mode, fun b hb => hg.frame b (hblocks ▸ hb)⟩

theorem Frameless.newBlock (hg : g.Frameless) : (g.newBlock).2.Frameless := by
  obtain ⟨mode, blocks, labels, current, last, height, peak, handlers⟩ := g
  obtain rfl : mode = .maxStack := hg.mode
  refine ⟨rfl, fun b hb => ?_⟩
  rcases Array.mem_push.1 hb with hb | rfl
  · exact hg.frame b hb
  · rfl

theorem Frameless.blockOf (hg : g.Frameless) (l : Label) : (g.blockOf l).2.Frameless := by
  unfold BlockGraph.blockOf
  split
  · exact hg
  · exact hg.newBlock.congr rfl rfl

theorem Frameless.addEdge (hg : g.Frameless) (kind : EdgeKind) (i : BlockId) :
    (g.addEdge kind i).Frameless := by
  unfold BlockGraph.addEdge
  split
  · exact hg.onBlock _ fun _ hb => hb
  · exact hg

theorem Frameless.append (hg : g.Frameless) (i : BlockId) : (g.append i).Frameless :=
  (hg.onBlock g.last (f := fun b => { b with next := some i }) fun _ hb => hb).congr rfl rfl

theorem Frameless.closeHeights (hg : g.Frameless) : g.closeHeights.Frameless := by
  unfold BlockGraph.closeHeights
  split
  · exact hg.onBlock _ fun _ hb => hb
  · exact hg

theorem Frameless.startBlock (hg : g.Frameless) (i : BlockId) (position : Nat) :
    (g.startBlock i position).Frameless := by
  have hplaced : (g.place i position).Frameless := hg.onBlock i fun _ hb => hb
  unfold BlockGraph.startBlock
  simp only [hplaced.mode]
  have hedge := hplaced.closeHeights.addEdge (.atHeight (g.place i position).height) i
  have hstarted : Frameless { (g.place i position).closeHeights.addEdge
      (.atHeight (g.place i position).height) i with current := some i, height := 0, peak := 0 } :=
    hedge.congr rfl rfl
  exact hstarted.append i

theorem Frameless.endBlock (hg : g.Frameless) (stop : Nat) : (g.endBlock stop).Frameless := by
  unfold BlockGraph.endBlock
  simp only [hg.mode]
  exact hg.closeHeights.congr rfl rfl

theorem Frameless.label (hg : g.Frameless) (l : Label) (position : Nat) :
    (g.label l position).Frameless := (hg.blockOf l).startBlock _ position

theorem Frameless.addHandler (hg : g.Frameless) (r : HandlerRange) :
    (g.addHandler r).Frameless := by
  have hm : (g.mention r).Frameless := ((hg.blockOf r.start).blockOf r.stop).blockOf r.handler
  rw [addHandler_eq]
  exact ⟨hm.mode, hm.frame⟩

theorem Frameless.grow (hg : g.Frameless) (slots : Int32) : (g.grow slots).Frameless :=
  hg.congr rfl rfl

theorem Frameless.shift (hg : g.Frameless) (slots : Int32) : (g.shift slots).Frameless :=
  hg.congr rfl rfl

/-- An edge to a label from the current block, at its height. -/
theorem Frameless.leadAtHeight (hg : g.Frameless) (l : Label) :
    ((g.blockOf l).2.addEdge (.atHeight (g.blockOf l).2.height) (g.blockOf l).1).Frameless :=
  (hg.blockOf l).addEdge _ _

/-! ## 2. Operations that need no types -/

/-- An operation on a graph without frames leaves it without frames, and the types as they are; its
errors are of content. -/
def Quiet (f : GraphM α) : Prop :=
  ∀ g T, g.Frameless → ((f g T).1.2).Frameless ∧ (f g T).2 = T ∧
    ∀ e, (f g T).1.1 = .error e → e.Content

theorem Quiet.bind {m : GraphM α} {k : α → GraphM β} (hm : Quiet m) (hk : ∀ a, Quiet (k a)) :
    Quiet (m >>= k) := by
  intro g T hg
  obtain ⟨hg', hT, he⟩ := hm g T hg
  rw [bind_apply₂]
  rcases hr : (m g T : (Except Error α × BlockGraph) × TypeTable) with ⟨⟨e | a, g'⟩, T'⟩
  · rw [hr] at hg' hT he
    exact ⟨hg', hT, fun e' h => he e' (by cases h; rfl)⟩
  · rw [hr] at hg' hT
    obtain ⟨hg'', hT', he'⟩ := hk a g' T' hg'
    exact ⟨hg'', hT'.trans hT, he'⟩

/-- What gives an answer at once. -/
theorem Quiet.answer {f : GraphM α} {a : BlockGraph → α} {k : BlockGraph → BlockGraph}
    (hf : ∀ g T, f g T = ((.ok (a g), k g), T)) (hk : ∀ g, g.Frameless → (k g).Frameless) :
    Quiet f := by
  intro g T hg
  rw [hf]
  exact ⟨hk g hg, rfl, fun _ h => nomatch h⟩

theorem Quiet.pure (a : α) : Quiet (Pure.pure a) := .answer (fun _ _ => rfl) fun _ hg => hg

theorem Quiet.throw {e : Error} (he : e.Content) : Quiet (throw e : GraphM α) :=
  fun _ _ hg => ⟨hg, rfl, fun _ h => by cases h; exact he⟩

theorem Quiet.lift {x : Except Error α} (hx : ∀ e, x = .error e → e.Content) :
    Quiet (liftM x : GraphM α) := fun _ _ hg => ⟨hg, rfl, hx⟩

theorem Quiet.get : Quiet (get : GraphM BlockGraph) := .answer (fun _ _ => rfl) fun _ hg => hg

theorem Quiet.modify {k : BlockGraph → BlockGraph} (hk : ∀ g, g.Frameless → (k g).Frameless) :
    Quiet (modify k) := .answer (fun _ _ => rfl) hk

theorem Quiet.modifyGet {k : BlockGraph → α × BlockGraph}
    (hk : ∀ g, g.Frameless → (k g).2.Frameless) : Quiet (modifyGet k : GraphM α) :=
  .answer (fun _ _ => rfl) hk

/-- What is done only where there are frames does not matter. -/
theorem byMode_heights_apply (frames heights : GraphM Unit) (hg : g.mode = .maxStack)
    (T : TypeTable) : byMode frames heights g T = heights g T := by
  obtain ⟨mode, _, _, _, _, _, _, _⟩ := g
  obtain rfl : mode = .maxStack := hg
  rfl

theorem Quiet.byMode {frames heights : GraphM Unit} (hh : Quiet heights) :
    Quiet (byMode frames heights) := by
  intro g T hg
  rw [byMode_heights_apply frames heights hg.mode]
  exact hh g T hg

theorem Quiet.whenReached {act : GraphM Unit} (h : Quiet act) : Quiet (whenReached act) := by
  refine Quiet.get.bind fun g => ?_
  split
  · exact h
  · exact .pure ()

/-- There is no frame to change. -/
theorem quiet_onFrame (act : FrameM Unit) : Quiet (onFrame act) := by
  rintro ⟨mode, blocks, labels, current, last, height, peak, handlers⟩ T hg
  cases current with
  | none => exact ⟨hg, rfl, by rintro _ ⟨⟩⟩
  | some i =>
    by_cases hi : i < blocks.size
    · have hget : blocks[i]? = some blocks[i] := Array.getElem?_eq_getElem hi
      have hframe : blocks[i].frame = none := hg.frame _ (Array.getElem_mem hi)
      generalize blocks[i] = b at hget hframe
      obtain ⟨position, isTarget, isWritten, isReachable, isPending, isPlaced, frame, next, edges,
        entryHeight, peak', sameAs⟩ := b
      obtain rfl : frame = none := hframe
      simp only [onFrame, if_pos hi, changeBlock, hget, Block.onFrame, true_and]
      refine ⟨⟨hg.mode, fun c hc => ?_⟩, by rintro _ ⟨⟩⟩
      obtain ⟨j, hj⟩ := Array.getElem?_of_mem hc
      simp only [Array.getElem?_setIfInBounds, Array.size_setIfInBounds] at hj
      split at hj
      · cases hj
        rfl
      · exact hg.frame c (Array.mem_of_getElem? hj)
    · simp only [onFrame, if_neg hi, true_and]
      exact ⟨hg, by rintro _ ⟨⟩⟩

theorem quiet_growBy {change : Int32 → BlockGraph → BlockGraph} (op : Opcode) (stop : Nat)
    (hchange : ∀ n g, g.Frameless → (change n g).Frameless) : Quiet (growBy change op stop) := by
  unfold growBy
  split
  · exact .modify fun g hg => hchange _ g hg
  · exact .throw id

theorem quiet_growBy_grow (op : Opcode) (stop : Nat) : Quiet (growBy grow op stop) :=
  quiet_growBy op stop fun n _ hg => hg.grow n

theorem quiet_growBy_shift (op : Opcode) (stop : Nat) : Quiet (growBy shift op stop) :=
  quiet_growBy op stop fun n _ hg => hg.shift n

theorem quiet_grow (slots : Int32) : Quiet (modify (grow slots)) := .modify fun _ hg => hg.grow slots

theorem quiet_endBlock (stop : Nat) : Quiet (modify (endBlock stop)) :=
  .modify fun _ hg => hg.endBlock stop

/-- Edges to the labels of a switch. -/
theorem quiet_leadToAll (ls : List Label) : Quiet (modify fun g => ls.foldl (fun g goal =>
    let (i, g) := g.blockOf goal
    let height := g.height
    g.addEdge (.atHeight height) i) (g.shift (-1))) := by
  refine .modify fun g hg => ?_
  have hg' : (g.shift (-1)).Frameless := hg.shift (-1)
  generalize g.shift (-1) = g at hg'
  induction ls generalizing g with
  | nil => exact hg'
  | cons l ls ih => exact ih _ (hg'.leadAtHeight l)

/-- **Instructions need no types** where only heights are recorded. -/
theorem quiet_step (start stop : Nat) (around : Bool) (i : Instruction Label) :
    Quiet (step start stop around i) := by
  cases i
  case simple op =>
    refine Quiet.whenReached ((Quiet.byMode (quiet_growBy_grow op stop)).bind fun _ => ?_)
    split
    · exact quiet_endBlock stop
    · exact .pure ()
  case int op operand =>
    refine Quiet.whenReached (.byMode ?_)
    split
    · exact quiet_grow _
    · exact .pure ()
  case var op index =>
    refine Quiet.whenReached (.byMode ?_)
    split
    · exact quiet_endBlock stop
    · exact quiet_growBy_grow op stop
  case type op name =>
    refine Quiet.whenReached (.byMode ?_)
    split
    · exact quiet_grow _
    · exact .pure ()
  case field op owner name descriptor =>
    exact Quiet.whenReached (.byMode
      ((Quiet.lift fun _ => Descriptor.content_orMalformed).bind fun _ => quiet_grow _))
  case method op owner name descriptor interface =>
    exact Quiet.whenReached (.byMode
      ((Quiet.lift fun _ => Descriptor.content_orMalformed).bind fun _ => quiet_grow _))
  case invokeDynamic name descriptor bootstrap arguments =>
    exact Quiet.whenReached (.byMode
      ((Quiet.lift fun _ => Descriptor.content_orMalformed).bind fun _ => quiet_grow _))
  case jump op goal =>
    refine Quiet.whenReached (.bind (.byMode ?_) fun _ => ?_)
    · refine (quiet_growBy_shift op stop).bind fun _ => ?_
      refine (Quiet.modifyGet fun g hg => hg.blockOf goal).bind fun i => ?_
      exact .modify fun g hg => hg.addEdge _ i
    · split
      · exact quiet_endBlock stop
      · exact .pure ()
  case constant value => exact Quiet.whenReached (.byMode (quiet_grow _))
  case increment index amount => exact quiet_onFrame _
  case tableSwitch low high default targets =>
    exact Quiet.whenReached (.bind (.byMode (quiet_leadToAll (default :: targets))) fun _ =>
      quiet_endBlock stop)
  case lookupSwitch default keys targets =>
    exact Quiet.whenReached (.bind (.byMode (quiet_leadToAll (default :: targets))) fun _ =>
      quiet_endBlock stop)
  case multiArray descriptor dimensions => exact Quiet.whenReached (.byMode (quiet_grow _))

theorem Frameless.addEdges (hg : g.Frameless) (e : Edge) (range : List BlockId) :
    (g.addEdges e range).Frameless := by
  unfold BlockGraph.addEdges
  induction range generalizing g with
  | nil => exact hg
  | cons i range ih => exact ih (hg.onBlock i (f := Block.addEdge e) fun _ hb => hb)

/-- Whatever is thrown, the kind of its edges is the same. -/
theorem handlerKind_heights (hmode : g.mode = .maxStack) (r : HandlerRange) (T : TypeTable) :
    handlerKind r g T = ((.ok .thrown, g), T) := by
  obtain ⟨mode, _, _, _, _, _, _, _⟩ := g
  obtain rfl : mode = .maxStack := hmode
  rfl

theorem quiet_handlerKind (r : HandlerRange) : Quiet (handlerKind r) := by
  intro g T hg
  rw [handlerKind_heights hg.mode]
  exact ⟨hg, rfl, fun _ h => nomatch h⟩

theorem quiet_addHandlerEdges (r : HandlerRange) : Quiet (addHandlerEdges r) := by
  unfold addHandlerEdges
  refine Quiet.bind (Quiet.modifyGet ?_) fun ⟨start, stop, handler⟩ => ?_
  · exact fun g hg => hg
  refine Quiet.get.bind fun g => Quiet.get.bind fun g' => ?_
  split
  · refine (quiet_handlerKind r).bind fun kind => Quiet.get.bind fun g'' => ?_
    have hmark : ∀ g : BlockGraph, g.Frameless →
        (g.onBlock handler fun b => { b with isTarget := true }).Frameless :=
      fun g hg => hg.onBlock handler fun _ hb => hb
    have hadd : ∀ g : BlockGraph, g.Frameless →
        (g.addEdges ⟨kind, handler⟩ (g.range start stop)).Frameless :=
      fun g hg => hg.addEdges _ _
    split
    · exact (Quiet.modify hmark).bind fun _ => Quiet.modify hadd
    · exact (Quiet.pure ()).bind fun _ => Quiet.modify hadd
  · exact .pure ()

theorem quiet_addAllHandlerEdges : Quiet addAllHandlerEdges := by
  have hlist : ∀ rs : List HandlerRange, Quiet (forIn rs PUnit.unit fun r _ => do
      addHandlerEdges r
      return ForInStep.yield PUnit.unit) := by
    intro rs
    induction rs with
    | nil => exact .pure _
    | cons r rs ih =>
      rw [List.forIn_cons, bind_assoc]
      exact (quiet_addHandlerEdges r).bind fun _ => ih
  exact Quiet.get.bind fun g => (hlist g.handlers.toList).bind fun _ => .pure ()

/-- **The greatest height is found without types**, and whatever the code. -/
theorem quiet_computeMaxStack (hg : g.Frameless) (T : TypeTable) :
    (computeMaxStack g T).2 = T ∧ ∀ e, (computeMaxStack g T).1.1 = .error e → e.Content := by
  have hedges : Quiet (modify closeHeights >>= fun _ => addAllHandlerEdges) :=
    (Quiet.modify fun g hg => hg.closeHeights).bind fun _ => quiet_addAllHandlerEdges
  obtain ⟨-, hT, he⟩ := hedges g T hg
  have hsplit : computeMaxStack = ((modify closeHeights >>= fun _ => addAllHandlerEdges) >>= fun _ =>
      modifyGet (fun g => ((g.searchHeights).2, (g.searchHeights).1)) >>= fun greatest =>
        pure (writtenHeight greatest.toInt) : GraphM UInt16) := by
    rw [bind_assoc]
    rfl
  rw [hsplit, bind_apply₂]
  rcases hr : ((modify closeHeights >>= fun _ => addAllHandlerEdges : GraphM Unit) g T :
    (Except Error Unit × BlockGraph) × TypeTable) with ⟨⟨e | u, g'⟩, T'⟩
  · rw [hr] at hT he
    exact ⟨hT, fun e' h => he e' (by cases h; rfl)⟩
  · rw [hr] at hT
    exact ⟨hT, fun _ h => nomatch h⟩

end ClassFile.BlockGraph
