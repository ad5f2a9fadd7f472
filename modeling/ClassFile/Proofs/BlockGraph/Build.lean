/-
# Graphs as they are built

Whatever instructions, labels and handlers are reported to a graph with frames, and also when some
of them fail, the graph stays well built (`WellBuilt`): each block has a frame whose entry is
unknown and whose effect is meaningful, and edges, labels and aliases lead to blocks that are
there (`build_wellBuilt`).

An instruction does two things, one after the other: it changes the frame of the current block
(`frameStep`), and then adds edges and blocks, whatever the frame is (`afterStep`).  An instruction
that fails has done the first one only (`step_apply`).
-/
import ClassFile.Code.Encode
import ClassFile.Proofs.Frame.Merge

namespace ClassFile

variable {h : Hierarchy} {T T' : TypeTable}

/-! ## 1. Well built graphs -/

/-- An edge to one of the first `n` blocks. -/
structure Edge.InRange (T : TypeTable) (n : Nat) (e : Edge) : Prop where
  successor_lt : e.successor < n
  valid : ∀ t, e.kind = .caught t → t.Valid T

/-- A block whose frame has no entry yet, in a graph of `n` blocks. -/
structure Block.WellBuilt (T : TypeTable) (n : Nat) (b : Block) : Prop where
  frame : ∃ f, b.frame = some f ∧ f.Lawful T none
  edges : ∀ e ∈ b.edges, e.InRange T n
  sameAs : ∀ j, b.sameAs = some j → j < n
  /-- No path to the block has been followed. -/
  fresh : b.isWritten = false ∧ b.isReachable = false ∧ b.isPending = false

theorem Edge.InRange.mono {n n' : Nat} {e : Edge} (he : e.InRange T n) (hle : T ≤ T')
    (hn : n ≤ n') : e.InRange T' n' :=
  ⟨Nat.lt_of_lt_of_le he.successor_lt hn, fun t ht => (he.valid t ht).later hle⟩

theorem Block.WellBuilt.mono {n n' : Nat} {b : Block} (hb : b.WellBuilt T n) (hle : T ≤ T')
    (hn : n ≤ n') : b.WellBuilt T' n' :=
  ⟨hb.frame.imp fun _ hf => ⟨hf.1, hf.2.later hle⟩, fun e he => (hb.edges e he).mono hle hn,
    fun j hj => Nat.lt_of_lt_of_le (hb.sameAs j hj) hn, hb.fresh⟩

namespace BlockGraph

/-- **A graph with frames in which nothing leads outside.** -/
structure WellBuilt (T : TypeTable) (g : BlockGraph) : Prop where
  mode : g.mode = .frames
  blocks : ∀ b ∈ g.blocks, b.WellBuilt T g.blocks.size
  labels_linked : g.labels.Linked
  label_lt : ∀ l i, g.labels.get? l = some i → i < g.blocks.size
  current_lt : ∀ i, g.current = some i → i < g.blocks.size
  last_lt : g.last < g.blocks.size

variable {g : BlockGraph}

theorem WellBuilt.later (hg : g.WellBuilt T) (hle : T ≤ T') : g.WellBuilt T' :=
  ⟨hg.mode, fun b hb => (hg.blocks b hb).mono hle (Nat.le_refl _), hg.labels_linked, hg.label_lt,
    hg.current_lt, hg.last_lt⟩

theorem wellBuilt_start : (start .frames).WellBuilt T where
  mode := rfl
  blocks := by
    intro b hb
    obtain rfl : b = { Block.empty (some Frame.empty) with isPlaced := true } := by
      simpa [start] using hb
    exact ⟨⟨_, rfl, Frame.lawful_empty⟩, by simp [Block.empty], by simp [Block.empty], rfl, rfl, rfl⟩
  labels_linked := InternTable.linked_empty
  label_lt l i hi := by
    have hi : (InternTable.empty : InternTable Label BlockId).get? l = some i := hi
    rw [InternTable.linked_empty.get?_eq_some_iff] at hi
    simp at hi
  current_lt i hi := by
    cases hi
    exact Nat.one_pos
  last_lt := Nat.one_pos

/-! ## 2. Parts of operations -/

theorem newBlock_blocks (hg : g.mode = .frames) :
    g.newBlock.2.blocks = g.blocks.push (.empty (some .empty)) := by
  simp [newBlock, hg]

theorem WellBuilt.newBlock (hg : g.WellBuilt T) :
    g.newBlock.2.WellBuilt T ∧ g.newBlock.1 < g.newBlock.2.blocks.size ∧
      g.blocks.size ≤ g.newBlock.2.blocks.size := by
  have hblocks := newBlock_blocks hg.mode
  have hsize : g.newBlock.2.blocks.size = g.blocks.size + 1 := by rw [hblocks, Array.size_push]
  have hle : g.blocks.size ≤ g.newBlock.2.blocks.size := by omega
  refine ⟨⟨hg.mode, ?_, hg.labels_linked, fun l i hi => Nat.lt_of_lt_of_le (hg.label_lt l i hi) hle,
    fun i hi => Nat.lt_of_lt_of_le (hg.current_lt i hi) hle,
    Nat.lt_of_lt_of_le hg.last_lt hle⟩, hsize ▸ Nat.lt_succ_self g.blocks.size, hle⟩
  intro b hb
  rw [hblocks] at hb
  rcases Array.mem_push.1 hb with hb | rfl
  · exact (hg.blocks b hb).mono (TypeTable.le_refl T) hle
  · exact ⟨⟨_, rfl, Frame.lawful_empty⟩, by simp [Block.empty], by simp [Block.empty], rfl, rfl, rfl⟩

@[simp] theorem size_onBlock (g : BlockGraph) (i : BlockId) (f : Block → Block) :
    (g.onBlock i f).blocks.size = g.blocks.size := by
  simp [onBlock, onBlocks]

theorem mem_modify {blocks : Array Block} {i : BlockId} {f : Block → Block} {b : Block}
    (hb : b ∈ blocks.modify i f) : b ∈ blocks ∨ ∃ c ∈ blocks, b = f c := by
  obtain ⟨j, hj⟩ := Array.getElem?_of_mem hb
  rw [Array.getElem?_modify] at hj
  split at hj
  · obtain ⟨c, hc, rfl⟩ := Option.map_eq_some_iff.1 hj
    exact .inr ⟨c, Array.mem_of_getElem? hc, rfl⟩
  · exact .inl (Array.mem_of_getElem? hj)

theorem mem_onBlock {i : BlockId} {f : Block → Block} {b : Block}
    (hb : b ∈ (g.onBlock i f).blocks) : b ∈ g.blocks ∨ ∃ c ∈ g.blocks, b = f c :=
  mem_modify hb

theorem WellBuilt.onBlock (hg : g.WellBuilt T) (i : BlockId) {f : Block → Block}
    (hf : ∀ b, b.WellBuilt T g.blocks.size → (f b).WellBuilt T g.blocks.size) :
    (g.onBlock i f).WellBuilt T := by
  have hsize := size_onBlock g i f
  refine ⟨hg.mode, fun b hb => ?_, hg.labels_linked, fun l j hj => ?_, fun j hj => ?_, ?_⟩
  · rw [hsize]
    rcases mem_onBlock hb with hb | ⟨c, hc, rfl⟩
    · exact hg.blocks b hb
    · exact hf c (hg.blocks c hc)
  · rw [hsize]
    exact hg.label_lt l j hj
  · rw [hsize]
    exact hg.current_lt j hj
  · rw [hsize]
    exact hg.last_lt

theorem WellBuilt.bind (hg : g.WellBuilt T) (l : Label) {i : BlockId} (hi : i < g.blocks.size) :
    (g.bind l i).WellBuilt T := by
  refine ⟨hg.mode, hg.blocks, hg.labels_linked.insert _ _, fun k j hj => ?_, hg.current_lt,
    hg.last_lt⟩
  have hj' : (g.labels.insert l i).2.get? k = some j := hj
  rw [hg.labels_linked.get?_insert] at hj'
  split at hj'
  · cases hl : g.labels.get? l with
    | none =>
      rw [hl] at hj'
      cases hj'
      exact hi
    | some j' =>
      rw [hl] at hj'
      cases hj'
      exact hg.label_lt l _ hl
  · exact hg.label_lt k j hj'

theorem WellBuilt.blockOf (hg : g.WellBuilt T) (l : Label) :
    (g.blockOf l).2.WellBuilt T ∧ (g.blockOf l).1 < (g.blockOf l).2.blocks.size := by
  unfold BlockGraph.blockOf
  cases hl : g.labels.get? l with
  | some i => exact ⟨hg, hg.label_lt l i hl⟩
  | none =>
    obtain ⟨hg', hi, -⟩ := hg.newBlock
    exact ⟨hg'.bind l hi, hi⟩

theorem WellBuilt.withCurrent (hg : g.WellBuilt T) {current : Option BlockId}
    (hi : ∀ i, current = some i → i < g.blocks.size) :
    WellBuilt T { g with current := current } :=
  ⟨hg.mode, hg.blocks, hg.labels_linked, hg.label_lt, hi, hg.last_lt⟩

theorem WellBuilt.place (hg : g.WellBuilt T) (i : BlockId) (position : Nat) :
    (g.place i position).WellBuilt T :=
  hg.onBlock i fun _ hb => ⟨hb.frame, hb.edges, hb.sameAs, hb.fresh⟩

theorem WellBuilt.markTarget (hg : g.WellBuilt T) (i : BlockId) :
    (g.onBlock i fun b => { b with isTarget := true }).WellBuilt T :=
  hg.onBlock i fun _ hb => ⟨hb.frame, hb.edges, hb.sameAs, hb.fresh⟩

theorem WellBuilt.addEdge (hg : g.WellBuilt T) {kind : EdgeKind} {i : BlockId}
    (he : Edge.InRange T g.blocks.size ⟨kind, i⟩) : (g.addEdge kind i).WellBuilt T := by
  unfold BlockGraph.addEdge
  split
  · refine hg.onBlock _ fun b hb => ⟨hb.frame, fun e he' => ?_, hb.sameAs, hb.fresh⟩
    rcases Array.mem_push.1 he' with he' | rfl
    · exact hb.edges e he'
    · exact he
  · exact hg

@[simp] theorem size_addEdge (g : BlockGraph) (kind : EdgeKind) (i : BlockId) :
    (g.addEdge kind i).blocks.size = g.blocks.size := by
  unfold BlockGraph.addEdge
  split
  · exact size_onBlock ..
  · rfl

@[simp] theorem size_place (g : BlockGraph) (i : BlockId) (position : Nat) :
    (g.place i position).blocks.size = g.blocks.size := size_onBlock ..

theorem WellBuilt.makeAlias (hg : g.WellBuilt T) (i : BlockId) {kept : BlockId}
    (hkept : kept < g.blocks.size) : (g.makeAlias i kept).WellBuilt T := by
  unfold BlockGraph.makeAlias
  split
  · exact hg
  · refine WellBuilt.onBlock (hg.onBlock kept ?_) i ?_
    · exact fun b hb => ⟨hb.frame, hb.edges, hb.sameAs, hb.fresh⟩
    · refine fun b hb => ⟨hb.frame, hb.edges, ?_, hb.fresh⟩
      rintro j ⟨⟩
      exact Nat.lt_of_lt_of_eq hkept (size_onBlock ..).symm

@[simp] theorem size_makeAlias (g : BlockGraph) (i kept : BlockId) :
    (g.makeAlias i kept).blocks.size = g.blocks.size := by
  unfold BlockGraph.makeAlias
  split
  · rfl
  · simp

theorem WellBuilt.append (hg : g.WellBuilt T) {i : BlockId} (hi : i < g.blocks.size) :
    (g.append i).WellBuilt T := by
  have hg' := hg.onBlock g.last (f := fun b => { b with next := some i }) fun b hb =>
    ⟨hb.frame, hb.edges, hb.sameAs, hb.fresh⟩
  exact ⟨hg'.mode, hg'.blocks, hg'.labels_linked, hg'.label_lt, hg'.current_lt,
    Nat.lt_of_lt_of_eq hi (size_onBlock ..).symm⟩

@[simp] theorem size_append (g : BlockGraph) (i : BlockId) :
    (g.append i).blocks.size = g.blocks.size := size_onBlock ..

/-! ## 3. Starting and ending blocks -/

theorem WellBuilt.enter (hg : g.WellBuilt T) {i : BlockId} (hi : i < g.blocks.size)
    (position : Nat) : (g.enter i position).WellBuilt T := by
  unfold BlockGraph.enter
  dsimp only
  split
  · refine (hg.makeAlias i hg.last_lt).withCurrent ?_
    rintro j ⟨⟩
    exact Nat.lt_of_lt_of_eq hg.last_lt (size_makeAlias ..).symm
  · refine (hg.withCurrent ?_).append hi
    rintro j ⟨⟩
    exact hi

theorem WellBuilt.startBlock (hg : g.WellBuilt T) {i : BlockId} (hi : i < g.blocks.size)
    (position : Nat) : (g.startBlock i position).WellBuilt T := by
  have hplaced := hg.place i position
  have hi' : i < (g.place i position).blocks.size := Nat.lt_of_lt_of_eq hi (size_place ..).symm
  have hedge : Edge.InRange T (g.place i position).blocks.size ⟨.normal, i⟩ :=
    ⟨hi', by rintro t ⟨⟩⟩
  unfold BlockGraph.startBlock
  simp only [hplaced.mode]
  split
  · rename_i current hcurrent
    split
    · exact hplaced.makeAlias i (hplaced.current_lt _ hcurrent)
    · exact (hplaced.addEdge hedge).enter (Nat.lt_of_lt_of_eq hi' (size_addEdge ..).symm) position
  · exact hplaced.enter hi' position

theorem WellBuilt.endBlock (hg : g.WellBuilt T) (stop : Nat) : (g.endBlock stop).WellBuilt T := by
  obtain ⟨hg', hi, -⟩ := hg.newBlock
  unfold BlockGraph.endBlock
  simp only [hg.mode]
  refine WellBuilt.withCurrent ?_ (by rintro i ⟨⟩)
  exact (hg'.place _ stop).append (Nat.lt_of_lt_of_eq hi (size_place ..).symm)

theorem WellBuilt.label (hg : g.WellBuilt T) (l : Label) (position : Nat) :
    (g.label l position).WellBuilt T := by
  obtain ⟨hg', hi⟩ := hg.blockOf l
  exact hg'.startBlock hi position

theorem WellBuilt.target (hg : g.WellBuilt T) (l : Label) :
    (g.target l).2.WellBuilt T ∧ (g.target l).1 < (g.target l).2.blocks.size := by
  obtain ⟨hg', hi⟩ := hg.blockOf l
  unfold BlockGraph.target
  rcases hl : g.blockOf l with ⟨i, g'⟩
  rw [hl] at hg' hi
  exact ⟨hg'.markTarget _, Nat.lt_of_lt_of_eq hi (size_onBlock ..).symm⟩

/-- The blocks of the labels of a handler. -/
def mention (r : HandlerRange) (g : BlockGraph) : BlockGraph :=
  (((g.blockOf r.start).2.blockOf r.stop).2.blockOf r.handler).2

theorem addHandler_eq (r : HandlerRange) (g : BlockGraph) :
    g.addHandler r = { g.mention r with handlers := (g.mention r).handlers.push r } := by
  unfold addHandler mention
  rcases g.blockOf r.start with ⟨i₁, g₁⟩
  rcases h₂ : g₁.blockOf r.stop with ⟨i₂, g₂⟩
  rcases h₃ : g₂.blockOf r.handler with ⟨i₃, g₃⟩
  cases g₃
  simp only [h₂, h₃]

theorem WellBuilt.mention (hg : g.WellBuilt T) (r : HandlerRange) : (g.mention r).WellBuilt T := by
  obtain ⟨hstart, -⟩ := hg.blockOf r.start
  obtain ⟨hstop, -⟩ := hstart.blockOf r.stop
  exact (hstop.blockOf r.handler).1

theorem WellBuilt.addHandler (hg : g.WellBuilt T) (r : HandlerRange) :
    (g.addHandler r).WellBuilt T := by
  have hm := hg.mention r
  rw [addHandler_eq]
  exact ⟨hm.mode, hm.blocks, hm.labels_linked, hm.label_lt, hm.current_lt, hm.last_lt⟩

theorem WellBuilt.splitAt (hg : g.WellBuilt T) (position : Nat) :
    (CodeWriter.splitAt position g).WellBuilt T := by
  obtain ⟨hg', hi, -⟩ := hg.newBlock
  exact hg'.startBlock hi position

theorem WellBuilt.fallThrough (hg : g.WellBuilt T) (stop : Nat) (isTarget : Bool) :
    (g.fallThrough stop isTarget).WellBuilt T := by
  obtain ⟨hg', hi, -⟩ := hg.newBlock
  unfold BlockGraph.fallThrough
  cases isTarget with
  | false => exact hg'.startBlock hi stop
  | true =>
    exact (hg'.markTarget _).startBlock (Nat.lt_of_lt_of_eq hi (size_onBlock ..).symm) stop

/-- An edge to the block of a label. -/
def leadTo (l : Label) (g : BlockGraph) : BlockGraph :=
  (g.target l).2.addEdge .normal (g.target l).1

theorem WellBuilt.leadTo (hg : g.WellBuilt T) (l : Label) : (g.leadTo l).WellBuilt T := by
  obtain ⟨hg', hi⟩ := hg.target l
  exact hg'.addEdge ⟨hi, by rintro t ⟨⟩⟩

/-! ## 4. Instructions -/

/-- What an instruction at an offset does to the frame of the current block. -/
def frameStep (start : Nat) : Instruction Label → FrameM Unit
  | .method op _ name descriptor _ =>
    if op = Opcode.invokedynamic then Frame.dynamicCall descriptor
    else Frame.member op name descriptor
  | i => Frame.step start i

/-- The edges and blocks that an instruction adds, when it ends at an offset. -/
def afterStep (stop : Nat) (around : Bool) : Instruction Label → BlockGraph → BlockGraph
  | .simple op, g => if op.isReturn || op == Opcode.athrow then g.endBlock stop else g
  | .jump op goal, g =>
    if op == Opcode.goto || op == Opcode.gotoW then (g.leadTo goal).endBlock stop
    else (g.leadTo goal).fallThrough stop around
  | .tableSwitch _ _ default targets, g | .lookupSwitch default _ targets, g =>
    ((default :: targets).foldl (fun g l => g.leadTo l) g).endBlock stop
  | _, g => g

theorem whenReached_apply (act : GraphM Unit) (g : BlockGraph) (T : TypeTable) :
    whenReached act g T = if g.current.isSome then act g T else ((.ok (), g), T) := by
  unfold whenReached
  rw [bind_apply₂]
  show (if g.current.isSome then act else pure ()) g T = _
  split <;> rfl

theorem byMode_apply (frames heights : GraphM Unit) (hg : g.mode = .frames) (T : TypeTable) :
    byMode frames heights g T = frames g T := by
  obtain ⟨mode, _, _, _, _, _, _, _⟩ := g
  obtain rfl : mode = .frames := hg
  rfl

theorem byMode_bind_apply {α : Type} (frames heights : GraphM Unit) (k : Unit → GraphM α)
    (hg : g.mode = .frames) (T : TypeTable) :
    (byMode frames heights >>= k) g T = (frames >>= k) g T := by
  rw [bind_apply₂, bind_apply₂, byMode_apply _ _ hg]

/-- An operation on the frame, and then one that cannot fail. -/
theorem onFrame_bind_apply (act : FrameM Unit) {tail : GraphM Unit} {k : BlockGraph → BlockGraph}
    (htail : ∀ g T, tail g T = ((.ok (), k g), T)) (g : BlockGraph) (T : TypeTable) :
    (onFrame act >>= fun _ => tail) g T =
      match onFrame act g T with
      | ((.ok _, g'), T') => ((.ok (), k g'), T')
      | ((.error e, g'), T') => ((.error e, g'), T') := by
  rw [bind_apply₂]
  rcases onFrame act g T with ⟨⟨_ | _, g'⟩, T'⟩
  · rfl
  · exact htail g' T'

/-- An instruction whose only effect is that on the frame. -/
theorem onFrame_apply (act : FrameM Unit) (g : BlockGraph) (T : TypeTable) :
    onFrame act g T =
      match onFrame act g T with
      | ((.ok _, g'), T') => ((.ok (), g'), T')
      | ((.error e, g'), T') => ((.error e, g'), T') := by
  rcases onFrame act g T with ⟨⟨_ | _, g'⟩, T'⟩ <;> rfl

theorem onFrame_unreached (hg : g.current = none) (act : FrameM Unit) (T : TypeTable) :
    onFrame act g T = ((.ok (), g), T) := by
  obtain ⟨mode, blocks, labels, current, last, height, peak, handlers⟩ := g
  cases hg
  rfl

/-- Where control does not get to, an instruction changes nothing. -/
theorem step_unreached (hg : g.current = none) (start stop : Nat) (around : Bool)
    (i : Instruction Label) (T : TypeTable) : step start stop around i g T = ((.ok (), g), T) := by
  have hidle : ∀ act : FrameM Unit, onFrame act g T = ((.ok (), g), T) :=
    fun act => onFrame_unreached hg act T
  cases i <;> simp [step, plain, number, localOperand, typeOperand, field, call, jump, constant,
    increment, switch, multiArray, whenReached_apply, hg, hidle]

/-- **An instruction changes the frame of the current block, and then the blocks around it.** -/
theorem step_apply (hg : g.mode = .frames) (start stop : Nat) (around : Bool)
    (i : Instruction Label) (T : TypeTable) :
    step start stop around i g T =
      match onFrame (frameStep start i) g T with
      | ((.ok _, g'), T') =>
        ((.ok (), if g.current.isSome then afterStep stop around i g' else g'), T')
      | ((.error e, g'), T') => ((.error e, g'), T') := by
  cases hc : g.current with
  | none =>
    rw [step_unreached hc, onFrame_unreached hc]
    rfl
  | some c =>
    cases i <;> simp only [step, plain, number, localOperand, typeOperand, field, call, constant,
      increment, multiArray, jump, switch, whenReached_apply, hc, Option.isSome_some, if_true,
      byMode_bind_apply _ _ _ hg, byMode_apply _ _ hg, bind_assoc]
    case int | var | type | field | method | invokeDynamic | constant | multiArray | increment =>
      exact onFrame_apply _ g T
    case simple op =>
      refine onFrame_bind_apply _ (fun g T => ?_) g T
      rw [afterStep]
      split <;> rfl
    case jump op goal =>
      refine onFrame_bind_apply _ (fun g T => ?_) g T
      rw [afterStep]
      cases op == Opcode.goto || op == Opcode.gotoW <;> rfl
    case tableSwitch =>
      refine onFrame_bind_apply _ (fun g T => ?_) g T
      rfl
    case lookupSwitch =>
      refine onFrame_bind_apply _ (fun g T => ?_) g T
      rfl

/-- An operation on the frame of the current block. -/
theorem onFrame_current {i : BlockId} (hcurrent : g.current = some i) {b : Block}
    (hb : g.blocks[i]? = some b) {f : Frame} (hf : b.frame = some f) {act : FrameM Unit}
    {r : Except Error Unit} {f' : Frame} (hact : act f T = ((r, f'), T')) :
    onFrame act g T = ((r, g.onBlock i fun b => { b with frame := some f' }), T') := by
  obtain ⟨mode, blocks, labels, current, last, height, peak, handlers⟩ := g
  obtain ⟨position, isTarget, isWritten, isReachable, isPending, isPlaced, frame, next, edges,
    entryHeight, peak', sameAs⟩ := b
  obtain ⟨hi, hget⟩ := Array.getElem?_eq_some_iff.1 hb
  cases hcurrent
  cases hf
  simp only [onFrame, if_pos hi, changeBlock, hb, Block.onFrame, hact, onBlock, onBlocks]
  congr 3
  apply Array.ext_getElem?
  intro j
  rw [Array.getElem?_modify]
  by_cases hj : i = j
  · subst hj
    simp [hi, hget]
  · simp [hj]

/-- **What an operation on the frame does to the graph**: at most one block changes, and only in its
frame. -/
theorem onFrame_cases {T₀ : TypeTable} (hg : g.WellBuilt T₀) {act : FrameM Unit}
    {r : Except Error Unit} {g' : BlockGraph} (hrun : onFrame act g T = ((r, g'), T')) :
    (g.current = none ∧ r = .ok () ∧ g' = g ∧ T' = T) ∨
      ∃ i b f f', g.current = some i ∧ g.blocks[i]? = some b ∧ b.frame = some f ∧
        act f T = ((r, f'), T') ∧ g' = g.onBlock i fun b => { b with frame := some f' } := by
  cases hc : g.current with
  | none =>
    rw [onFrame_unreached hc] at hrun
    cases hrun
    exact .inl ⟨rfl, rfl, rfl, rfl⟩
  | some i =>
    have hi := hg.current_lt i hc
    have hget : g.blocks[i]? = some g.blocks[i] := Array.getElem?_eq_getElem hi
    obtain ⟨f, hf, -⟩ := (hg.blocks g.blocks[i] (Array.getElem_mem hi)).frame
    rcases hact : (act f T : (Except Error Unit × Frame) × TypeTable) with ⟨⟨r', f'⟩, T''⟩
    rw [onFrame_current hc hget hf hact] at hrun
    cases hrun
    exact .inr ⟨i, _, f, f', rfl, hget, hf, hact, rfl⟩

theorem heeds_frameStep {made : Nat → Bool} {P : TypeTable → Prop} {start : Nat}
    {i : Instruction Label} (hnew : i.makesObject = true → made start = true) :
    Frame.Heeds h made P (frameStep start i) (fun _ _ => True) := by
  unfold frameStep
  split
  · split
    · exact Frame.heeds_dynamicCall _
    · exact Frame.heeds_member _ _ _
  · exact Frame.heeds_step hnew

theorem keeps_frameStep {P : TypeTable → Prop} (start : Nat) (i : Instruction Label) :
    Frame.Keeps h P (frameStep start i) (fun _ _ => True) :=
  (heeds_frameStep fun _ => rfl).keeps

theorem WellBuilt.setFrame (hg : g.WellBuilt T) (i : BlockId) {f : Frame} (hf : f.Lawful T none) :
    (g.onBlock i fun b => { b with frame := some f }).WellBuilt T :=
  hg.onBlock i fun _ hb => ⟨⟨f, rfl, hf⟩, hb.edges, hb.sameAs, hb.fresh⟩

theorem WellBuilt.onFrame (hT : T.Sound h) (hg : g.WellBuilt T) {act : FrameM Unit}
    (hact : Frame.Keeps h (fun _ => True) act (fun _ _ => True)) {r : Except Error Unit}
    {g' : BlockGraph} (hrun : onFrame act g T = ((r, g'), T')) :
    T'.Sound h ∧ T ≤ T' ∧ g'.WellBuilt T' := by
  rcases onFrame_cases hg hrun with ⟨-, -, rfl, rfl⟩ | ⟨i, b, f, f', hc, hb, hf, hrun', rfl⟩
  · exact ⟨hT, TypeTable.le_refl T', hg⟩
  · obtain ⟨f₀, hf₀, hlawful⟩ := (hg.blocks b (Array.mem_of_getElem? hb)).frame
    cases hf.symm.trans hf₀
    have hkeep := hact T none f T ⟨⟨hT, TypeTable.le_refl T, hlawful⟩, trivial⟩
    rw [hrun'] at hkeep
    have hstep : Frame.InStep h T none f' T' := by
      cases r with
      | error e => exact hkeep
      | ok u => exact hkeep.1
    exact ⟨hstep.sound, hstep.grown, (hg.later hstep.grown).setFrame i hstep.lawful⟩

/-- Behind what has been done to a graph, in a method in which `new` instructions are at the offsets
`made`: no types have been merged, and the graph is well built as the method sees the table. -/
structure InMethod (h : Hierarchy) (made : Nat → Bool) (T : TypeTable) (g' : BlockGraph)
    (T' : TypeTable) : Prop where
  sound : T'.Sound h
  grown : T ≤ T'
  merges_eq : T'.merges = T.merges
  wellBuilt : g'.WellBuilt (T'.within made)

theorem InMethod.trans {made : Nat → Bool} {T'' : TypeTable} {g' g'' : BlockGraph}
    (hg : InMethod h made T g' T') (hg' : InMethod h made T' g'' T'') : InMethod h made T g'' T'' :=
  ⟨hg'.sound, TypeTable.le_trans hg.grown hg'.grown, hg'.merges_eq.trans hg.merges_eq, hg'.wellBuilt⟩

theorem WellBuilt.inMethod {made : Nat → Bool} (hT : T.Sound h) (hg : g.WellBuilt (T.within made)) :
    InMethod h made T g T :=
  ⟨hT, TypeTable.le_refl T, rfl, hg⟩

theorem WellBuilt.onFrame_inMethod {made : Nat → Bool} (hT : T.Sound h)
    (hg : g.WellBuilt (T.within made)) {act : FrameM Unit}
    (hact : Frame.Heeds h made (fun _ => True) act (fun _ _ => True)) {r : Except Error Unit}
    {g' : BlockGraph} (hrun : BlockGraph.onFrame act g T = ((r, g'), T')) :
    InMethod h made T g' T' := by
  rcases onFrame_cases hg hrun with ⟨-, -, rfl, rfl⟩ | ⟨i, b, f, f', hc, hb, hf, hrun', rfl⟩
  · exact hg.inMethod hT
  · obtain ⟨f₀, hf₀, hlawful⟩ := (hg.blocks b (Array.mem_of_getElem? hb)).frame
    cases hf.symm.trans hf₀
    have hheed := hact T none f T ⟨⟨hT, TypeTable.le_refl T, rfl, hlawful⟩, trivial⟩
    rw [hrun'] at hheed
    have hstep : Frame.InMethod h made T none f' T' := by
      cases r with
      | error e => exact hheed
      | ok u => exact hheed.1
    exact ⟨hstep.sound, hstep.grown, hstep.merges_eq,
      (hg.later (TypeTable.within_mono made hstep.grown)).setFrame i hstep.lawful⟩

theorem WellBuilt.leadToAll (hg : g.WellBuilt T) (ls : List Label) :
    (ls.foldl (fun g l => g.leadTo l) g).WellBuilt T := by
  induction ls generalizing g with
  | nil => exact hg
  | cons l ls ih => exact ih (hg.leadTo l)

theorem WellBuilt.afterStep (hg : g.WellBuilt T) (stop : Nat) (around : Bool)
    (i : Instruction Label) : (g.afterStep stop around i).WellBuilt T := by
  cases i
  case simple op =>
    rw [BlockGraph.afterStep]
    split
    · exact hg.endBlock stop
    · exact hg
  case jump op goal =>
    rw [BlockGraph.afterStep]
    split
    · exact (hg.leadTo goal).endBlock stop
    · exact (hg.leadTo goal).fallThrough stop around
  case tableSwitch low high default targets => exact (hg.leadToAll (default :: targets)).endBlock stop
  case lookupSwitch default keys targets => exact (hg.leadToAll (default :: targets)).endBlock stop
  case int | var | type | field | method | invokeDynamic | constant | increment | multiArray =>
    exact hg

/-- **An instruction keeps the graph well built** as the method sees the table, also when it fails. -/
theorem WellBuilt.step_inMethod {made : Nat → Bool} (hT : T.Sound h)
    (hg : g.WellBuilt (T.within made)) {start : Nat} (stop : Nat) (around : Bool)
    {i : Instruction Label} (hnew : i.makesObject = true → made start = true) {r : Except Error Unit}
    {g' : BlockGraph} (hrun : BlockGraph.step start stop around i g T = ((r, g'), T')) :
    InMethod h made T g' T' := by
  rw [step_apply hg.mode] at hrun
  rcases hf : BlockGraph.onFrame (frameStep start i) g T with ⟨⟨rf, g₁⟩, T₁⟩
  have hg₁ := hg.onFrame_inMethod hT (heeds_frameStep hnew) hf
  rw [hf] at hrun
  cases rf with
  | error e =>
    cases hrun
    exact hg₁
  | ok u =>
    simp only at hrun
    obtain ⟨⟨-, rfl⟩, rfl⟩ := hrun
    refine ⟨hg₁.sound, hg₁.grown, hg₁.merges_eq, ?_⟩
    split
    · exact hg₁.wellBuilt.afterStep stop around i
    · exact hg₁.wellBuilt

/-- In a method that could have made everything. -/
theorem WellBuilt.step (hT : T.Sound h) (hg : g.WellBuilt T) (start stop : Nat) (around : Bool)
    (i : Instruction Label) {r : Except Error Unit} {g' : BlockGraph}
    (hrun : step start stop around i g T = ((r, g'), T')) :
    T'.Sound h ∧ T ≤ T' ∧ g'.WellBuilt T' := by
  have hg' := (T.within_all.symm ▸ hg : g.WellBuilt (T.within fun _ => true)).step_inMethod hT stop
    around (fun _ => rfl) hrun
  exact ⟨hg'.sound, hg'.grown, T'.within_all ▸ hg'.wellBuilt⟩

end BlockGraph

/-! ## 5. Events -/

/-- What is reported to a graph. -/
inductive GraphEvent where
  /-- An instruction between two offsets, which may have been written as a jump around another one. -/
  | instruction (start stop : Nat) (around : Bool) (i : Instruction Label)
  | label (l : Label) (position : Nat)
  /-- A block starts without a label. -/
  | split (position : Nat)
  | handler (r : HandlerRange)

/-- What an event does to a graph. -/
def GraphEvent.act : GraphEvent → GraphM Unit
  | instruction start stop around i => BlockGraph.step start stop around i
  | label l position => modify (BlockGraph.label l position)
  | split position => modify (CodeWriter.splitAt position)
  | handler r => modify (BlockGraph.addHandler r)

namespace BlockGraph

variable {g : BlockGraph}

theorem WellBuilt.act (hT : T.Sound h) (hg : g.WellBuilt T) (e : GraphEvent)
    {r : Except Error Unit} {g' : BlockGraph} (hrun : e.act g T = ((r, g'), T')) :
    T'.Sound h ∧ T ≤ T' ∧ g'.WellBuilt T' := by
  cases e with
  | instruction start stop around i => exact hg.step hT start stop around i hrun
  | label l position =>
    cases hrun
    exact ⟨hT, TypeTable.le_refl T, hg.label l position⟩
  | split position =>
    cases hrun
    exact ⟨hT, TypeTable.le_refl T, hg.splitAt position⟩
  | handler r =>
    cases hrun
    exact ⟨hT, TypeTable.le_refl T, hg.addHandler r⟩

/-- The graph and the table behind events, some of which may have failed. -/
def build : List GraphEvent → BlockGraph → TypeTable → BlockGraph × TypeTable
  | [], g, T => (g, T)
  | e :: es, g, T =>
    let ((_, g), T) := e.act g T
    build es g T

/-- **Graphs with frames are well built**, whatever was reported to them. -/
theorem build_wellBuilt (hT : T.Sound h) (hg : g.WellBuilt T) (es : List GraphEvent) :
    (build es g T).2.Sound h ∧ T ≤ (build es g T).2 ∧
      (build es g T).1.WellBuilt (build es g T).2 := by
  induction es generalizing g T with
  | nil => exact ⟨hT, TypeTable.le_refl T, hg⟩
  | cons e es ih =>
    rcases hrun : e.act g T with ⟨⟨r, g'⟩, T'⟩
    obtain ⟨hT', hle, hg'⟩ := hg.act hT e hrun
    obtain ⟨hs, hle', hg''⟩ := ih hT' hg'
    rw [build, hrun]
    exact ⟨hs, TypeTable.le_trans hle hle', hg''⟩

/-! ## 6. Edges to handlers -/

theorem follow_lt {blocks : Array Block}
    (hb : ∀ b ∈ blocks, ∀ j, b.sameAs = some j → j < blocks.size) (limit : Nat) {i : BlockId}
    (hi : i < blocks.size) : follow blocks limit i < blocks.size := by
  induction limit generalizing i with
  | zero => exact hi
  | succ limit ih =>
    unfold follow
    split
    · rename_i j hj
      obtain ⟨b, hb', hj⟩ := Option.bind_eq_some_iff.1 hj
      exact ih (hb b (Array.mem_of_getElem? hb') j hj)
    · exact hi

theorem WellBuilt.first_lt (hg : g.WellBuilt T) {i : BlockId} (hi : i < g.blocks.size) :
    g.first i < g.blocks.size :=
  follow_lt (fun b hb => (hg.blocks b hb).sameAs) _ hi

theorem WellBuilt.firstOf_lt (hg : g.WellBuilt T) (l : Label) : g.firstOf l < g.blocks.size := by
  refine hg.first_lt ?_
  cases hl : g.labels.get? l with
  | none => exact Nat.zero_lt_of_lt hg.last_lt
  | some i => exact hg.label_lt l i hl

theorem WellBuilt.addEdges (hg : g.WellBuilt T) {e : Edge} (he : e.InRange T g.blocks.size)
    (range : List BlockId) : (g.addEdges e range).WellBuilt T := by
  unfold BlockGraph.addEdges
  induction range generalizing g with
  | nil => exact hg
  | cons i range ih =>
    refine ih (g := g.onBlock i (Block.addEdge e)) (hg.onBlock i fun b hb => ?_)
      (size_onBlock g i _ ▸ he)
    refine ⟨hb.frame, fun e' he' => ?_, hb.sameAs, hb.fresh⟩
    rcases Array.mem_push.1 he' with he' | rfl
    · exact hb.edges e' he'
    · exact he

/-- What a handler catches is put into the table. -/
theorem handlerKind_apply {r : HandlerRange} {x : SlotType} (hg : g.mode = .frames)
    (hobject : SlotType.object (r.caught.getD "java/lang/Throwable") T = (.ok x, T')) :
    handlerKind r g T = ((.ok (.caught x), g), T') := by
  obtain ⟨mode, blocks, labels, current, last, height, peak, handlers⟩ := g
  obtain rfl : mode = .frames := hg
  refine returns₂_bind.2 ⟨_, _, T, rfl, ?_⟩
  refine returns₂_bind.2 ⟨x, _, T', ?_, returns₂_pure.2 ⟨rfl, rfl, rfl⟩⟩
  simp only [Returns₂, hobject]

/-- **What a handler adds to a graph with frames**: nothing if its range is empty, and else an edge
from each block of the range. -/
theorem addHandlerEdges_cases (hT : T.Sound h) (hg : g.mode = .frames) (r : HandlerRange)
    {ans : Except Error Unit} {g' : BlockGraph}
    (hrun : addHandlerEdges r g T = ((ans, g'), T')) :
    ans = .ok () ∧ T'.Sound h ∧ T ≤ T' ∧ T'.merges = T.merges ∧ (g' = g ∧
        g.positionOf (g.firstOf r.stop) ≤ g.positionOf (g.firstOf r.start) ∨
      g.positionOf (g.firstOf r.start) < g.positionOf (g.firstOf r.stop) ∧ ∃ i,
      T'.entries[i]? = some (.initialized (r.caught.getD "java/lang/Throwable")) ∧
      g' = (g.onBlock (g.firstOf r.handler) fun b => { b with isTarget := true }).addEdges
        ⟨.caught (.scalar (.object i)), g.firstOf r.handler⟩
        ((g.onBlock (g.firstOf r.handler) fun b => { b with isTarget := true }).range
          (g.firstOf r.start) (g.firstOf r.stop))) := by
  have hrun' : (if g.positionOf (g.firstOf r.start) < g.positionOf (g.firstOf r.stop) then do
        let kind ← handlerKind r
        if (← get).mode = .frames then
          modify (onBlock (g.firstOf r.handler) fun b => { b with isTarget := true })
        modify fun g' =>
          g'.addEdges ⟨kind, g.firstOf r.handler⟩ (g'.range (g.firstOf r.start) (g.firstOf r.stop))
      else pure () : GraphM Unit) g T = ((ans, g'), T') := hrun
  split at hrun'
  · rename_i hpos
    obtain ⟨i, T₁, hret, hs, hle, hi⟩ :=
      hT.intern (.initialized (r.caught.getD "java/lang/Throwable"))
    have hobject : SlotType.object (r.caught.getD "java/lang/Throwable") T =
        (.ok (.scalar (.object i)), T₁) :=
      returns_bind.2 ⟨i, T₁, hret, returns_pure.2 ⟨rfl, rfl⟩⟩
    have hkind := handlerKind_apply hg hobject
    rw [bind_apply₂, hkind] at hrun'
    have hrest : (if g.mode = .frames then
          modify (onBlock (g.firstOf r.handler) fun b => { b with isTarget := true }) >>= fun _ =>
            modify fun g' => g'.addEdges ⟨.caught (.scalar (.object i)), g.firstOf r.handler⟩
              (g'.range (g.firstOf r.start) (g.firstOf r.stop))
        else _ : GraphM Unit) g T₁ = ((ans, g'), T') := hrun'
    rw [if_pos hg] at hrest
    cases hrest
    exact ⟨rfl, hs, hle, TypeTable.merges_of_intern hret, .inr ⟨hpos, i, hi, rfl⟩⟩
  · rename_i hpos
    cases hrun'
    exact ⟨rfl, hT, TypeTable.le_refl T, rfl, .inl ⟨rfl, Nat.le_of_not_lt hpos⟩⟩

/-- What is true after the edges of each handler is true after those of all handlers. -/
theorem addAllHandlerEdges_answers {P : Except Error Unit → BlockGraph → TypeTable → Prop}
    (hP : ∀ r ∈ g.handlers, ∀ g T ans g' T', P (.ok ()) g T →
      addHandlerEdges r g T = ((ans, g'), T') → P ans g' T')
    {ans : Except Error Unit} {g' : BlockGraph} (hg : P (.ok ()) g T)
    (hrun : addAllHandlerEdges g T = ((ans, g'), T')) : P ans g' T' := by
  have hlist : ∀ (rs : List HandlerRange), (∀ r ∈ rs, r ∈ g.handlers) → ∀ g₁ T₁, P (.ok ()) g₁ T₁ →
      ∀ ans, (forIn rs PUnit.unit fun r _ => do
        addHandlerEdges r
        pure (ForInStep.yield PUnit.unit) : GraphM PUnit) g₁ T₁ = ((ans, g'), T') → P ans g' T' := by
    intro rs
    induction rs with
    | nil =>
      intro _ g₁ T₁ hP₁ ans hrun
      cases hrun
      exact hP₁
    | cons r rs ih =>
      intro hrs g₁ T₁ hP₁ ans hrun
      rw [List.forIn_cons, bind_assoc, bind_apply₂] at hrun
      rcases hr : addHandlerEdges r g₁ T₁ with ⟨⟨_ | u, g₂⟩, T₂⟩ <;> rw [hr] at hrun
      · cases hrun
        exact hP r (hrs r (by simp)) _ _ _ _ _ hP₁ hr
      · exact ih (fun r' hr' => hrs r' (by simp [hr'])) g₂ T₂
          (hP r (hrs r (by simp)) _ _ _ _ _ hP₁ hr) ans hrun
  unfold addAllHandlerEdges at hrun
  simp only [bind_pure_unit] at hrun
  exact hlist g.handlers.toList (fun r hr => Array.mem_toList_iff.1 hr) g T hg ans hrun

/-- What the edges of each handler keep, those of all handlers keep. -/
theorem addAllHandlerEdges_keeps {P : BlockGraph → TypeTable → Prop}
    (hP : ∀ r ∈ g.handlers, ∀ g T ans g' T', P g T → addHandlerEdges r g T = ((ans, g'), T') →
      P g' T') {ans : Except Error Unit} {g' : BlockGraph} (hg : P g T)
    (hrun : addAllHandlerEdges g T = ((ans, g'), T')) : P g' T' :=
  addAllHandlerEdges_answers (P := fun _ => P) hP hg hrun

theorem WellBuilt.addHandlerEdges_inMethod {made : Nat → Bool} (hT : T.Sound h)
    (hg : g.WellBuilt (T.within made)) (r : HandlerRange) {ans : Except Error Unit} {g' : BlockGraph}
    (hrun : BlockGraph.addHandlerEdges r g T = ((ans, g'), T')) :
    ans = .ok () ∧ InMethod h made T g' T' := by
  obtain ⟨hans, hs, hle, hmerges, hg'⟩ := addHandlerEdges_cases hT hg.mode r hrun
  have hlater := hg.later (TypeTable.within_mono made hle)
  refine ⟨hans, hs, hle, hmerges, ?_⟩
  obtain ⟨rfl, -⟩ | ⟨-, i, hi, rfl⟩ := hg'
  · exact hlater
  · refine (hlater.markTarget _).addEdges ⟨?_, ?_⟩ _
    · exact Nat.lt_of_lt_of_eq (hg.firstOf_lt r.handler) (size_onBlock ..).symm
    · rintro t ⟨⟩
      exact SlotType.valid_object (TypeTable.within_initialized hi)

/-- What is caught is initialized, so every method sees it. -/
theorem WellBuilt.addAllHandlerEdges_inMethod {made : Nat → Bool} (hT : T.Sound h)
    (hg : g.WellBuilt (T.within made)) {ans : Except Error Unit} {g' : BlockGraph}
    (hrun : BlockGraph.addAllHandlerEdges g T = ((ans, g'), T')) :
    ans = .ok () ∧ InMethod h made T g' T' := by
  refine addAllHandlerEdges_answers (P := fun ans g' T' => ans = .ok () ∧ InMethod h made T g' T') ?_
    ⟨rfl, hg.inMethod hT⟩ hrun
  rintro r - g₁ T₁ ans g₂ T₂ ⟨-, hg₁⟩ hr
  obtain ⟨hans, hg₂⟩ := hg₁.wellBuilt.addHandlerEdges_inMethod hg₁.sound r hr
  exact ⟨hans, hg₁.trans hg₂⟩

theorem WellBuilt.addHandlerEdges (hT : T.Sound h) (hg : g.WellBuilt T) (r : HandlerRange)
    {ans : Except Error Unit} {g' : BlockGraph}
    (hrun : addHandlerEdges r g T = ((ans, g'), T')) :
    T'.Sound h ∧ T ≤ T' ∧ g'.WellBuilt T' := by
  obtain ⟨-, hg'⟩ := (T.within_all.symm ▸ hg :
    g.WellBuilt (T.within fun _ => true)).addHandlerEdges_inMethod hT r hrun
  exact ⟨hg'.sound, hg'.grown, T'.within_all ▸ hg'.wellBuilt⟩

theorem WellBuilt.addAllHandlerEdges (hT : T.Sound h) (hg : g.WellBuilt T)
    {ans : Except Error Unit} {g' : BlockGraph}
    (hrun : addAllHandlerEdges g T = ((ans, g'), T')) :
    T'.Sound h ∧ T ≤ T' ∧ g'.WellBuilt T' := by
  obtain ⟨-, hg'⟩ := (T.within_all.symm ▸ hg :
    g.WellBuilt (T.within fun _ => true)).addAllHandlerEdges_inMethod hT hrun
  exact ⟨hg'.sound, hg'.grown, T'.within_all ▸ hg'.wellBuilt⟩

end BlockGraph

end ClassFile
