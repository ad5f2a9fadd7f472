/-
# Inferred frames solve the data-flow equations

When the frames of a method have been inferred, every block that can be reached from the entry along
edges has been reached, and following any of its edges once more changes nothing; nor does merging
what the method is entered with into the entry of the first block (`infer_solution`).  That holds
for every sequence of events, for every hierarchy without cycles in which `java/lang/Object` has no
super class, and whatever other methods were analysed with that hierarchy before.
-/
import ClassFile.Proofs.BlockGraph.Inference

namespace ClassFile

variable {h : Hierarchy} {T T' : TypeTable}

/-! ## 1. The entry of the method -/

namespace Frame

theorem valid_spread {ts : List SlotType} (hts : ∀ t ∈ ts, t.Valid T) :
    ∀ t ∈ spread ts, t.Valid T := by
  intro t ht
  rcases mem_spread ht with ht | rfl
  · exact hts t ht
  · exact SlotType.valid_top

/-- The locals on entering a method have valid types. -/
theorem tame_methodLocals (className : String) (access : UInt16) (name descriptor : String)
    (maxLocals : UInt16) :
    Tame h (fun _ => True) (methodLocals className access name descriptor maxLocals)
      (fun locals T => ∀ t ∈ locals, t.Valid T) := by
  have hlasting : ∀ ts : List SlotType, Lasting fun T => ∀ t ∈ ts, t.Valid T :=
    fun ts T T' hle hts t ht => (hts t ht).later hle
  have harguments : ∀ receiver : List SlotType,
      Tame h (fun T => ∀ t ∈ receiver, t.Valid T) (do
        let arguments ← (← Descriptor.methodType descriptor).parameters.mapM SlotType.ofFieldType
        let locals := receiver ++ spread arguments
        return (locals ++ List.replicate (maxLocals.toNat - locals.length)
          SlotType.top).toArray : TypeM (Array SlotType))
        (fun locals T => ∀ t ∈ locals, t.Valid T) := by
    intro receiver
    refine (Tame.lift (Q := fun _ T => ∀ t ∈ receiver, t.Valid T) _ fun _ _ _ hP => hP).bind
      fun type => ?_
    refine Tame.bind (((Tame.mapM (P := fun _ => True) (fun t => SlotType.lasting_valid t)
      (fun _ _ _ _ => trivial) type.parameters fun t _ => SlotType.tame_ofFieldType t).frame
      (hlasting receiver)).mono (fun T hP => ⟨trivial, hP⟩) fun _ _ => id) fun arguments => ?_
    refine Tame.pure _ fun T hP t ht => ?_
    rw [List.mem_toArray, List.mem_append, List.mem_append] at ht
    rcases ht with (ht | ht) | ht
    · exact hP.2 t ht
    · exact valid_spread hP.1.2 t ht
    · rw [List.eq_of_mem_replicate ht]
      exact SlotType.valid_top
  unfold methodLocals
  dsimp only
  split
  · exact (Tame.pure _ fun T _ => by simp).bind harguments
  · split
    · exact (Tame.pure _ fun T _ => by simp [SlotType.Valid]; rfl).bind harguments
    · refine (SlotType.tame_object className).bind fun t => ?_
      refine (Tame.pure _ fun T ht => ?_).bind harguments
      obtain ⟨i, rfl, hi⟩ := ht
      simpa using SlotType.valid_object hi

end Frame

namespace BlockGraph

variable {context : MethodContext} {g g' : BlockGraph}

/-! ## 2. Where inference starts -/

/-- The blocks with which inference starts: the first one is entered with some locals and waits. -/
def entered (blocks : Array Block) (f : Frame) (locals : Array SlotType) : Array Block :=
  (blocks.modify 0 fun b => { b with frame := some (f.enteredWith ⟨locals, #[]⟩) }).modify 0
    fun b => { b with isPending := true }

section Entered

variable {f : Frame} {locals : Array SlotType}

theorem frameAt_entered (hg : g.WellBuilt T) (j : BlockId) :
    frameAt (entered g.blocks f locals) j =
      if 0 = j then some (f.enteredWith ⟨locals, #[]⟩) else frameAt g.blocks j := by
  unfold entered
  rw [frameAt_modify_flags (f := fun b => { b with isPending := true }) (fun _ => rfl),
    frameAt_modify_frame (Nat.zero_lt_of_lt hg.last_lt) (fun _ => rfl)]

theorem WellBuilt.entryAt_entered (hg : g.WellBuilt T) (j : BlockId) :
    entryAt (entered g.blocks f locals) j = if 0 = j then some ⟨locals, #[]⟩ else none := by
  unfold entryAt
  rw [frameAt_entered hg]
  split
  · rfl
  · unfold frameAt
    cases hj : g.blocks[j]? with
    | none => rfl
    | some b =>
      obtain ⟨f', hf', hlawful⟩ := (hg.blocks b (Array.mem_of_getElem? hj)).frame
      rw [Option.bind_some, hf', Option.bind_some, hlawful.entry_eq]

theorem size_entered (blocks : Array Block) : (entered blocks f locals).size = blocks.size := by
  simp [entered]

/-- What inference starts with differs from what was built in the first block only. -/
theorem getElem?_entered {blocks : Array Block} {j : BlockId} {b : Block}
    (hb : (entered blocks f locals)[j]? = some b) :
    (j ≠ 0 ∧ blocks[j]? = some b) ∨ ∃ c, j = 0 ∧ blocks[0]? = some c ∧
      b = { c with frame := some (f.enteredWith ⟨locals, #[]⟩), isPending := true } := by
  unfold entered at hb
  rw [Array.getElem?_modify, Array.getElem?_modify] at hb
  by_cases hj : 0 = j
  · subst hj
    right
    simp only [if_true, Option.map_map, Option.map_eq_some_iff, Function.comp_apply] at hb
    obtain ⟨c, hc, rfl⟩ := hb
    exact ⟨c, rfl, hc, rfl⟩
  · left
    rw [if_neg hj, if_neg hj] at hb
    exact ⟨Ne.symm hj, hb⟩

theorem WellBuilt.reachedIn_entered (hg : g.WellBuilt T) (j : BlockId) :
    ReachedIn (entered g.blocks f locals) j ↔ j = 0 := by
  unfold ReachedIn
  rw [hg.entryAt_entered]
  by_cases hj : 0 = j
  · simp [← hj]
  · simp [hj, Ne.symm hj]

theorem WellBuilt.edges_entered (hg : g.WellBuilt T) {j : BlockId} {e : Edge}
    (he : e ∈ edgesAt (entered g.blocks f locals) j) :
    e.InRange T (entered g.blocks f locals).size := by
  unfold edgesAt at he
  cases hj : (entered g.blocks f locals)[j]? with
  | none => simp [hj] at he
  | some b =>
    rw [hj, Option.map_some, Option.getD_some, Array.mem_toList_iff] at he
    rw [size_entered]
    rcases getElem?_entered hj with ⟨-, hc⟩ | ⟨c, -, hc, rfl⟩
    · exact (hg.blocks b (Array.mem_of_getElem? hc)).edges e he
    · exact (hg.blocks c (Array.mem_of_getElem? hc)).edges e he

/-- **Nothing has been visited when inference starts**, and only the entry waits. -/
theorem WellBuilt.complete (hg : g.WellBuilt T) :
    Complete (entered g.blocks f locals) ⟨entered g.blocks f locals, [0], 0⟩ := by
  have hpos : 0 < g.blocks.size := Nat.zero_lt_of_lt hg.last_lt
  have hentry : ∀ j, ReachedIn (entered g.blocks f locals) j → j ∈ [0] := fun j hj =>
    List.mem_singleton.2 ((hg.reachedIn_entered j).1 hj)
  refine ⟨⟨rfl, fun j e he => (hg.edges_entered he).successor_lt, ?_, ?_, by simp, ?_, ?_, ?_, ?_, ?_,
    ?_⟩, (hg.reachedIn_entered 0).2 rfl, fun j hj hmem => absurd (hentry j hj) hmem⟩
  · intro b hb j hj
    rw [size_entered]
    obtain ⟨k, hk⟩ := Array.getElem?_of_mem hb
    rcases getElem?_entered hk with ⟨-, hc⟩ | ⟨c, -, hc, rfl⟩
    · exact (hg.blocks b (Array.mem_of_getElem? hc)).sameAs j hj
    · exact (hg.blocks c (Array.mem_of_getElem? hc)).sameAs j hj
  · intro j hj
    rw [size_entered] at hj
    obtain ⟨f', hf', -⟩ := (hg.blocks _ (Array.getElem_mem hj)).frame
    simp only [frameAt_entered hg]
    split
    · exact ⟨_, rfl⟩
    · exact ⟨f', by rw [frameAt, Array.getElem?_eq_getElem hj, Option.bind_some, hf']⟩
  · intro j hj
    rw [List.mem_singleton.1 hj, size_entered]
    exact hpos
  · intro j b hb
    rcases getElem?_entered hb with ⟨hj, hb⟩ | ⟨c, rfl, -, rfl⟩
    · simp [hj, (hg.blocks b (Array.mem_of_getElem? hb)).fresh.2.2]
    · simp
  · intro j hj
    exact (hg.reachedIn_entered j).2 (List.mem_singleton.1 hj)
  · intro j hj
    exact (hg.reachedIn_entered j).1 hj ▸ .entry
  · intro j b hb
    rcases getElem?_entered hb with ⟨hj, hb⟩ | ⟨c, rfl, hc, rfl⟩
    · obtain ⟨hw, hr, -⟩ := (hg.blocks b (Array.mem_of_getElem? hb)).fresh
      simp [hw, hr]
    · obtain ⟨hw, hr, -⟩ := (hg.blocks c (Array.mem_of_getElem? hc)).fresh
      simp [hw, hr]
  · intro j b _ hj hmem
    exact absurd (hentry j hj) hmem

/-- **The invariant holds when inference starts.** -/
theorem WellBuilt.invariant (hT : T.Sound context.hierarchy) (hg : g.WellBuilt T)
    (hf : frameAt g.blocks 0 = some f) (hlocals : ∀ t ∈ locals, t.Valid T) :
    Invariant context (entered g.blocks f locals) locals.size
      ⟨entered g.blocks f locals, [0], 0⟩ T := by
  refine ⟨⟨hg.complete.toExplored, hT, fun j e he => hg.edges_entered he, ?_, ?_, ?_⟩, ?_⟩
  · intro j hj
    rw [size_entered] at hj
    obtain ⟨f', hf', hlawful⟩ := (hg.blocks _ (Array.getElem_mem hj)).frame
    have hfj : frameAt g.blocks j = some f' := by
      rw [frameAt, Array.getElem?_eq_getElem hj, Option.bind_some, hf']
    simp only [frameAt_entered hg]
    split
    · rename_i h0
      subst h0
      cases Option.some.inj (hf.symm.trans hfj)
      exact ⟨_, rfl, hlawful.locals, hlawful.stack, hlawful.constructed, rfl⟩
    · exact ⟨f', hfj, hlawful.entry_eq.symm ▸ hlawful⟩
  · intro j entry hentry
    rw [hg.entryAt_entered] at hentry
    split at hentry
    · cases hentry
      exact ⟨⟨hlocals, by simp⟩, rfl⟩
    · cases hentry
  · intro j entry hentry
    rw [hg.entryAt_entered] at hentry
    split at hentry
    · cases hentry
      exact ⟨∅, by simp, by simp, by simp⟩
    · cases hentry
  · intro j hj f' hf' hreach
    have hreached : ReachedIn (entered g.blocks f locals) j := by
      unfold ReachedIn entryAt
      rw [hf']
      exact hreach
    exact absurd (List.mem_singleton.2 ((hg.reachedIn_entered j).1 hreached)) hj

end Entered

/-! ## 3. The limit -/

theorem sum_map_eq (bs : List Block) (f : Block → Nat) :
    ∑ i ∈ Finset.range bs.length, ((bs[i]?.map f).getD 0) = (bs.map f).sum := by
  induction bs with
  | nil => rfl
  | cons b bs ih =>
    rw [List.length_cons, Finset.sum_range_succ', List.map_cons, List.sum_cons, Nat.add_comm]
    simpa using ih

/-- The limit counts what all blocks push. -/
theorem pushedBy_eq (blocks : Array Block) :
    blocks.foldl (fun n b => n + (b.frame.map fun f => f.stack.size).getD 0) 0 = pushedBy blocks := by
  obtain ⟨bs⟩ := blocks
  have hfoldl : ∀ (f : Block → Nat) (n : Nat),
      bs.foldl (fun n b => n + f b) n = n + (bs.map f).sum := by
    intro f
    induction bs with
    | nil => simp
    | cons b bs ih =>
      intro n
      rw [List.foldl_cons, ih, List.map_cons, List.sum_cons, Nat.add_assoc]
  rw [List.foldl_toArray', hfoldl _ 0, Nat.zero_add, ← sum_map_eq]
  · refine Finset.sum_congr rfl fun i _ => ?_
    unfold pushedAt frameAt
    cases h : bs[i]? <;> simp [h]
  · rfl

/-- **The limit is large enough** when inference starts. -/
theorem WellBuilt.measure_le (hr : context.hierarchy.Rooted) (hg : g.WellBuilt T) {f : Frame}
    {locals : Array SlotType} (hlocals : ∀ t ∈ locals, t.Valid T) :
    measure context (entered g.blocks f locals) locals.size ⟨entered g.blocks f locals, [0], 0⟩ T ≤
      changeLimit { g with blocks := entered g.blocks f locals } context.hierarchy locals.size +
        1 := by
  have hweight : ∀ j, weight context.hierarchy T
        (locals.size + pushedBy (entered g.blocks f locals) + 1)
        (entryAt (entered g.blocks f locals) j) ≤
      (locals.size + pushedBy (entered g.blocks f locals) + 1) *
        slotChangeLimit context.hierarchy + 1 := by
    intro j
    rw [hg.entryAt_entered]
    split
    · have hranks := ranks_le (s := ⟨locals, #[]⟩) hr ⟨hlocals, by simp⟩
      have hle : locals.size + 0 ≤ locals.size + pushedBy (entered g.blocks f locals) + 1 := by
        omega
      have := Nat.mul_le_mul_right (slotChangeLimit context.hierarchy) hle
      simp only [weight]
      simp only [List.size_toArray, List.length_nil] at hranks
      omega
    · exact Nat.le_refl _
  have hsum : potential context.hierarchy T
        (locals.size + pushedBy (entered g.blocks f locals) + 1) (entered g.blocks f locals) ≤
      (entered g.blocks f locals).size *
        ((locals.size + pushedBy (entered g.blocks f locals) + 1) *
          slotChangeLimit context.hierarchy + 1) := by
    unfold potential
    refine Nat.le_trans (Finset.sum_le_card_nsmul _ _ _ fun j _ => hweight j) ?_
    simp
  unfold measure changeLimit
  simp only [pushedBy_eq, List.length_singleton]
  omega

/-! ## 4. What inference gives -/

/-- What there is to know when inference has ended in a graph that was `g` when all edges were
known. -/
structure Inferred (context : MethodContext) (g : BlockGraph) (f : Frame) (locals : Array SlotType)
    (s : Inference) (T : TypeTable) : Prop where
  frame : frameAt g.blocks 0 = some f
  yields : Yields context.hierarchy T (Frame.methodLocals context.className context.access
    context.name context.descriptor context.maxLocals) locals
  valid : ∀ t ∈ locals, t.Valid T
  invariant : Invariant context (entered g.blocks f locals) locals.size s T
  done : s.pending = []
  absorbs : ∃ entry, entryAt s.blocks 0 = some entry ∧ entry.stack = #[] ∧
    Slots.Covered context.hierarchy T locals.toList entry.locals 0

theorem enterMethod_apply (context : MethodContext) (g : BlockGraph) (T : TypeTable) :
    enterMethod context g T =
      match Frame.methodLocals context.className context.access context.name context.descriptor
        context.maxLocals T with
      | (.ok locals, T') =>
        let f := ((g.blocks[0]?.bind Block.frame).getD .empty).enteredWith ⟨locals, #[]⟩
        ((.ok f, (g.onBlock 0 fun b => { b with frame := none }).onBlock 0
          fun b => { b with frame := some f }), T')
      | (.error e, T') => ((.error e, g.onBlock 0 fun b => { b with frame := none }), T') := by
  unfold enterMethod
  rw [bind_apply₂]
  show (onTypes _ >>= fun locals => _) (g.onBlock 0 fun b => { b with frame := none }) T = _
  rw [bind_apply₂]
  rcases h : (Frame.methodLocals context.className context.access context.name context.descriptor
    context.maxLocals T : Except Error (Array SlotType) × TypeTable) with ⟨_ | locals, T'⟩
  · simp only [onTypes, h]
  · simp only [onTypes, h]
    rfl

theorem settle_apply (context : MethodContext) (locals : Nat) (g : BlockGraph) (T : TypeTable) :
    settle context locals g T =
      let g' := g.onBlock 0 fun b => { b with isPending := true }
      match Inference.run context (g'.changeLimit context.hierarchy locals + 1)
        ⟨g'.blocks, [0], 0⟩ T with
      | (.ok s, T') => ((.ok s.greatest, { g' with blocks := s.blocks }), T')
      | (.error e, T') => ((.error e, g'), T') := by
  unfold settle
  dsimp only
  rw [bind_apply₂]
  show (onTypes (Inference.run context ((g.onBlock 0 fun b =>
      { b with isPending := true }).changeLimit context.hierarchy locals + 1)
    ⟨(g.onBlock 0 fun b => { b with isPending := true }).blocks, [0], 0⟩) >>= fun s => do
      set { (g.onBlock 0 fun b => { b with isPending := true }) with blocks := s.blocks }
      return s.greatest) (g.onBlock 0 fun b => { b with isPending := true }) T = _
  generalize (g.onBlock 0 fun b => { b with isPending := true }) = g'
  rw [bind_apply₂]
  rcases h : (Inference.run context (g'.changeLimit context.hierarchy locals + 1)
    ⟨g'.blocks, [0], 0⟩ T : Except Error Inference × TypeTable) with ⟨_ | s, T'⟩
  · simp only [onTypes, h]
  · simp only [onTypes, h]
    rfl

/-- The graph when the method has been entered. -/
theorem entered_eq (g : BlockGraph) (f : Frame) (locals : Array SlotType) :
    (((g.onBlock 0 fun b => { b with frame := none }).onBlock 0
        fun b => { b with frame := some (f.enteredWith ⟨locals, #[]⟩) }).onBlock 0
        fun b => { b with isPending := true }) =
      { g with blocks := entered g.blocks f locals } := by
  simp only [entered, onBlock, onBlocks, mk.injEq, and_self, and_true, true_and]
  apply Array.ext_getElem?
  intro j
  simp only [Array.getElem?_modify]
  split
  · cases g.blocks[j]? <;> rfl
  · rfl

/-- Following all edges, from the blocks that are known once the method has been entered. -/
theorem WellBuilt.settle (hr : context.hierarchy.Rooted) (hT : T.Sound context.hierarchy)
    (hg : g.WellBuilt T) {f : Frame} {locals : Array SlotType} (hf : frameAt g.blocks 0 = some f)
    (hvalid : ∀ t ∈ locals, t.Valid T)
    (hyields : Yields context.hierarchy T (Frame.methodLocals context.className context.access
      context.name context.descriptor context.maxLocals) locals)
    {r : Except Error Inference}
    (hrun : Inference.run context (changeLimit { g with blocks := entered g.blocks f locals }
      context.hierarchy locals.size + 1) ⟨entered g.blocks f locals, [0], 0⟩ T = (r, T')) :
    T'.Sound context.hierarchy ∧ T ≤ T' ∧ ∀ s, r = .ok s → Inferred context g f locals s T' := by
  have hinv := hg.invariant hT hf hvalid
  obtain ⟨hs, hle, hans⟩ := hinv.run hr (hg.measure_le hr hvalid) hrun
  refine ⟨hs, hle, fun s hs' => ?_⟩
  obtain ⟨hinv', hup, hdone⟩ := hans s hs'
  obtain ⟨entry, hentry, hrisen⟩ :=
    hup 0 ⟨locals, #[]⟩ (by rw [hg.entryAt_entered, if_pos rfl])
  refine ⟨hf, hyields.later hle, fun t ht => (hvalid t ht).later hle, hinv', hdone, entry, hentry,
    ?_, ?_⟩
  · exact Array.eq_empty_of_size_eq_zero hrisen.stack.size_eq
  · intro k x y hx hy
    rw [Array.getElem?_toList] at hx
    exact hrisen.locals.goes_up k x y hx (by rwa [Nat.zero_add] at hy)
      (hvalid x (Array.mem_of_getElem? hx)).ne_unset

/-- The three parts of inference: the edges to handlers, the locals on entry, and following edges. -/
theorem infer_apply (context : MethodContext) (g : BlockGraph) (T : TypeTable) :
    infer context g T =
      match BlockGraph.addAllHandlerEdges g T with
      | ((.error e, g₁), T₁) => ((.error e, g₁), T₁)
      | ((.ok _, g₁), T₁) =>
        match Frame.methodLocals context.className context.access context.name context.descriptor
          context.maxLocals T₁ with
        | (.error e, T₂) => ((.error e, g₁.onBlock 0 fun b => { b with frame := none }), T₂)
        | (.ok locals, T₂) =>
          let f := (g₁.blocks[0]?.bind Block.frame).getD .empty
          match Inference.run context (changeLimit { g₁ with blocks := entered g₁.blocks f locals }
            context.hierarchy locals.size + 1) ⟨entered g₁.blocks f locals, [0], 0⟩ T₂ with
          | (.error e, T₃) => ((.error e, { g₁ with blocks := entered g₁.blocks f locals }), T₃)
          | (.ok s, T₃) =>
            ((.ok (writtenHeight s.greatest, (f.enteredWith ⟨locals, #[]⟩).writtenLocals),
              { g₁ with blocks := s.blocks }), T₃) := by
  unfold BlockGraph.infer
  rw [bind_apply₂]
  rcases (BlockGraph.addAllHandlerEdges g T : (Except Error Unit × BlockGraph) × TypeTable)
    with ⟨⟨e | u, g₁⟩, T₁⟩
  · rfl
  · simp only
    rw [bind_apply₂, enterMethod_apply]
    rcases (Frame.methodLocals context.className context.access context.name context.descriptor
      context.maxLocals T₁ : Except Error (Array SlotType) × TypeTable) with ⟨e | locals, T₂⟩
    · rfl
    · simp only
      rw [bind_apply₂, settle_apply, entered_eq]
      generalize (g₁.blocks[0]?.bind Block.frame).getD .empty = f
      simp only [show (f.enteredWith ⟨locals, #[]⟩).entrySlots = ⟨locals, #[]⟩ from rfl]
      rcases (Inference.run context (changeLimit { g₁ with blocks := entered g₁.blocks f locals }
        context.hierarchy locals.size + 1) ⟨entered g₁.blocks f locals, [0], 0⟩ T₂ :
          Except Error Inference × TypeTable) with ⟨e | s, T₃⟩
      · rfl
      · rfl

/-- The first block of a well built graph has a frame. -/
theorem WellBuilt.frame_zero (hg : g.WellBuilt T) : ∃ f, frameAt g.blocks 0 = some f := by
  obtain ⟨f, hf, -⟩ := (hg.blocks _ (Array.getElem_mem (Nat.zero_lt_of_lt hg.last_lt))).frame
  refine ⟨f, ?_⟩
  rw [frameAt, Array.getElem?_eq_getElem (Nat.zero_lt_of_lt hg.last_lt), Option.bind_some, hf]

/-- **Inference**: it keeps the table sound, whatever its outcome; and it succeeds only with what
`Inferred` says. -/
theorem WellBuilt.infer (hr : context.hierarchy.Rooted) (hT : T.Sound context.hierarchy)
    (hg : g.WellBuilt T) {r : Except Error (UInt16 × List SlotType)}
    (hrun : infer context g T = ((r, g'), T')) :
    T'.Sound context.hierarchy ∧ T ≤ T' ∧ ∀ answer, r = .ok answer →
      ∃ g₁ T₁ f locals s, BlockGraph.addAllHandlerEdges g T = ((.ok (), g₁), T₁) ∧ g₁.WellBuilt T₁ ∧
        T₁ ≤ T' ∧ Inferred context g₁ f locals s T' ∧ g' = { g₁ with blocks := s.blocks } ∧
        answer = (writtenHeight s.greatest, (f.enteredWith ⟨locals, #[]⟩).writtenLocals) := by
  rw [infer_apply] at hrun
  rcases hedges : (BlockGraph.addAllHandlerEdges g T :
    (Except Error Unit × BlockGraph) × TypeTable) with ⟨⟨re, g₁⟩, T₁⟩
  obtain ⟨hs₁, hle₁, hg₁⟩ := hg.addAllHandlerEdges hT hedges
  rw [hedges] at hrun
  cases re with
  | error e =>
    cases hrun
    exact ⟨hs₁, hle₁, fun _ h => by cases h⟩
  | ok u =>
    obtain ⟨f, hf⟩ := hg₁.frame_zero
    rcases hlocals : (Frame.methodLocals context.className context.access context.name
      context.descriptor context.maxLocals T₁ : Except Error (Array SlotType) × TypeTable)
      with ⟨rl, T₂⟩
    obtain ⟨hs₂, hle₂, hans⟩ := Frame.tame_methodLocals context.className context.access
      context.name context.descriptor context.maxLocals T₁ hs₁ trivial rl T₂ hlocals
    simp only [hlocals] at hrun
    cases rl with
    | error e =>
      cases hrun
      exact ⟨hs₂, TypeTable.le_trans hle₁ hle₂, fun _ h => by cases h⟩
    | ok locals =>
      obtain ⟨hvalid, hyields⟩ := hans locals rfl
      simp only [show g₁.blocks[0]?.bind Block.frame = some f from hf, Option.getD_some] at hrun
      rcases hsettle : (Inference.run context (changeLimit { g₁ with
        blocks := entered g₁.blocks f locals } context.hierarchy locals.size + 1)
        ⟨entered g₁.blocks f locals, [0], 0⟩ T₂ : Except Error Inference × TypeTable) with ⟨rs, T₃⟩
      obtain ⟨hs₃, hle₃, hans₃⟩ := (hg₁.later hle₂).settle hr hs₂ hf hvalid hyields hsettle
      have hle := TypeTable.le_trans hle₁ (TypeTable.le_trans hle₂ hle₃)
      rw [hsettle] at hrun
      cases rs with
      | error e =>
        cases hrun
        exact ⟨hs₃, hle, fun _ h => by cases h⟩
      | ok s =>
        cases hrun
        refine ⟨hs₃, hle, fun answer h => ?_⟩
        cases h
        exact ⟨g₁, T₁, f, locals, s, rfl, hg₁, TypeTable.le_trans hle₂ hle₃, hans₃ s rfl, rfl, rfl⟩

/-! ## 5. The solution -/

section Solution

variable {f : Frame} {locals : Array SlotType} {s : Inference}

/-- Every block that can be reached has been reached. -/
theorem Inferred.reached (hs : Inferred context g f locals s T) {i : BlockId}
    (hi : Reaches s.blocks i) : ReachedIn s.blocks i := by
  have ho := hs.invariant.outline
  induction hi with
  | entry =>
    obtain ⟨entry, hentry, -⟩ := hs.absorbs
    exact Option.isSome_iff_exists.2 ⟨entry, hentry⟩
  | @edge i e hi he ih =>
    obtain ⟨entry, hentry⟩ := Option.isSome_iff_exists.1 ih
    obtain ⟨f', hf', hfe⟩ := Option.bind_eq_some_iff.1 hentry
    obtain ⟨out, slots, _, _, -, -, hslots, -⟩ := hs.invariant.settled i (by rw [hs.done]; simp) f'
      hf' (by rw [Frame.isReached, hfe]; rfl) e (ho.edgesAt_eq i ▸ he)
    exact Option.isSome_iff_exists.2 ⟨slots, hslots⟩

/-- Following an edge again changes nothing. -/
theorem Inferred.again (hr : context.hierarchy.Rooted) (hs : Inferred context g f locals s T)
    {i : BlockId} (hi : Reaches s.blocks i) {f' : Frame} (hf' : frameAt s.blocks i = some f')
    {e : Edge} (he : e ∈ edgesAt s.blocks i) :
    ∃ f'' T', frameAt s.blocks (targetOf s.blocks e) = some f'' ∧
      Returns (f'.mergeInto context.hierarchy context.className (Inference.caught e) f'') T
        (false, f'') T' := by
  have hreached : f'.isReached = true := by
    have := hs.reached hi
    unfold ReachedIn entryAt at this
    rwa [hf', Option.bind_some] at this
  obtain ⟨out, slots, _, _, hyields, hfits, hslots, hvalid, habs⟩ := hs.invariant.settled i
    (by rw [hs.done]; simp) f' hf' hreached e (hs.invariant.outline.edgesAt_eq i ▸ he)
  obtain ⟨f'', hf'', hentry⟩ := Option.bind_eq_some_iff.1 hslots
  obtain ⟨T', hret, -⟩ :=
    Frame.mergeInto_absorbed hr hs.invariant.sound hentry hvalid hfits hyields habs
  exact ⟨f'', T', hf'', hret⟩

/-- Merging what the method is entered with into the entry of its first block changes nothing. -/
theorem Inferred.entry (hr : context.hierarchy.Rooted) (hs : Inferred context g f locals s T) :
    ∃ slots T₁ T₂, entryAt s.blocks 0 = some slots ∧ slots.stack = #[] ∧
      slots.locals.size = locals.size ∧
      Returns (Frame.methodLocals context.className context.access context.name
        context.descriptor context.maxLocals) T locals T₁ ∧
      Returns (Slots.mergeFrom context.hierarchy slots.locals false 0 locals.toList) T₁
        (false, slots.locals) T₂ := by
  obtain ⟨slots, hslots, hstack, hcovered⟩ := hs.absorbs
  obtain ⟨hvalid, hsize⟩ := hs.invariant.valid 0 slots hslots
  obtain ⟨T₁, hret₁, hs₁, hle₁⟩ := hs.yields T hs.invariant.sound (TypeTable.le_refl T)
  obtain ⟨T₂, hret₂, -⟩ := Slots.mergeFrom_covered hr hs₁ (hvalid.later hle₁).filling_locals
    (fun x hx => (hs.valid x (Array.mem_toList_iff.1 hx)).later hle₁) false 0
    fun k x y hx hy => (hcovered k x y hx hy).later hle₁
  exact ⟨slots, T₁, T₂, hslots, hstack, hsize, hret₁, hret₂⟩

end Solution

/-- A table of types that the analysis of any number of methods leaves behind, all with one
hierarchy. -/
inductive Analysed (h : Hierarchy) : TypeTable → Prop where
  | empty : Analysed h .empty
  | build {T : TypeTable} (es : List GraphEvent) : Analysed h T →
      Analysed h (build es (start .frames) T).2
  | infer {T : TypeTable} (context : MethodContext) (es : List GraphEvent) : Analysed h T →
      context.hierarchy = h →
      Analysed h (infer context (build es (start .frames) T).1 (build es (start .frames) T).2).2

theorem Analysed.sound (hr : h.Rooted) (hT : Analysed h T) : T.Sound h := by
  induction hT with
  | empty => exact TypeTable.sound_empty h
  | build es _ ih => exact (build_wellBuilt ih wellBuilt_start es).1
  | @infer T context es _ hcontext ih =>
    subst hcontext
    obtain ⟨hs, -, hg⟩ := build_wellBuilt ih wellBuilt_start es
    rcases hrun : BlockGraph.infer context (BlockGraph.build es (start .frames) T).1
      (BlockGraph.build es (start .frames) T).2 with ⟨⟨r, g⟩, T'⟩
    exact (hg.infer hr hs hrun).1

/-- **The frames that are inferred solve the data-flow equations**: every block that can be reached
has been reached, following any edge from it again changes nothing, and neither does entering the
method again. -/
theorem infer_solution {T₀ : TypeTable} (hr : context.hierarchy.Rooted)
    (hT : Analysed context.hierarchy T₀) (es : List GraphEvent)
    {answer : UInt16 × List SlotType}
    (hrun : infer context (build es (start .frames) T₀).1 (build es (start .frames) T₀).2 =
      ((.ok answer, g), T)) :
    (∀ i, Reaches g.blocks i → ReachedIn g.blocks i) ∧
    (∀ i f e, Reaches g.blocks i → frameAt g.blocks i = some f → e ∈ edgesAt g.blocks i →
      ∃ f' T', frameAt g.blocks (g.first e.successor) = some f' ∧
        Returns (f.mergeInto context.hierarchy context.className (Inference.caught e) f') T
          (false, f') T') ∧
    ∃ entry locals T₁ T₂, entryAt g.blocks 0 = some entry ∧ entry.stack = #[] ∧
      entry.locals.size = locals.size ∧
      Returns (Frame.methodLocals context.className context.access context.name
        context.descriptor context.maxLocals) T locals T₁ ∧
      Returns (Slots.mergeFrom context.hierarchy entry.locals false 0 locals.toList) T₁
        (false, entry.locals) T₂ := by
  obtain ⟨hs, -, hg⟩ := build_wellBuilt (hT.sound hr) wellBuilt_start es
  obtain ⟨-, -, hans⟩ := hg.infer hr hs hrun
  obtain ⟨g₁, T₁, f, locals, s, -, -, -, hinferred, rfl, -⟩ := hans answer rfl
  refine ⟨fun i hi => hinferred.reached hi,
    fun i f e hi hf he => hinferred.again hr hi hf he, ?_⟩
  obtain ⟨slots, T₁, T₂, hentry⟩ := hinferred.entry hr
  exact ⟨slots, locals, T₁, T₂, hentry⟩

/-- A static method without parameters. -/
def splitContext : MethodContext := ⟨.empty, "A", 8, "f", "()V", 1⟩

/-- A number that is left on the stack for the next block, which stores it. -/
def splitEvents : List GraphEvent :=
  [.instruction 0 1 false (.simple Opcode.iconst0), .split 1,
    .instruction 1 2 false (.var Opcode.istore 0), .instruction 2 3 false (.simple Opcode.return_)]

theorem methodLocals_split :
    Frame.methodLocals "A" 8 "f" "()V" 1 .empty = (.ok #[.top], .empty) := by
  have htype : Descriptor.methodType "()V" = .ok ⟨[], none⟩ := by decide +kernel
  unfold Frame.methodLocals
  rw [htype]
  rfl

set_option maxRecDepth 20000 in
theorem infer_split : ∃ answer g,
    infer splitContext (build splitEvents (start .frames) .empty).1
      (build splitEvents (start .frames) .empty).2 = ((.ok answer, g), .empty) ∧
      edgesAt g.blocks 0 = [⟨.normal, 1⟩] ∧ g.first 1 = 1 := by
  have hedges : addAllHandlerEdges (build splitEvents (start .frames) .empty).1
      (build splitEvents (start .frames) .empty).2 =
      ((.ok (), (build splitEvents (start .frames) .empty).1), .empty) := rfl
  have hlocals := methodLocals_split
  unfold infer
  rw [bind_apply₂, hedges]
  simp only
  rw [bind_apply₂, enterMethod_apply]
  simp only [splitContext, hlocals]
  exact ⟨_, _, rfl, rfl, rfl⟩

/-- The solution for two blocks, of which the second one can be reached. -/
theorem infer_solution_split : ∃ answer g,
    infer splitContext (build splitEvents (start .frames) .empty).1
      (build splitEvents (start .frames) .empty).2 = ((.ok answer, g), .empty) ∧
      ReachedIn g.blocks 1 := by
  obtain ⟨answer, g, hrun, hedges, hfirst⟩ := infer_split
  obtain ⟨hreached, -, -⟩ :=
    infer_solution Hierarchy.rooted_empty Analysed.empty splitEvents hrun
  refine ⟨answer, g, hrun, hreached 1 ?_⟩
  have hstep : Reaches g.blocks (g.first 1) :=
    .edge .entry (hedges ▸ List.mem_singleton.2 rfl : (⟨.normal, 1⟩ : Edge) ∈ edgesAt g.blocks 0)
  rwa [hfirst] at hstep

end BlockGraph

end ClassFile
