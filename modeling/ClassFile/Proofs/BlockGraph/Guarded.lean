/-
# What handlers are entered with

Each block that a handler covers has an edge to the handler in the end (`Gains.guards`).

Along such an edge, the locals at both ends of a block are merged into the entry of the handler, and what
has been caught is merged into its stack.  So that entry takes in the locals in the middle of the block
as well (`Inferred.takes_in`).  If nothing else leads to the handler, its stack has one slot
(`WellBuilt.infer_caught`).
-/
import ClassFile.Proofs.BlockGraph.Caught

namespace ClassFile.BlockGraph

variable {h : Hierarchy} {context : MethodContext} {g g' g'' : BlockGraph} {T T' : TypeTable}
  {chain : List BlockId} {free : BlockId → Prop} {i j k : BlockId} {l : Label} {a b : Nat}

/-! ## 1. Edges to handlers -/

/-- All blocks from which a handler is entered have an edge to it.  The handler is that of the graph
`g`, and the edges are those of `g'`. -/
def Guards (g g' : BlockGraph) (T : TypeTable) (r : HandlerRange) : Prop :=
  ∀ i < g.blocks.size, g.Covers r i → ∃ t,
    T.entries[t]? = some (.initialized (r.caught.getD "java/lang/Throwable")) ∧
      ⟨.caught (.scalar (.object t)), g.firstOf r.handler⟩ ∈ edgesAt g'.blocks i

theorem Gains.guards {rs : List HandlerRange} (hrs : g.Gains g' T rs) {r : HandlerRange}
    (hr : r ∈ rs) : Guards g g' T r := by
  intro i _ hi
  obtain ⟨es, hedges, hes⟩ := hrs i
  obtain ⟨_, hmem, t, ht, rfl⟩ :=
    exists_of_forall₂ hes.flip (List.mem_filter.2 ⟨hr, decide_eq_true hi⟩)
  exact ⟨t, ht, hedges ▸ List.mem_append_right _ hmem⟩

/-! ## 2. Types on entry of a handler -/

variable {f f' F : Frame} {locals : Array SlotType} {s s' : Inference} {e : Edge} {t : SlotType}

/-- Entering a method changes an entry and a flag. -/
theorem sameOutline_entered {blocks : Array Block} (hf : frameAt blocks 0 = some f)
    (locals : Array SlotType) : SameOutline blocks (entered blocks f locals) := by
  refine SameOutline.trans (sameOutline_modify fun b hb => ?_) (sameOutline_modify fun _ _ => rfl)
  rw [frameAt, hb, Option.bind_some] at hf
  rw [Block.outline, Block.outline, hf]
  rfl

/-- Inferring types changes only entries and flags. -/
theorem Inferred.outline (hs : Inferred context g f locals s T) : SameOutline g.blocks s.blocks :=
  (sameOutline_entered hs.frame locals).trans hs.invariant.outline

/-- Nothing but its entry changes in a frame. -/
theorem SameOutline.frameAt {blocks blocks' : Array Block} (ho : SameOutline blocks blocks')
    (hf : BlockGraph.frameAt blocks i = some f) :
    ∃ f', BlockGraph.frameAt blocks' i = some f' ∧ f'.effect = f.effect := by
  have hread := ho.read (f := fun b => b.frame.map Frame.effect)
    (fun b => by cases hb : b.frame <;> simp [Block.outline, Frame.effect, hb]) i
  obtain ⟨b, hb, hbf⟩ := Option.bind_eq_some_iff.1 hf
  rw [hb, Option.map_some, hbf] at hread
  obtain ⟨b', hb', hbf'⟩ := Option.map_eq_some_iff.1 hread
  obtain ⟨f', hf', heffect⟩ := Option.map_eq_some_iff.1 hbf'
  exact ⟨f', by rw [BlockGraph.frameAt, hb', Option.bind_some, hf'], heffect⟩

/-- **The entry of a handler takes in the locals in the middle of a block**, in which only such locals
have been set as hold an `int` all the time, and what has been caught. -/
theorem Inferred.takes_in (hr : context.hierarchy.Rooted) (hs : Inferred context g f locals s T)
    (hi : Reaches s.blocks i) (hf : frameAt s.blocks i = some f') (he : e ∈ edgesAt s.blocks i)
    (ht : Inference.caught e = some t) (hF : F.Entered T) (hentry : F.entry = f'.entry)
    (hints : F.SetsInts F.entrySlots.locals) (hprolongs : F.Prolongs f') :
    ∃ slots, entryAt s.blocks (targetOf s.blocks e) = some slots ∧
      (∃ locals T₁ T₂, Returns (F.exitLocals context.className) T locals T₁ ∧
        Returns (Slots.mergeFrom context.hierarchy slots.locals false 0 locals) T₁
          (false, slots.locals) T₂) ∧
      ∀ T', T'.Sound context.hierarchy → T ≤ T' → ∃ T₁,
        Returns (Slots.mergeFrom context.hierarchy slots.stack false 0 [t]) T' (false, slots.stack)
          T₁ := by
  have hreached := hs.reached hi
  have hentered := (hs.invariant.toBase.source hf hreached).entered
  have hisReached : f'.isReached = true := by
    unfold ReachedIn entryAt at hreached
    rwa [hf, Option.bind_some] at hreached
  obtain ⟨out, slots, _, _, hyields, hfits, hslots, hvalid, habs⟩ := hs.invariant.settled i
    (by rw [hs.done]; exact List.not_mem_nil) f' hf hisReached e
    (hs.invariant.outline.edgesAt_eq i ▸ he)
  -- what leaves the block is what its locals are at both ends, and what has been caught
  obtain ⟨T₁, hout, -⟩ := hyields T hs.invariant.sound (TypeTable.le_refl T)
  obtain ⟨exit, T₂, hexit, hout⟩ := returns_bind.1 hout
  rw [ht] at hout
  obtain ⟨rfl, -⟩ := returns_pure.1 hout
  obtain ⟨ends, T', hret, hsound, hle, hends, hcovered⟩ :=
    Frame.covered_midway hs.invariant.sound hF hentered hentry hints hprolongs hexit
      (hfits.valid_locals exit List.mem_cons_self) (habs.locals exit List.mem_cons_self)
      (habs.locals _ (List.mem_cons_of_mem _ List.mem_cons_self))
  obtain ⟨T₃, hlocals, -⟩ := Slots.mergeFrom_covered hr hsound (hvalid.later hle).filling_locals hends
    false 0 hcovered
  refine ⟨slots, hslots, ⟨ends, T', T₃, hret, hlocals⟩, fun T'' hsound' hle' => ?_⟩
  obtain ⟨T₄, hstack, -⟩ := Slots.mergeFrom_covered hr hsound' (hvalid.later hle').filling_stack
    (fun x hx => (hfits.valid_stack x hx).later hle') false 0
    fun k x y hx hy => (habs.stack k x y hx hy).later hle'
  exact ⟨T₄, hstack⟩

theorem SameOutline.firstOf_eq {blocks : Array Block} (ho : SameOutline g.blocks blocks) (l : Label) :
    BlockGraph.firstOf { g with blocks := blocks } l = g.firstOf l := by
  show follow blocks (blocks.size + 1) _ = follow g.blocks (g.blocks.size + 1) _
  rw [ho.size_eq, ho.follow_eq]

/-- What a block does can be looked at from the slots on its entry. -/
theorem Inferred.entered (hs : Inferred context g f locals s T) {entry : Slots}
    (hentry : entryAt s.blocks k = some entry) (hF : F.Lawful T none) :
    (F.enteredWith entry).Entered T :=
  ⟨⟨hF.locals, hF.stack, hF.constructed, rfl⟩, (hs.invariant.valid k entry hentry).1⟩

theorem WellBuilt.infer_entered (hr : context.hierarchy.Rooted) (hT : T.Sound context.hierarchy)
    (hg : g.WellBuilt T) {answer : UInt16 × List SlotType}
    (hrun : BlockGraph.infer context g T = ((.ok answer, g'), T')) {entry : Slots}
    (hentry : entryAt g'.blocks k = some entry) (hF : F.Lawful T none) :
    T'.Sound context.hierarchy ∧ (F.enteredWith entry).Entered T' := by
  obtain ⟨hsound, hle, hans⟩ := hg.infer hr hT hrun
  obtain ⟨g₁, T₁, f, locals, s, -, -, -, hs, rfl, -⟩ := hans answer rfl
  exact ⟨hsound, hs.entered hentry (hF.later hle)⟩

/-- **What a handler is entered with takes in what is in the middle of each block that it covers.**  The
frame `F` is that of the block at some time: only such locals have been set by then as hold an `int` all
the time. -/
theorem WellBuilt.infer_takes_in {placed named : Label → Prop} {p : Nat}
    (hr : context.hierarchy.Rooted) (hT : T.Sound context.hierarchy) (hg : g.WellBuilt T)
    (hc : Charted placed named p g) {answer : UInt16 × List SlotType}
    (hrun : BlockGraph.infer context g T = ((.ok answer, g'), T')) {r : HandlerRange}
    (hmem : r ∈ g.handlers) (hk : g.Covers r k) (hreach : Reaches g'.blocks k)
    (hf : frameAt g.blocks k = some f) (hF : F.Lawful T none) (hprolongs : F.Prolongs f)
    (hints : ∀ entry, entryAt g'.blocks k = some entry → F.SetsInts entry.locals) :
    ∃ entry slots, entryAt g'.blocks k = some entry ∧
      entryAt g'.blocks (g'.firstOf r.handler) = some slots ∧
      (∃ locals T₁ T₂, Returns ((F.enteredWith entry).exitLocals context.className) T' locals T₁ ∧
        Returns (Slots.mergeFrom context.hierarchy slots.locals false 0 locals) T₁
          (false, slots.locals) T₂) ∧
      ∃ t T₁ T₂, Returns (SlotType.object (r.caught.getD "java/lang/Throwable")) T' t T₁ ∧
        Returns (Slots.mergeFrom context.hierarchy slots.stack false 0 [t]) T₁
          (false, slots.stack) T₂ := by
  obtain ⟨hsound, hle, hans⟩ := hg.infer hr hT hrun
  obtain ⟨g₁, T₁, _, locals, s, hedges, hg₁, hle₁, hs, rfl, -⟩ := hans answer rfl
  obtain ⟨-, hjoined, hgains⟩ := hc.addAllHandlerEdges_exact hT hg hedges
  have hc₁ := hc.addAllHandlerEdges hT hg hedges
  have hlt : k < g.blocks.size := by
    obtain ⟨b, hb, -⟩ := Option.bind_eq_some_iff.1 hf
    exact (Array.getElem?_eq_some_iff.1 hb).1
  -- the edge to the handler
  obtain ⟨t, ht, he⟩ := hgains.guards (Array.mem_toList_iff.2 hmem) k hlt hk
  rw [← hs.outline.edgesAt_eq] at he
  have htarget : targetOf s.blocks ⟨.caught (.scalar (.object t)), g.firstOf r.handler⟩ =
      BlockGraph.firstOf { g₁ with blocks := s.blocks } r.handler := by
    rw [hs.outline.targetOf_eq, hs.outline.firstOf_eq]
    show g₁.first (g.firstOf r.handler) = g₁.firstOf r.handler
    rw [← hjoined.lines.firstOf_eq, hc₁.first_firstOf hg₁]
  -- the frame of the block, and the one in the middle of it
  obtain ⟨f', hf', heffect⟩ := hs.outline.frameAt ((hjoined.frames k).trans hf)
  obtain ⟨entry, hentry⟩ := Option.isSome_iff_exists.1 (hs.reached hreach)
  have hf'entry : f'.entry = some entry := by
    rwa [entryAt, hf', Option.bind_some] at hentry
  have hconstructed : f'.effect.constructed = f.effect.constructed :=
    congrArg Frame.constructed heffect
  have hprolongs' : (F.enteredWith entry).Prolongs f' := by
    show F.constructed.toList <+: f'.effect.constructed.toList
    rw [hconstructed]
    exact hprolongs
  obtain ⟨slots, hslots, hlocals, hstack⟩ := hs.takes_in hr hreach hf' he rfl
    (hs.entered hentry (hF.later hle)) hf'entry.symm (hints entry hentry) hprolongs'
  rw [htarget] at hslots
  refine ⟨entry, slots, hentry, hslots, hlocals, ?_⟩
  obtain ⟨i, T₂, hobject, hsound₂, hle₂, hi⟩ :=
    SlotType.returns_object hsound (r.caught.getD "java/lang/Throwable")
  obtain rfl : i = t := hsound₂.index_unique hi (hle₂ t _ (hle₁ t _ ht))
  obtain ⟨T₃, hmerge⟩ := hstack T₂ hsound₂ hle₂
  exact ⟨_, T₂, T₃, hobject, hmerge⟩

/-! ## 3. The stack of a handler -/

/-- Whatever gets to a block has been thrown. -/
def OnlyCaught (blocks : Array Block) (j : BlockId) : Prop :=
  j ≠ 0 ∧ ∀ i, Reaches blocks i → ∀ e ∈ edgesAt blocks i, targetOf blocks e = j →
    ∃ t, Inference.caught e = some t

/-- A block has one slot on the stack, if it has been reached. -/
def StacksOne (blocks : Array Block) (j : BlockId) : Prop :=
  ∀ entry, entryAt blocks j = some entry → entry.stack.size = 1

variable {start : Array Block}

/-- **What visiting a block and following any edge keep, inference keeps.**  While the edges of a block are
followed, `Q` is known of its frame. -/
theorem Complete.run_keeps {P : Inference → Prop} {Q : BlockId → Frame → Prop} {limit : Nat}
    (hvisit : ∀ blocks i pending greatest f, Complete start ⟨blocks, i :: pending, greatest⟩ →
      P ⟨blocks, i :: pending, greatest⟩ → frameAt blocks i = some f → Q i f ∧
      P ⟨blocks.modify i markVisited, pending,
        max greatest (Int32.ofNat (f.entrySlots.stack.size + f.peak)).toNatClampNeg⟩)
    (hfollow : ∀ i f e (s s' : Inference) T T', Explored start s → Reaches start i →
      e ∈ edgesAt start i → Q i f → P s →
      Returns (Inference.follow context f e s) T s' T' → P s') :
    ∀ {s : Inference} {T : TypeTable}, Complete start s → P s →
      Returns (Inference.run context limit s) T s' T' → P s' := by
  have hall : ∀ (i : BlockId) (f : Frame) (edges : List Edge) (s s' : Inference) (T T' : TypeTable),
      Explored start s → Reaches start i → (∀ e ∈ edges, e ∈ edgesAt start i) → Q i f → P s →
      Returns (edges.foldlM (fun s e => Inference.follow context f e s) s) T s' T' → P s' := by
    intro i f edges
    induction edges with
    | nil =>
      intro s s' T T' _ _ _ _ hP hrun
      obtain ⟨rfl, -⟩ := returns_pure.1 hrun
      exact hP
    | cons e edges ih =>
      intro s s' T T' hx hi hedges hQ hP hrun
      rw [List.foldlM_cons] at hrun
      obtain ⟨s₁, T₁, hone, hrest⟩ := returns_bind.1 hrun
      have he := hedges e List.mem_cons_self
      obtain ⟨hx₁, -⟩ := hx.follow (hx.successor_lt i e he) (.edge hi he) hone
      exact ih s₁ s' T₁ T' hx₁ hi (fun e' he' => hedges e' (List.mem_cons_of_mem _ he')) hQ
        (hfollow i f e s s₁ T T₁ hx hi he hQ hP hone) hrest
  induction limit with
  | zero =>
    intro s T _ hP hrun
    obtain ⟨rfl, -⟩ := returns_pure.1 hrun
    exact hP
  | succ limit ih =>
    rintro ⟨blocks, pending, greatest⟩ T hc hP hrun
    cases pending with
    | nil =>
      obtain ⟨rfl, -⟩ := returns_pure.1 hrun
      exact hP
    | cons i pending =>
      obtain ⟨s₁, T₁, hone, hrest⟩ := returns_bind.1 hrun
      refine ih (hc.visit hone) ?_ hrest
      have hi : ReachedIn blocks i := hc.pending_reached i List.mem_cons_self
      obtain ⟨f, hf⟩ := hc.framed i (hc.outline.size_eq ▸ hi.lt)
      obtain ⟨b, hb, hbf⟩ := Option.bind_eq_some_iff.1 hf
      rw [visit_eq hb hbf] at hone
      have hedges : edgesAt start i = b.edges.toList := by
        rw [← hc.outline.edgesAt_eq, edgesAt, hb]
        rfl
      obtain ⟨hQ, hP'⟩ := hvisit blocks i pending greatest f hc hP hf
      exact hall i f _ _ s₁ T T₁ (hc.toExplored.markVisited _) (hc.reaches i hi)
        (fun e he => hedges ▸ he) hQ hP' hone

/-- **Following an edge** puts just what has been caught on the stack of a handler. -/
theorem StacksOne.follow (hj : OnlyCaught start j) (hx : Explored start s) (hi : Reaches start i)
    (he : e ∈ edgesAt start i) (hs : StacksOne s.blocks j)
    (hrun : Returns (Inference.follow context f e s) T s' T') : StacksOne s'.blocks j := by
  obtain ⟨b, g, hlt, hb, hbg⟩ := hx.target (hx.successor_lt i e he)
  have htarget : targetOf s.blocks e = targetOf start e := hx.outline.targetOf_eq e
  obtain ⟨rm, hm, hs'⟩ := follow_cases (htarget ▸ hb) hbg hrun
  rcases rm with err | ⟨changed, g'⟩
  · exact nomatch hs'
  obtain ⟨slots, rfl, hfirst⟩ := Frame.mergeInto_enters hm
  have hl : Lands start s (targetOf start e) b g changed slots :=
    ⟨hx, hlt, hb, hbg, .edge hi he, hfirst⟩
  cases Except.ok.inj hs'
  rw [htarget]
  intro entry hentry
  rw [hl.entryAt_land] at hentry
  split at hentry
  · rename_i htj
    obtain rfl := Option.some.inj hentry
    obtain ⟨t, ht⟩ := hj.2 i hi e he htj
    rw [ht] at hm
    exact Frame.mergeInto_caught hm fun old hold => hs old (by rw [← htj, hl.entryAt_eq, hold])
  · exact hs entry hentry

/-- **A handler that is entered in no other way has one slot on the stack.** -/
theorem WellBuilt.infer_caught (hT : T.Sound context.hierarchy) (hg : g.WellBuilt T)
    {answer : UInt16 × List SlotType} (hrun : BlockGraph.infer context g T = ((.ok answer, g'), T'))
    (hj : OnlyCaught g'.blocks j) : StacksOne g'.blocks j := by
  obtain ⟨g₁, T₁, f, locals, T₂, limit, s, hedges, -, hlocals, hsettle, rfl, -⟩ := infer_parts hrun
  obtain ⟨hs₁, -, hg₁⟩ := hg.addAllHandlerEdges hT hedges
  obtain ⟨-, hle₂, -⟩ := Frame.tame_methodLocals context.className context.access
    context.name context.descriptor context.maxLocals T₁ hs₁ trivial _ T₂ hlocals
  have hcomplete : Complete (entered g₁.blocks f locals) _ := (hg₁.later hle₂).complete
  have ho := (hcomplete.run hsettle).outline
  have hj' : OnlyCaught (entered g₁.blocks f locals) j := ⟨hj.1, fun i hi e he htarget =>
    hj.2 i (ho.reaches hi) e (ho.edgesAt_eq i ▸ he) ((ho.targetOf_eq e).trans htarget)⟩
  refine hcomplete.run_keeps (P := fun s => StacksOne s.blocks j) (Q := fun _ _ => True)
    (fun blocks i pending greatest f _ hP _ => ⟨trivial, ?_⟩)
    (fun i f e s s' T T' hx hi he _ hP hrun => hP.follow hj' hx hi he hrun) ?_ hsettle
  · unfold StacksOne
    simp only [entryAt_markVisited]
    exact hP
  · intro entry hentry
    rw [hg₁.entryAt_entered, if_neg (Ne.symm hj.1)] at hentry
    exact nomatch hentry

end ClassFile.BlockGraph
