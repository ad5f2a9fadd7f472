/-
# Inference ends with a solution

Inference follows blocks until none is pending.  It changes the entries of blocks and a few flags,
and nothing else (`SameOutline`).  Two facts hold throughout.

* What leaves a block that has been reached and is not pending is absorbed along each of its edges
  (`Settled`).  So when nothing is pending, following any edge again changes nothing.
* Whenever a block becomes pending, its entry has changed, and each change takes away from a sum over
  all blocks (`potential`): the ranks of the slots of a block that has been reached, and more than
  that for one that has not.  The height of the stack on entry, which the ranks depend on, is that of
  some path without repetitions (`Base.height`).

So inference is never cut short by its limit (`run_ends`).
-/
import ClassFile.Proofs.BlockGraph.Explore
import Mathlib.Algebra.BigOperators.Fin
import Mathlib.Algebra.Order.BigOperators.Group.Finset

namespace ClassFile

namespace BlockGraph

/-! ## 1. The sum that goes down -/

/-- The slots that a block puts on the stack. -/
def pushedAt (blocks : Array Block) (i : BlockId) : Nat :=
  ((frameAt blocks i).map fun f => f.stack.size).getD 0

/-- The slots that all blocks put on the stack. -/
def pushedBy (blocks : Array Block) : Nat := ∑ i ∈ Finset.range blocks.size, pushedAt blocks i

/-- The changes that are left to the entry of a block, at most; reaching it counts as one. -/
noncomputable def weight (h : Hierarchy) (T : TypeTable) (full : Nat) (entry : Option Slots) : Nat :=
  match entry with
  | none => full * slotChangeLimit h + 1
  | some s => s.ranks h T

/-- The changes that are left to all entries, at most. -/
noncomputable def potential (h : Hierarchy) (T : TypeTable) (full : Nat) (blocks : Array Block) : Nat :=
  ∑ i ∈ Finset.range blocks.size, weight h T full (entryAt blocks i)

theorem SlotType.Valid.rank_le {h : Hierarchy} {T : TypeTable} {x : SlotType} (hr : h.Rooted)
    (hx : x.Valid T) : x.rank h T ≤ slotChangeLimit h :=
  Nat.le_trans (Nat.le_of_lt (hx.rank_lt_unset hr)) SlotType.rank_unset_le

theorem ranks_le {h : Hierarchy} {T : TypeTable} {s : Slots} (hr : h.Rooted) (hs : s.AllValid T) :
    s.ranks h T ≤ (s.locals.size + s.stack.size) * slotChangeLimit h := by
  rw [Nat.add_mul]
  exact Nat.add_le_add
    (Slots.rank_le fun x hx => SlotType.Valid.rank_le hr (hs.locals x hx))
    (Slots.rank_le fun x hx => SlotType.Valid.rank_le hr (hs.stack x hx))

/-- One entry has changed, and the others have not. -/
theorem potential_lt {h : Hierarchy} {T T' : TypeTable} {full : Nat} {blocks blocks' : Array Block}
    {i : BlockId} (hsize : blocks'.size = blocks.size) (hi : i < blocks.size)
    (hlt : weight h T' full (entryAt blocks' i) < weight h T full (entryAt blocks i))
    (hle : ∀ j, j ≠ i → weight h T' full (entryAt blocks' j) ≤ weight h T full (entryAt blocks j)) :
    potential h T' full blocks' < potential h T full blocks := by
  unfold potential
  rw [hsize]
  refine Finset.sum_lt_sum (fun j _ => ?_) ⟨i, Finset.mem_range.2 hi, hlt⟩
  by_cases hj : j = i
  · exact hj ▸ Nat.le_of_lt hlt
  · exact hle j hj

theorem potential_le {h : Hierarchy} {T T' : TypeTable} {full : Nat} {blocks blocks' : Array Block}
    (hsize : blocks'.size = blocks.size)
    (hle : ∀ j, weight h T' full (entryAt blocks' j) ≤ weight h T full (entryAt blocks j)) :
    potential h T' full blocks' ≤ potential h T full blocks := by
  unfold potential
  rw [hsize]
  exact Finset.sum_le_sum fun j _ => hle j

/-! ## 2. The invariant -/

/-- **What leaves a block with this frame along an edge is absorbed.** -/
def Settled (context : MethodContext) (T : TypeTable) (blocks : Array Block) (f : Frame)
    (e : Edge) : Prop :=
  ∃ out s locals height, Yields context.hierarchy T
      (f.outflow context.className (Inference.caught e)) out ∧ out.Fits T locals height ∧
    entryAt blocks (targetOf blocks e) = some s ∧ s.AllValid T ∧
      s.Absorbs context.hierarchy T out

/-- What holds of the types as well, for a method with so many locals. -/
structure Base (context : MethodContext) (start : Array Block) (locals : Nat) (s : Inference)
    (T : TypeTable) : Prop extends Explored start s where
  sound : T.Sound context.hierarchy
  edges : ∀ i, ∀ e ∈ edgesAt start i, e.InRange T start.size
  frame : ∀ i < start.size, ∃ f, frameAt s.blocks i = some f ∧ f.Lawful T f.entry
  valid : ∀ i entry, entryAt s.blocks i = some entry →
    entry.AllValid T ∧ entry.locals.size = locals
  /-- The stack on entry of a block is no higher than some other blocks can make it. -/
  height : ∀ i entry, entryAt s.blocks i = some entry → ∃ P : Finset BlockId, i ∉ P ∧
    (∀ j ∈ P, ReachedIn s.blocks j) ∧ entry.stack.size ≤ 1 + ∑ j ∈ P, pushedAt start j

/-! ## 3. Following an edge -/

/-- Entries have gone up, and what was reached before is still reached. -/
def Rising (h : Hierarchy) (blocks : Array Block) (T : TypeTable) (blocks' : Array Block)
    (T' : TypeTable) : Prop :=
  ∀ i old, entryAt blocks i = some old → ∃ new, entryAt blocks' i = some new ∧ old.Up h T T' new

/-- What happens to blocks and to what is pending while a block is visited. -/
structure Advance (context : MethodContext) (full : Nat) (s : Inference) (T : TypeTable)
    (s' : Inference) (T' : TypeTable) : Prop extends Spreads s s' where
  grown : T ≤ T'
  up : Rising context.hierarchy s.blocks T s'.blocks T'
  measure : s'.pending.length + potential context.hierarchy T' full s'.blocks ≤
    s.pending.length + potential context.hierarchy T full s.blocks

variable {context : MethodContext} {start : Array Block} {locals : Nat} {s s' : Inference}
  {T T' : TypeTable} {f : Frame} {e : Edge}

/-- What is settled stays so. -/
theorem Settled.advance (hr : context.hierarchy.Rooted) {full : Nat}
    (hs : Settled context T s.blocks f e) (ho : SameOutline s.blocks s'.blocks)
    (ha : Advance context full s T s' T') : Settled context T' s'.blocks f e := by
  obtain ⟨out, slots, locals, height, hyields, hfits, hentry, hvalid, habs⟩ := hs
  obtain ⟨new, hnew, hup⟩ := ha.up _ _ hentry
  refine ⟨out, new, locals, height, hyields.later ha.grown, hfits.later ha.grown,
    by rw [ho.targetOf_eq]; exact hnew, ⟨hup.locals.valid hvalid.locals, hup.stack.valid hvalid.stack⟩,
    habs.up hr hup hfits⟩

theorem Base.weight_later (hb : Base context start locals s T) (hle : T ≤ T') {full : Nat}
    (i : BlockId) : weight context.hierarchy T' full (entryAt s.blocks i) =
      weight context.hierarchy T full (entryAt s.blocks i) := by
  cases hi : entryAt s.blocks i with
  | none => rfl
  | some entry =>
    obtain ⟨hv, -⟩ := hb.valid i entry hi
    show Slots.rank _ _ _ + Slots.rank _ _ _ = Slots.rank _ _ _ + Slots.rank _ _ _
    rw [hv.filling_locals.rank_later hle, hv.filling_stack.rank_later hle]

/-- The slots that some blocks put on the stack are among those of all blocks. -/
theorem sum_pushed_le {P : Finset BlockId} (hP : ∀ j ∈ P, j < start.size) :
    ∑ j ∈ P, pushedAt start j ≤ pushedBy start :=
  Finset.sum_le_sum_of_subset fun j hj => Finset.mem_range.2 (hP j hj)

/-- An edge that has been followed from a block with the frame `f` to block `i`. -/
structure Along (context : MethodContext) (start : Array Block) (locals : Nat) (s : Inference)
    (T T' : TypeTable) (f : Frame) (i : BlockId) (b : Block) (g : Frame) (out : Outflow)
    (changed : Bool) (slots : Slots) : Prop extends Lands start s i b g changed slots where
  base : Base context start locals s T
  sound : T'.Sound context.hierarchy
  grown : T ≤ T'
  locals_eq : f.entrySlots.locals.size = locals
  low : ∃ P : Finset BlockId, (∀ j ∈ P, ReachedIn s.blocks j) ∧
    f.entrySlots.stack.size + f.stack.size ≤ 1 + ∑ j ∈ P, pushedAt start j
  followed : Frame.Followed context.hierarchy T T' f g out changed slots

namespace Along

variable {i : BlockId} {b : Block} {g : Frame} {out : Outflow} {changed : Bool} {slots : Slots}

theorem up (ha : Along context start locals s T T' f i b g out changed slots) :
    Rising context.hierarchy s.blocks T
      (land s i b changed (g.enteredWith slots)).blocks T' := by
  intro j old hold
  rw [ha.entryAt_land]
  by_cases hij : i = j
  · subst hij
    rw [if_pos rfl]
    rw [ha.entryAt_eq] at hold
    exact ⟨slots, rfl, (ha.followed.later old hold).1⟩
  · rw [if_neg hij]
    obtain ⟨hv, -⟩ := ha.base.valid j old hold
    exact ⟨old, hold, .same hv.filling_locals ha.sound ha.grown,
      .same hv.filling_stack ha.sound ha.grown⟩

/-- An entry that changes takes away from the potential, whether it is the first one or not. -/
theorem weight_lt (hr : context.hierarchy.Rooted)
    (ha : Along context start locals s T T' f i b g out true slots) :
    weight context.hierarchy T' (locals + pushedBy start + 1) (some slots) <
      weight context.hierarchy T (locals + pushedBy start + 1) g.entry := by
  cases hg : g.entry with
  | some old => exact (ha.followed.later old hg).2.2 rfl
  | none =>
    obtain ⟨-, hheight⟩ := ha.followed.first hg
    obtain ⟨P, hP, hlow⟩ := ha.low
    have hsum : ∑ j ∈ P, pushedAt start j ≤ pushedBy start := sum_pushed_le fun j hj =>
      ha.base.outline.size_eq ▸ (hP j hj).lt
    have hranks := ranks_le hr ha.followed.valid
    rw [ha.followed.locals_size, ha.locals_eq] at hranks
    have hslots : locals + slots.stack.size ≤ locals + pushedBy start + 1 := by omega
    have := Nat.mul_le_mul_right (slotChangeLimit context.hierarchy) hslots
    show slots.ranks context.hierarchy T' < _ * _ + 1
    omega

theorem measure (hr : context.hierarchy.Rooted)
    (ha : Along context start locals s T T' f i b g out changed slots) :
    (land s i b changed (g.enteredWith slots)).pending.length +
        potential context.hierarchy T' (locals + pushedBy start + 1)
          (land s i b changed (g.enteredWith slots)).blocks ≤
      s.pending.length +
        potential context.hierarchy T (locals + pushedBy start + 1) s.blocks := by
  have hsize := ha.outline.size_eq
  have hlt : i < s.blocks.size := ha.base.outline.size_eq ▸ ha.lt
  have hother : ∀ j, j ≠ i → weight context.hierarchy T' (locals + pushedBy start + 1)
        (entryAt (land s i b changed (g.enteredWith slots)).blocks j) ≤
      weight context.hierarchy T (locals + pushedBy start + 1) (entryAt s.blocks j) := by
    intro j hj
    rw [ha.entryAt_land, if_neg (Ne.symm hj), ha.base.weight_later ha.grown]
  cases changed with
  | true =>
    have := potential_lt hsize hlt (by
      rw [ha.entryAt_land, if_pos rfl, ha.entryAt_eq]
      exact ha.weight_lt hr) hother
    have hlen : (land s i b true (g.enteredWith slots)).pending.length ≤ s.pending.length + 1 := by
      unfold land
      dsimp only
      split <;> simp
    omega
  | false =>
    refine Nat.add_le_add_left (potential_le hsize fun j => ?_) _
    by_cases hj : j = i
    · subst hj
      rw [ha.entryAt_land, if_pos rfl, ← ha.first rfl, ← ha.entryAt_eq,
        ha.base.weight_later ha.grown]
    · exact hother j hj

theorem advance (hr : context.hierarchy.Rooted)
    (ha : Along context start locals s T T' f i b g out changed slots) :
    Advance context (locals + pushedBy start + 1) s T
      (land s i b changed (g.enteredWith slots)) T' :=
  ⟨ha.spreads, ha.grown, ha.up, ha.measure hr⟩

theorem lawful (ha : Along context start locals s T T' f i b g out changed slots) :
    (g.enteredWith slots).Lawful T' (some slots) := by
  obtain ⟨g', hg', hlawful⟩ := ha.base.frame i ha.lt
  unfold frameAt at hg'
  rw [ha.block, Option.bind_some, ha.frame, Option.some.injEq] at hg'
  subst hg'
  have := hlawful.later ha.grown
  exact ⟨this.locals, this.stack, this.constructed, rfl⟩

/-- **Following an edge keeps the invariant.** -/
theorem base_land (ha : Along context start locals s T T' f i b g out changed slots) :
    Base context start locals (land s i b changed (g.enteredWith slots)) T' := by
  have hb := ha.base
  refine ⟨ha.explored_land, ha.sound,
    fun j e he => (hb.edges j e he).mono ha.grown (Nat.le_refl _), ?_, ?_, ?_⟩
  · intro j hj
    rw [ha.frameAt_land]
    by_cases hij : i = j
    · exact ⟨_, if_pos hij, ha.lawful⟩
    · obtain ⟨f', hf', hlawful⟩ := hb.frame j hj
      exact ⟨f', by rw [if_neg hij, hf'], hlawful.later ha.grown⟩
  · intro j entry hentry
    rw [ha.entryAt_land] at hentry
    split at hentry
    · cases hentry
      exact ⟨ha.followed.valid, ha.followed.locals_size.trans ha.locals_eq⟩
    · obtain ⟨hv, hl⟩ := hb.valid j entry hentry
      exact ⟨hv.later ha.grown, hl⟩
  · intro j entry hentry
    rw [ha.entryAt_land] at hentry
    split at hentry
    · rename_i hij
      subst hij
      cases hentry
      cases hg : g.entry with
      | none =>
        obtain ⟨-, hheight⟩ := ha.followed.first hg
        obtain ⟨P, hP, hlow⟩ := ha.low
        refine ⟨P, fun hmem => ?_, fun j hj => ha.reached (hP j hj), by omega⟩
        have := hP i hmem
        unfold ReachedIn at this
        rw [ha.entryAt_eq, hg] at this
        cases this
      | some old =>
        obtain ⟨P, hi, hP, hsize⟩ := hb.height i old (ha.entryAt_eq.trans hg)
        have := (ha.followed.later old hg).1.stack.size_eq
        exact ⟨P, hi, fun j hj => ha.reached (hP j hj), by omega⟩
    · obtain ⟨P, hi, hP, hsize⟩ := hb.height j entry hentry
      exact ⟨P, hi, fun j hj => ha.reached (hP j hj), hsize⟩

end Along

/-- What is needed to follow an edge from a block with the frame `f`. -/
structure Source (context : MethodContext) (start : Array Block) (locals : Nat) (s : Inference)
    (T : TypeTable) (f : Frame) : Prop where
  entered : f.Entered T
  locals_eq : f.entrySlots.locals.size = locals
  low : ∃ P : Finset BlockId, (∀ j ∈ P, ReachedIn s.blocks j) ∧
    f.entrySlots.stack.size + f.stack.size ≤ 1 + ∑ j ∈ P, pushedAt start j

theorem Source.advance {full : Nat} (hf : Source context start locals s T f)
    (ha : Advance context full s T s' T') : Source context start locals s' T' f := by
  obtain ⟨P, hP, hlow⟩ := hf.low
  exact ⟨hf.entered.later ha.grown, hf.locals_eq, P, fun j hj => ha.reached j (hP j hj), hlow⟩

/-- **Following an edge** keeps the invariant, settles the edge and takes nothing away from what is
settled. -/
theorem Base.follow (hr : context.hierarchy.Rooted) (hb : Base context start locals s T)
    (hf : Source context start locals s T f) (he : e.InRange T start.size)
    (hreach : Reaches start (targetOf start e)) {r : Except Error Inference}
    (hrun : Inference.follow context f e s T = (r, T')) :
    T'.Sound context.hierarchy ∧ T ≤ T' ∧ ∀ s', r = .ok s' →
      Base context start locals s' T' ∧
      Advance context (locals + pushedBy start + 1) s T s' T' ∧
      SameOutline s.blocks s'.blocks ∧ Settled context T' s'.blocks f e := by
  have htarget : targetOf s.blocks e = targetOf start e := hb.outline.targetOf_eq e
  obtain ⟨b, g, hlt, hblock, hg⟩ := hb.target he.successor_lt
  obtain ⟨rm, hm, rfl⟩ := follow_cases (htarget ▸ hblock) hg hrun
  have hentry : entryAt s.blocks (targetOf start e) = g.entry := by
    unfold entryAt frameAt
    rw [hblock, Option.bind_some, hg, Option.bind_some]
  have hcaught : ∀ t, Inference.caught e = some t → t.Valid T := by
    intro t ht
    unfold Inference.caught at ht
    split at ht
    · rename_i t' hkind
      cases ht
      exact he.valid t hkind
    · cases ht
  obtain ⟨hs, hle, hans⟩ := Frame.mergeInto_returns hr hb.sound hf.entered hcaught
    (fun slots hslots => by
      rw [hf.locals_eq]
      exact hb.valid _ slots (hentry.trans hslots)) hm
  refine ⟨hs, hle, fun s' hs' => ?_⟩
  cases rm with
  | error err => cases hs'
  | ok m =>
    obtain ⟨changed, g'⟩ := m
    obtain ⟨out, slots, hyields, hfits, rfl, hfollowed⟩ := hans changed g' rfl
    have ha : Along context start locals s T T' f (targetOf start e) b g out changed slots :=
      ⟨⟨hb.toExplored, hlt, hblock, hg, hreach, hfollowed.same⟩, hb, hs, hle, hf.locals_eq, hf.low,
        hfollowed⟩
    simp only [Except.map, Except.ok.injEq, htarget] at hs'
    subst hs'
    refine ⟨ha.base_land, ha.advance hr, ha.outline, out, slots, _, _, hyields, hfits, ?_,
      hfollowed.valid, hfollowed.absorbs⟩
    rw [ha.outline.targetOf_eq, htarget, ha.entryAt_land, if_pos rfl]

/-! ## 4. Visiting a block -/

theorem Rising.refl (hb : Base context start locals s T) :
    Rising context.hierarchy s.blocks T s.blocks T := by
  intro i old hold
  obtain ⟨hv, -⟩ := hb.valid i old hold
  exact ⟨old, hold, .same hv.filling_locals hb.sound (TypeTable.le_refl T),
    .same hv.filling_stack hb.sound (TypeTable.le_refl T)⟩

theorem Rising.trans (hr : context.hierarchy.Rooted) (hb : Base context start locals s T)
    {blocks' blocks'' : Array Block} {T'' : TypeTable}
    (hup : Rising context.hierarchy s.blocks T blocks' T')
    (hup' : Rising context.hierarchy blocks' T' blocks'' T'') :
    Rising context.hierarchy s.blocks T blocks'' T'' := by
  intro i old hold
  obtain ⟨hv, -⟩ := hb.valid i old hold
  obtain ⟨new, hnew, hl⟩ := hup i old hold
  obtain ⟨new', hnew', hl'⟩ := hup' i new hnew
  exact ⟨new', hnew', hl.locals.trans hr hv.filling_locals hl'.locals,
    hl.stack.trans hr hv.filling_stack hl'.stack⟩

theorem Advance.refl (hb : Base context start locals s T) {full : Nat} :
    Advance context full s T s T :=
  ⟨.refl s, TypeTable.le_refl T, .refl hb, Nat.le_refl _⟩

theorem Advance.trans (hr : context.hierarchy.Rooted) (hb : Base context start locals s T)
    {full : Nat} {s'' : Inference} {T'' : TypeTable} (ha : Advance context full s T s' T')
    (ha' : Advance context full s' T' s'' T'') : Advance context full s T s'' T'' :=
  ⟨ha.toSpreads.trans ha'.toSpreads, TypeTable.le_trans ha.grown ha'.grown,
    ha.up.trans hr hb ha'.up, Nat.le_trans ha'.measure ha.measure⟩

/-- Following several edges from a block. -/
theorem Base.followAll (hr : context.hierarchy.Rooted) {edges : List Edge} :
    ∀ {s : Inference} {T : TypeTable}, Base context start locals s T →
      Source context start locals s T f →
      (∀ e ∈ edges, e.InRange T start.size ∧ Reaches start (targetOf start e)) →
      ∀ {r : Except Error Inference},
      edges.foldlM (fun s e => Inference.follow context f e s) s T = (r, T') →
      T'.Sound context.hierarchy ∧ T ≤ T' ∧ ∀ s', r = .ok s' →
        Base context start locals s' T' ∧
        Advance context (locals + pushedBy start + 1) s T s' T' ∧
        SameOutline s.blocks s'.blocks ∧ ∀ e ∈ edges, Settled context T' s'.blocks f e := by
  induction edges with
  | nil =>
    intro s T hb _ _ r hrun
    cases hrun
    refine ⟨hb.sound, TypeTable.le_refl T', fun s' hs' => ?_⟩
    cases hs'
    exact ⟨hb, .refl hb, rfl, by simp⟩
  | cons e edges ih =>
    intro s T hb hf hedges r hrun
    rw [List.foldlM_cons, bind_apply] at hrun
    rcases hfollow : (Inference.follow context f e s T : Except Error Inference × TypeTable)
      with ⟨r₁, T₁⟩
    obtain ⟨he, hreach⟩ := hedges e (by simp)
    obtain ⟨hs₁, hle₁, hans⟩ := hb.follow hr hf he hreach hfollow
    rw [hfollow] at hrun
    cases r₁ with
    | error err =>
      cases hrun
      exact ⟨hs₁, hle₁, fun _ h => by cases h⟩
    | ok s₁ =>
      obtain ⟨hb₁, ha₁, ho₁, hsettled⟩ := hans s₁ rfl
      obtain ⟨hs', hle', hans'⟩ := ih hb₁ (hf.advance ha₁)
        (fun e' he' => ⟨(hedges e' (by simp [he'])).1.mono hle₁ (Nat.le_refl _),
          (hedges e' (by simp [he'])).2⟩) hrun
      refine ⟨hs', TypeTable.le_trans hle₁ hle', fun s' hs'' => ?_⟩
      obtain ⟨hb', ha', ho', hall⟩ := hans' s' hs''
      refine ⟨hb', ha₁.trans hr hb ha', ho₁.trans ho', fun e' he' => ?_⟩
      rcases List.mem_cons.1 he' with rfl | he'
      · exact hsettled.advance hr ho' ha'
      · exact hall e' he'

/-- **The invariant of inference**: a block that has been reached and does not wait has settled
edges. -/
structure Invariant (context : MethodContext) (start : Array Block) (locals : Nat) (s : Inference)
    (T : TypeTable) : Prop extends Base context start locals s T where
  settled : ∀ i, i ∉ s.pending → ∀ f, frameAt s.blocks i = some f → f.isReached = true →
    ∀ e ∈ edgesAt start i, Settled context T s.blocks f e

/-- The changes that are left and what is pending, which bounds how often blocks are visited. -/
noncomputable def measure (context : MethodContext) (start : Array Block) (locals : Nat) (s : Inference)
    (T : TypeTable) : Nat :=
  s.pending.length + potential context.hierarchy T (locals + pushedBy start + 1) s.blocks

variable {i : BlockId} {pending : List BlockId} {blocks : Array Block} {greatest : Nat}

/-- Marking the block that is taken from what is pending. -/
theorem Base.markVisited (hb : Base context start locals ⟨blocks, i :: pending, greatest⟩ T)
    (greatest' : Nat) :
    Base context start locals ⟨blocks.modify i markVisited, pending, greatest'⟩ T := by
  refine ⟨hb.toExplored.markVisited greatest', hb.sound, hb.edges,
    fun j hj => by rw [frameAt_markVisited]; exact hb.frame j hj,
    fun j entry => by rw [entryAt_markVisited]; exact hb.valid j entry, fun j entry hentry => ?_⟩
  rw [entryAt_markVisited] at hentry
  obtain ⟨P, hP, hall, hsize⟩ := hb.height j entry hentry
  exact ⟨P, hP, fun k hk => by unfold ReachedIn; rw [entryAt_markVisited]; exact hall k hk, hsize⟩

/-- What is settled depends on entries only. -/
theorem Settled.congr {blocks' : Array Block} (hs : Settled context T blocks f e)
    (ho : SameOutline blocks blocks') (hentry : ∀ j, entryAt blocks' j = entryAt blocks j) :
    Settled context T blocks' f e := by
  obtain ⟨out, slots, locals, height, hyields, hfits, hslots, hrest⟩ := hs
  exact ⟨out, slots, locals, height, hyields, hfits, by rw [ho.targetOf_eq, hentry, hslots], hrest⟩

theorem SameOutline.pushedAt_eq {blocks blocks' : Array Block} (ho : SameOutline blocks blocks')
    (i : BlockId) : pushedAt blocks' i = pushedAt blocks i := by
  have := ho.read (f := fun b => (b.frame.map fun f => f.stack.size).getD 0)
    (fun b => by cases h : b.frame <;> simp [Block.outline, Frame.effect, h]) i
  unfold pushedAt frameAt
  cases h' : blocks'[i]? <;> cases h : blocks[i]? <;> simp_all

/-- A block that has been reached can be followed. -/
theorem Base.source (hb : Base context start locals s T) {f : Frame}
    (hf : frameAt s.blocks i = some f) (hi : ReachedIn s.blocks i) :
    Source context start locals s T f := by
  obtain ⟨entry, hentry⟩ := Option.isSome_iff_exists.1 hi
  obtain ⟨hvalid, hsize⟩ := hb.valid i entry hentry
  obtain ⟨P, hP, hall, hheight⟩ := hb.height i entry hentry
  obtain ⟨f', hf', hlawful⟩ := hb.frame i (hb.outline.size_eq ▸ hi.lt)
  cases Option.some.inj (hf.symm.trans hf')
  have hfe : f.entry = some entry := by
    unfold entryAt at hentry
    rwa [hf, Option.bind_some] at hentry
  have hslots : f.entrySlots = entry := by rw [Frame.entrySlots, hfe, Option.getD_some]
  have hpushed : pushedAt start i = f.stack.size := by
    rw [← hb.outline.pushedAt_eq, pushedAt, hf]
    rfl
  refine ⟨⟨hlawful, hslots ▸ hvalid⟩, hslots ▸ hsize, insert i P, fun j hj => ?_, ?_⟩
  · rcases Finset.mem_insert.1 hj with rfl | hj
    · exact hi
    · exact hall j hj
  · rw [Finset.sum_insert hP, hpushed, hslots]
    omega

/-- **Visiting a block** keeps the invariant, and takes away from the measure. -/
theorem Invariant.visit (hr : context.hierarchy.Rooted)
    (hinv : Invariant context start locals ⟨blocks, i :: pending, greatest⟩ T)
    {r : Except Error Inference}
    (hrun : Inference.visit context i ⟨blocks, pending, greatest⟩ T = (r, T')) :
    T'.Sound context.hierarchy ∧ T ≤ T' ∧ ∀ s', r = .ok s' →
      Invariant context start locals s' T' ∧
      Rising context.hierarchy blocks T s'.blocks T' ∧
      measure context start locals s' T' <
        measure context start locals ⟨blocks, i :: pending, greatest⟩ T := by
  have hi : ReachedIn blocks i := hinv.pending_reached i List.mem_cons_self
  obtain ⟨f, hf⟩ := hinv.framed i (hinv.outline.size_eq ▸ hi.lt)
  obtain ⟨b, hb, hbf⟩ := Option.bind_eq_some_iff.1 hf
  rw [visit_eq hb hbf] at hrun
  have hbase := hinv.toBase.markVisited
    (max greatest (Int32.ofNat (f.entrySlots.stack.size + f.peak)).toNatClampNeg)
  have hsource := hbase.source (i := i) (f := f) (by rw [frameAt_markVisited]; exact hf) (by
    unfold ReachedIn
    rw [entryAt_markVisited]
    exact hi)
  have hedges : edgesAt start i = b.edges.toList := by
    rw [← hinv.outline.edgesAt_eq, edgesAt, hb]
    rfl
  obtain ⟨hs, hle, hans⟩ := hbase.followAll hr hsource (fun e he =>
    ⟨hinv.edges i e (hedges ▸ he), .edge (hinv.reaches i hi) (hedges ▸ he)⟩) hrun
  refine ⟨hs, hle, fun s' hs' => ?_⟩
  obtain ⟨hb', ha, ho, hall⟩ := hans s' hs'
  refine ⟨⟨hb', fun j hj f' hf' hreach e he => ?_⟩, fun j old hold => ?_, ?_⟩
  · have hkept := ha.kept j hj
    rw [hf', frameAt_markVisited] at hkept
    by_cases hij : j = i
    · subst hij
      cases Option.some.inj (hkept.trans hf)
      exact hall e (hedges ▸ he)
    · have hold : j ∉ i :: pending := fun hmem =>
        hj (ha.waits j ((List.mem_cons.1 hmem).resolve_left hij))
      have hset : Settled context T (blocks.modify i BlockGraph.markVisited) f' e :=
        (hinv.settled j hold f' hkept.symm hreach e he).congr outline_markVisited
          entryAt_markVisited
      exact Settled.advance (s := ⟨_, pending, _⟩) hr hset ho ha
  · exact ha.up j old (by rw [entryAt_markVisited]; exact hold)
  · have hpot : potential context.hierarchy T (locals + pushedBy start + 1)
        (blocks.modify i BlockGraph.markVisited) =
      potential context.hierarchy T (locals + pushedBy start + 1) blocks := by
      unfold potential
      rw [outline_markVisited.size_eq]
      simp only [entryAt_markVisited]
    have hlt := ha.measure
    simp only [hpot] at hlt
    simp only [measure, List.length_cons]
    omega

/-- **Inference ends** with nothing pending, when its limit is as large as the measure. -/
theorem Invariant.run (hr : context.hierarchy.Rooted) {limit : Nat} :
    ∀ {s : Inference} {T : TypeTable}, Invariant context start locals s T →
      measure context start locals s T ≤ limit → ∀ {r : Except Error Inference},
      Inference.run context limit s T = (r, T') →
      T'.Sound context.hierarchy ∧ T ≤ T' ∧ ∀ s', r = .ok s' →
        Invariant context start locals s' T' ∧ Rising context.hierarchy s.blocks T s'.blocks T' ∧
        s'.pending = [] := by
  induction limit with
  | zero =>
    intro s T hinv hlimit r hrun
    cases hrun
    refine ⟨hinv.sound, TypeTable.le_refl _, fun s' hs' => ?_⟩
    cases hs'
    refine ⟨hinv, .refl hinv.toBase, List.length_eq_zero_iff.1 ?_⟩
    unfold measure at hlimit
    omega
  | succ limit ih =>
    rintro ⟨blocks, pending, greatest⟩ T hinv hlimit r hrun
    cases pending with
    | nil =>
      cases hrun
      refine ⟨hinv.sound, TypeTable.le_refl _, fun s' hs' => ?_⟩
      cases hs'
      exact ⟨hinv, .refl hinv.toBase, rfl⟩
    | cons i pending =>
      simp only [Inference.run] at hrun
      rw [bind_apply] at hrun
      rcases hvisit : (Inference.visit context i ⟨blocks, pending, greatest⟩ T :
        Except Error Inference × TypeTable) with ⟨r₁, T₁⟩
      obtain ⟨hs₁, hle₁, hans⟩ := hinv.visit hr hvisit
      rw [hvisit] at hrun
      cases r₁ with
      | error err =>
        cases hrun
        exact ⟨hs₁, hle₁, fun _ h => by cases h⟩
      | ok s₁ =>
        obtain ⟨hinv₁, hup, hlt⟩ := hans s₁ rfl
        obtain ⟨hs', hle', hans'⟩ := ih hinv₁ (by omega) hrun
        refine ⟨hs', TypeTable.le_trans hle₁ hle', fun s' hs'' => ?_⟩
        obtain ⟨hinv', hup', hdone⟩ := hans' s' hs''
        exact ⟨hinv', Rising.trans hr hinv.toBase hup hup', hdone⟩

end BlockGraph

end ClassFile
