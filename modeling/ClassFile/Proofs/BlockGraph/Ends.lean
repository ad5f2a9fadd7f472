/-
# Inference ends

Inference goes round four loops, none of which counts its steps: along `next` through the chain of
blocks, along aliases, up through super classes, and through the blocks that wait.  Each of them
ends, whatever operations the graph was built by, as long as no label was placed twice
(`infer_ends`).  Nothing leads back along `next` and along aliases (`Threaded`), and each visit of a
waiting block takes away from a measure (`Invariant.visit`).

The definitions that run have a bound in each of these loops.  The theorem says that the bounds are
never met: what is computed with them is what is computed without (`Walk`, `Exhausts`).  The loops end
for every graph.  For one where some block takes more than `2 ^ 31` slots from its stack, inference can
still end abruptly, because the number of slots that are left goes round.
-/
import ClassFile.Proofs.BlockGraph.Remaining
import ClassFile.Proofs.BlockGraph.Threaded

namespace ClassFile

/-! ## 1. Walks -/

/-- Going on from a place until nothing is behind it any more, which meets these places. -/
inductive Walk {α : Type} (next : α → Option α) : Option α → List α → Prop where
  | done : Walk next none []
  | step {a : α} {rest : List α} : Walk next (next a) rest → Walk next (some a) (a :: rest)

/-- Where each step goes down, every walk ends. -/
theorem Walk.exists_of_lt {α : Type} {next : α → Option α} (rank : α → Nat)
    (hlt : ∀ a b, next a = some b → rank b < rank a) (a : α) : ∃ l, Walk next (some a) l := by
  induction hn : rank a using Nat.strong_induction_on generalizing a with
  | _ n ih =>
    cases hb : next a with
    | none => exact ⟨[a], .step (hb ▸ .done)⟩
    | some b =>
      obtain ⟨l, hl⟩ := ih (rank b) (hn ▸ hlt a b hb) b rfl
      exact ⟨a :: l, .step (hb ▸ hl)⟩

/-- Where each step goes down, a walk meets only places below the one that it starts at. -/
theorem Walk.rank_lt {α : Type} {next : α → Option α} {rank : α → Nat}
    (hlt : ∀ a b, next a = some b → rank b < rank a) {start : Option α} {l : List α}
    (hl : Walk next start l) {a : α} (ha : next a = start) : ∀ b ∈ l, rank b < rank a := by
  induction hl generalizing a with
  | done => simp
  | @step c rest _ ih =>
    intro b hb
    rcases List.mem_cons.1 hb with rfl | hb
    · exact hlt a b ha
    · exact Nat.lt_trans (ih rfl b hb) (hlt a c ha)

theorem Walk.nodup {α : Type} {next : α → Option α} {rank : α → Nat}
    (hlt : ∀ a b, next a = some b → rank b < rank a) {start : Option α} {l : List α}
    (hl : Walk next start l) : l.Nodup := by
  induction hl with
  | done => exact .nil
  | @step a rest hrest ih =>
    exact List.nodup_cons.2 ⟨fun hmem => Nat.lt_irrefl _ (hrest.rank_lt hlt rfl a hmem), ih⟩

/-- **The classes above a class are met by a walk that ends.** -/
theorem SuperclassMap.Acyclic.walk_ancestors {m : SuperclassMap} (ha : m.Acyclic) (a : String) :
    Walk m.superclass? (some a) (m.ancestors a) := by
  induction hn : (m.ancestors a).length using Nat.strong_induction_on generalizing a with
  | _ n ih =>
    rw [ha.ancestors_eq]
    refine .step ?_
    cases hs : m.superclass? a with
    | none => exact .done
    | some s => exact ih _ (hn ▸ ha.length_ancestors_lt (.single hs)) s rfl

namespace BlockGraph

variable {g g' : BlockGraph} {h : Hierarchy} {T T' : TypeTable}

/-! ## 2. The walks of complete graphs -/

/-- **Along `next` there is always an end**, and the chain that is read off has it. -/
theorem Threaded.walk_chain {free : BlockId → Prop} (h : Threaded free g)
    (hpos : 0 < g.blocks.size) (i : BlockId) : Walk (nextAt g.blocks) (some i) (g.chain i) := by
  obtain ⟨rank, hrank⟩ := h.falls
  obtain ⟨l, hl⟩ := Walk.exists_of_lt rank hrank i
  have hread : ∀ {start : Option BlockId} {l : List BlockId}, Walk (nextAt g.blocks) start l →
      ∀ limit, l.length ≤ limit → chainFrom g.blocks limit start = l := by
    intro start l hl
    induction hl with
    | done => intro limit _; cases limit <;> rfl
    | @step a rest _ ih =>
      rintro (_ | limit) hlimit
      · exact absurd hlimit (Nat.not_succ_le_zero _)
      · exact congrArg (a :: ·) (ih limit (Nat.le_of_succ_le_succ hlimit))
  have hbehind : ∀ {a : BlockId} {start : Option BlockId} {l : List BlockId},
      Walk (nextAt g.blocks) start l → nextAt g.blocks a = start →
      ∀ b ∈ l, b < g.blocks.size := by
    intro a start l hl
    induction hl generalizing a with
    | done => simp
    | @step c rest _ ih =>
      intro ha b hb
      rcases List.mem_cons.1 hb with rfl | hb
      · exact (h.next a b ha).2.2
      · exact ih rfl b hb
  have hlength : l.length ≤ g.blocks.size := by
    have hnodup := hl.nodup hrank
    cases hl with
    | @step _ rest hrest =>
      by_cases hi : i < g.blocks.size
      · have hall : i :: rest ⊆ List.range g.blocks.size := fun b hb => by
          rcases List.mem_cons.1 hb with rfl | hb
          · exact List.mem_range.2 hi
          · exact List.mem_range.2 (hbehind hrest rfl b hb)
        simpa using (hnodup.subperm hall).length_le
      · -- A block that does not exist is followed by nothing.
        have hnone : nextAt g.blocks i = none := by
          rw [nextAt, Array.getElem?_eq_none (Nat.le_of_not_lt hi), Option.bind_none]
        rw [hnone] at hrest
        cases hrest
        exact hpos
  rw [chain, hread hl _ hlength]
  exact hl

/-- **Along aliases there is always an end**, and that is the block that is found. -/
theorem Threaded.walk_first {free : BlockId → Prop} (h : Threaded free g) (i : BlockId) :
    ∃ others, Walk (aliasAt g.blocks) (some i) (others ++ [g.first i]) := by
  cases hi : aliasAt g.blocks i with
  | none =>
    have hnone : g.blocks[i]?.bind Block.sameAs = none := hi
    refine ⟨[], ?_⟩
    rw [first, follow, hnone]
    exact .step (hi ▸ .done)
  | some j =>
    obtain ⟨-, -, hj, hlt⟩ := h.sameAs i j hi
    have hsome : g.blocks[i]?.bind Block.sameAs = some j := hi
    have hnone : g.blocks[j]?.bind Block.sameAs = none := hj
    have hfirst : g.first i = j := by
      rw [first, follow, hsome]
      obtain ⟨n, hn⟩ := Nat.exists_eq_succ_of_ne_zero (Nat.ne_of_gt (Nat.zero_lt_of_lt hlt))
      rw [hn]
      simp only [follow, hnone]
    refine ⟨[i], ?_⟩
    rw [hfirst]
    exact .step (hi ▸ .step (hj ▸ .done))

/-- The edges to one more handler have been added, or that has failed. -/
def AddsEdges (p q : BlockGraph × TypeTable) : Prop :=
  ∃ r ans, addHandlerEdges r p.1 p.2 = ((ans, q.1), q.2)

theorem Threaded.addEdges {free : BlockId → Prop} (h : Threaded free g) (e : Edge)
    (range : List BlockId) : Threaded free (g.addEdges e range) := by
  unfold BlockGraph.addEdges
  induction range generalizing g with
  | nil => exact h
  | cons i range ih => exact ih (h.onBlock i fun _ => ⟨rfl, rfl⟩)

theorem Threaded.addHandlerEdges {free : BlockId → Prop} (hT : T.Sound h) (ht : Threaded free g)
    (hg : g.mode = .frames) {r : HandlerRange} {ans : Except Error Unit}
    (hrun : addHandlerEdges r g T = ((ans, g'), T')) : Threaded free g' := by
  obtain ⟨-, -, -, -, ⟨rfl, -⟩ | ⟨-, i, -, rfl⟩⟩ := addHandlerEdges_cases hT hg r hrun
  · exact ht
  · exact (ht.onBlock (g.firstOf r.handler) (f := fun b => { b with isTarget := true })
      fun _ => ⟨rfl, rfl⟩).addEdges _ _

/-- Edges to handlers lead nowhere along the chain. -/
theorem AddsEdges.keeps {free : BlockId → Prop} {p q : BlockGraph × TypeTable}
    (hadds : Relation.ReflTransGen AddsEdges p q) (hp : p.2.Sound h ∧ p.1.WellBuilt p.2 ∧
      Threaded free p.1) : q.2.Sound h ∧ q.1.WellBuilt q.2 ∧ Threaded free q.1 := by
  induction hadds with
  | refl => exact hp
  | tail _ hstep ih =>
    obtain ⟨r, ans, hrun⟩ := hstep
    obtain ⟨hs, hg, ht⟩ := ih
    obtain ⟨hs', -, hg'⟩ := hg.addHandlerEdges hs r hrun
    exact ⟨hs', hg', ht.addHandlerEdges hs hg.mode hrun⟩

/-! ## 3. Blocks that wait -/

/-- Visiting blocks until none waits any more, or a visit fails. -/
inductive Exhausts (context : MethodContext) :
    Inference → TypeTable → Except Error Inference → TypeTable → Prop where
  | done {blocks : Array Block} {greatest : Nat} {T : TypeTable} :
      Exhausts context ⟨blocks, [], greatest⟩ T (.ok ⟨blocks, [], greatest⟩) T
  | failed {blocks : Array Block} {i : BlockId} {pending : List BlockId} {greatest : Nat}
      {T T' : TypeTable} {e : Error} :
      Inference.visit context i ⟨blocks, pending, greatest⟩ T = (.error e, T') →
      Exhausts context ⟨blocks, i :: pending, greatest⟩ T (.error e) T'
  | visit {blocks : Array Block} {i : BlockId} {pending : List BlockId} {greatest : Nat}
      {T T' T'' : TypeTable} {s : Inference} {r : Except Error Inference} :
      Inference.visit context i ⟨blocks, pending, greatest⟩ T = (.ok s, T') →
      Exhausts context s T' r T'' → Exhausts context ⟨blocks, i :: pending, greatest⟩ T r T''

variable {context : MethodContext}

/-- **The blocks that wait become none**, within as many visits as the measure says. -/
theorem Invariant.exhausts (hr : context.hierarchy.Rooted) {start : Array Block} {locals : Nat}
    {limit : Nat} : ∀ {s : Inference} {T : TypeTable}, Invariant context start locals s T →
      measure context start locals s T ≤ limit → ∀ {r : Except Error Inference} {T' : TypeTable},
      Inference.run context limit s T = (r, T') → Exhausts context s T r T' := by
  induction limit with
  | zero =>
    rintro ⟨blocks, pending, greatest⟩ T hinv hlimit r T' hrun
    cases hrun
    obtain rfl : pending = [] := List.length_eq_zero_iff.1 (by
      simp only [measure] at hlimit
      omega)
    exact .done
  | succ limit ih =>
    rintro ⟨blocks, pending, greatest⟩ T hinv hlimit r T' hrun
    cases pending with
    | nil =>
      cases hrun
      exact .done
    | cons i pending =>
      simp only [Inference.run] at hrun
      rw [bind_apply] at hrun
      rcases hvisit : (Inference.visit context i ⟨blocks, pending, greatest⟩ T :
        Except Error Inference × TypeTable) with ⟨r₁, T₁⟩
      obtain ⟨-, -, hans⟩ := hinv.visit hr hvisit
      rw [hvisit] at hrun
      cases r₁ with
      | error e =>
        cases hrun
        exact .failed hvisit
      | ok s₁ =>
        obtain ⟨hinv₁, -, hlt⟩ := hans s₁ rfl
        exact .visit hvisit (ih hinv₁ (by omega) hrun)

theorem SameOutline.nextAt_eq {blocks blocks' : Array Block} (ho : SameOutline blocks blocks')
    (i : BlockId) : nextAt blocks' i = nextAt blocks i := by
  have hread := ho.read (f := Block.next) (fun _ => rfl) i
  unfold nextAt
  cases h' : blocks'[i]? <;> cases h : blocks[i]? <;> simp_all

theorem SameOutline.aliasAt_eq {blocks blocks' : Array Block} (ho : SameOutline blocks blocks')
    (i : BlockId) : aliasAt blocks' i = aliasAt blocks i := by
  have hread := ho.read (f := Block.sameAs) (fun _ => rfl) i
  unfold aliasAt
  cases h' : blocks'[i]? <;> cases h : blocks[i]? <;> simp_all

/-- Inference leaves the chain as it is, whatever its outcome. -/
theorem WellBuilt.threaded_infer {free : BlockId → Prop} (hr : context.hierarchy.Rooted)
    (hT : T.Sound context.hierarchy) (hg : g.WellBuilt T) (ht : Threaded free g)
    {r : Except Error (UInt16 × List SlotType)}
    (hrun : BlockGraph.infer context g T = ((r, g'), T')) :
    Threaded free g' ∧ 0 < g'.blocks.size := by
  rw [infer_apply] at hrun
  rcases hedges : (BlockGraph.addAllHandlerEdges g T :
    (Except Error Unit × BlockGraph) × TypeTable) with ⟨⟨re, g₁⟩, T₁⟩
  obtain ⟨hs₁, -, hg₁⟩ := hg.addAllHandlerEdges hT hedges
  have ht₁ : Threaded free g₁ := by
    refine (addAllHandlerEdges_keeps (P := fun g' T' => T'.Sound context.hierarchy ∧
      g'.WellBuilt T' ∧ Threaded free g') ?_ ⟨hT, hg, ht⟩ hedges).2.2
    rintro r - g₁ T₁ ans g₂ T₂ ⟨hs, hg₁, ht₁⟩ hr
    obtain ⟨hs₂, -, hg₂⟩ := hg₁.addHandlerEdges hs r hr
    exact ⟨hs₂, hg₂, ht₁.addHandlerEdges hs hg₁.mode hr⟩
  have hpos : 0 < g₁.blocks.size := Nat.zero_lt_of_lt hg₁.last_lt
  have hentered : ∀ f locals, Threaded free { g₁ with blocks := entered g₁.blocks f locals } := by
    intro f locals
    rw [← entered_eq]
    refine ((ht₁.onBlock 0 ?_).onBlock 0 ?_).onBlock 0 ?_ <;> exact fun _ => ⟨rfl, rfl⟩
  rw [hedges] at hrun
  cases re with
  | error e =>
    cases hrun
    exact ⟨ht₁, hpos⟩
  | ok u =>
    rcases hlocals : (Frame.methodLocals context.className context.access context.name
      context.descriptor context.maxLocals T₁ : Except Error (Array SlotType) × TypeTable)
      with ⟨rl, T₂⟩
    obtain ⟨hs₂, hle₂, hans⟩ := Frame.tame_methodLocals context.className context.access
      context.name context.descriptor context.maxLocals T₁ hs₁ trivial rl T₂ hlocals
    simp only [hlocals] at hrun
    cases rl with
    | error e =>
      cases hrun
      exact ⟨ht₁.onBlock 0 fun _ => ⟨rfl, rfl⟩, Nat.lt_of_lt_of_eq hpos (size_onBlock ..).symm⟩
    | ok locals =>
      obtain ⟨hvalid, hyields⟩ := hans locals rfl
      obtain ⟨f, hf⟩ := hg₁.frame_zero
      simp only [show g₁.blocks[0]?.bind Block.frame = some f from hf, Option.getD_some] at hrun
      rcases hsettle : (Inference.run context (changeLimit { g₁ with
        blocks := entered g₁.blocks f locals } context.hierarchy locals.size + 1)
        ⟨entered g₁.blocks f locals, [0], 0⟩ T₂ : Except Error Inference × TypeTable) with ⟨rs, T₃⟩
      obtain ⟨-, -, hans₃⟩ := (hg₁.later hle₂).settle hr hs₂ hf hvalid hyields hsettle
      rw [hsettle] at hrun
      cases rs with
      | error e =>
        cases hrun
        exact ⟨hentered f locals, Nat.lt_of_lt_of_eq hpos (size_entered g₁.blocks).symm⟩
      | ok s =>
        cases hrun
        have ho := (hans₃ s rfl).invariant.outline
        exact ⟨(hentered f locals).congr (Nat.le_of_eq ho.size_eq.symm) ho.nextAt_eq ho.aliasAt_eq
          rfl (hentered f locals).current, Nat.lt_of_lt_of_eq hpos
            ((size_entered g₁.blocks).symm.trans ho.size_eq.symm)⟩

/-! ## 4. All loops -/

/-- A table of types that any graphs and their inference leave behind, all with one hierarchy. -/
inductive Operated (h : Hierarchy) : TypeTable → Prop where
  | empty : Operated h .empty
  | operate {T : TypeTable} (os : List GraphOperation) : Operated h T →
      (os.filterMap GraphOperation.placed?).Nodup →
      Operated h (operate os (start .frames) T).2
  | infer {T : TypeTable} (context : MethodContext) (os : List GraphOperation) : Operated h T →
      (os.filterMap GraphOperation.placed?).Nodup → context.hierarchy = h →
      Operated h (infer context (operate os (start .frames) T).1 (operate os (start .frames) T).2).2

theorem Operated.sound (hr : h.Rooted) (hT : Operated h T) : T.Sound h := by
  have hbuild : ∀ {T : TypeTable} {os : List GraphOperation}, T.Sound h →
      (os.filterMap GraphOperation.placed?).Nodup →
      (BlockGraph.operate os (start .frames) T).2.Sound h ∧
        (BlockGraph.operate os (start .frames) T).1.WellBuilt
          (BlockGraph.operate os (start .frames) T).2 := by
    intro T os hT hos
    obtain ⟨hs, hg, -⟩ := wellBuilt_start.operate hT mapped_start os (fun _ _ _ _ => id) hos
    exact ⟨hs, hg⟩
  induction hT with
  | empty => exact TypeTable.sound_empty h
  | operate os _ hos ih => exact (hbuild ih hos).1
  | @infer T context os _ hos hcontext ih =>
    subst hcontext
    obtain ⟨hs, hg⟩ := hbuild ih hos
    rcases hrun : BlockGraph.infer context (BlockGraph.operate os (start .frames) T).1
      (BlockGraph.operate os (start .frames) T).2 with ⟨⟨r, g⟩, T'⟩
    exact (hg.infer hr hs hrun).1

/-- **Inference ends**, for every graph that operations have built and every map of super classes
without cycles in which `java/lang/Object` has none: the walk up from each class ends; so do, while
edges to handlers are added, the walks along `next` and along aliases; the blocks that wait become
none, or following one of them fails; and the walk along `next` from the entry ends behind inference.
Each walk that ends is the one that the definitions with a bound make.  If no block takes more than
`2 ^ 31` slots from its stack, inference does not end abruptly either. -/
theorem infer_ends {T₀ : TypeTable} {m : SuperclassMap} (hm : m.Rooted)
    (hc : m.hierarchy = context.hierarchy)
    (hT : Operated context.hierarchy T₀) (os : List GraphOperation)
    (hos : (os.filterMap GraphOperation.placed?).Nodup)
    (hbuild : operate os (start .frames) T₀ = (g, T)) :
    (∀ name, Walk m.superclass? (some name) (m.ancestors name)) ∧
    (∀ g₁ T₁, Relation.ReflTransGen AddsEdges (g, T) (g₁, T₁) →
      ∀ i, Walk (nextAt g₁.blocks) (some i) (g₁.chain i) ∧
        ∃ others, Walk (aliasAt g₁.blocks) (some i) (others ++ [g₁.first i])) ∧
    (∀ g₁ T₁ f locals T₂, addAllHandlerEdges g T = ((.ok (), g₁), T₁) →
      frameAt g₁.blocks 0 = some f →
      Returns (Frame.methodLocals context.className context.access context.name
        context.descriptor context.maxLocals) T₁ locals T₂ →
      ∃ r T₃, Exhausts context ⟨entered g₁.blocks f locals, [0], 0⟩ T₂ r T₃ ∧
        Inference.run context (changeLimit { g₁ with blocks := entered g₁.blocks f locals }
          context.hierarchy locals.size + 1) ⟨entered g₁.blocks f locals, [0], 0⟩ T₂ = (r, T₃)) ∧
    ∀ r g' T', infer context g T = ((r, g'), T') →
      Walk (nextAt g'.blocks) (some 0) (g'.chain 0) ∧
      (Shallow g.blocks → ∀ slot, r ≠ .error (.slotOutOfRange slot)) := by
  have hr : context.hierarchy.Rooted := ⟨m, hm, hc⟩
  obtain ⟨hs, hg, placed, hplaced⟩ := wellBuilt_start.operate (hT.sound hr) mapped_start os
    (fun _ _ _ _ => id) hos
  rw [hbuild] at hs hg hplaced
  refine ⟨hm.acyclic.walk_ancestors, fun g₁ T₁ hadds => ?_, fun g₁ T₁ f locals T₂ hedges hf hret => ?_,
    fun r g' T' hrun => ?_⟩
  · obtain ⟨-, hg₁, ht₁⟩ := AddsEdges.keeps hadds ⟨hs, hg, hplaced.threaded⟩
    exact fun i => ⟨ht₁.walk_chain (Nat.zero_lt_of_lt hg₁.last_lt) i, ht₁.walk_first i⟩
  · obtain ⟨hs₁, -, hg₁⟩ := hg.addAllHandlerEdges hs hedges
    obtain ⟨hs₂, hle₂, hans⟩ := Frame.tame_methodLocals context.className context.access
      context.name context.descriptor context.maxLocals T₁ hs₁ trivial (.ok locals) T₂ hret
    obtain ⟨hvalid, -⟩ := hans locals rfl
    rcases hrun : (Inference.run context (changeLimit { g₁ with
      blocks := entered g₁.blocks f locals } context.hierarchy locals.size + 1)
      ⟨entered g₁.blocks f locals, [0], 0⟩ T₂ : Except Error Inference × TypeTable) with ⟨r, T₃⟩
    have hg₂ := hg₁.later hle₂
    exact ⟨r, T₃, (hg₂.invariant hs₂ hf hvalid).exhausts hr (hg₂.measure_le hr hvalid) hrun, rfl⟩
  · obtain ⟨ht, hpos⟩ := hg.threaded_infer hr hs hplaced.threaded hrun
    refine ⟨ht.walk_chain hpos 0, fun hshallow slot hr' => ?_⟩
    subst hr'
    exact hg.raises_infer hs hshallow hrun slot rfl

/-- A method that goes round for ever, where what is thrown goes to the entry as well. -/
def roundOperations : List GraphOperation :=
  [.event (.handler ⟨⟨0, false⟩, ⟨1, false⟩, ⟨0, false⟩, none⟩), .event (.label ⟨0, false⟩ 0),
    .event (.instruction 0 3 false (.jump Opcode.goto ⟨0, false⟩)), .event (.label ⟨1, false⟩ 3)]

set_option maxRecDepth 20000 in
theorem shallow_split :
    Shallow (operate (splitEvents.map .event) (start .frames) .empty).1.blocks :=
  shallow_of_all rfl

set_option maxRecDepth 20000 in
/-- The walks end in a method that does not.  Two blocks of which each is entered wait no more, and no slot is
looked up that there is not. -/
theorem infer_ends_round :
    (∀ r g' T', infer splitContext (operate roundOperations (start .frames) .empty).1
      (operate roundOperations (start .frames) .empty).2 = ((r, g'), T') →
      Walk (nextAt g'.blocks) (some 0) (g'.chain 0)) ∧
    (∃ f r T, Exhausts splitContext
      ⟨entered (operate (splitEvents.map .event) (start .frames) .empty).1.blocks f #[.top], [0], 0⟩
      .empty r T) ∧
    ∀ r g' T', infer splitContext (operate (splitEvents.map .event) (start .frames) .empty).1
      .empty = ((r, g'), T') → ∀ slot, r ≠ .error (.slotOutOfRange slot) := by
  have hm := SuperclassMap.rooted_empty
  have hc : SuperclassMap.empty.hierarchy = splitContext.hierarchy := SuperclassMap.hierarchy_empty
  obtain ⟨-, -, -, hwalk⟩ := infer_ends hm hc .empty roundOperations (by decide) rfl
  refine ⟨fun r g' T' hrun => (hwalk r g' T' hrun).1, ?_⟩
  obtain ⟨-, -, hwaits, hends⟩ := infer_ends hm hc .empty (splitEvents.map .event) (by decide) rfl
  have hedges : addAllHandlerEdges (operate (splitEvents.map .event) (start .frames) .empty).1
      .empty = ((.ok (), (operate (splitEvents.map .event) (start .frames) .empty).1), .empty) := rfl
  obtain ⟨r, T, hexhausts, -⟩ := hwaits _ _ _ _ _ hedges rfl methodLocals_split
  exact ⟨⟨_, r, T, hexhausts⟩, fun r g' T' hrun => (hends r g' T' hrun).2 shallow_split⟩

end BlockGraph

end ClassFile
