/-
# The blocks that handlers are entered from

A handler is entered from each block of the chain that starts between its two labels.  Its range is walked
along `next` up to the block of the second label.  Positions ascend along the chain, so the walk has met
all blocks in front of that one by then, and no other (`Chained.mem_range_iff`); if the first label does
not come in front of the second one, there is no walk at all.

So what a block has in the end is one more edge for each handler that covers it, in the order of the
handlers, and nothing else (`Charted.addAllHandlerEdges_exact`).
-/
import ClassFile.Proofs.BlockGraph.Marks
import ClassFile.Proofs.BlockGraph.Onward
import ClassFile.Proofs.BlockGraph.Thrown

namespace ClassFile.BlockGraph

variable {h : Hierarchy} {g g' g'' : BlockGraph} {T T' : TypeTable} {chain : List BlockId}
  {free : BlockId → Prop} {i j k : BlockId} {l : Label} {a b : Nat} {placed named : Label → Prop}
  {p : Nat}

/-! ## 1. Handlers on the way -/

theorem handlers_splitAt (hmode : g.mode = .frames) (position : Nat) :
    (CodeWriter.splitAt position g).handlers = g.handlers :=
  (tables_startBlock g.newBlock.2 hmode _ position).2

theorem handlers_fallThrough (hmode : g.mode = .frames) (stop : Nat) (isTarget : Bool) :
    (g.fallThrough stop isTarget).handlers = g.handlers := by
  unfold BlockGraph.fallThrough
  cases isTarget with
  | false => exact handlers_splitAt hmode stop
  | true => exact (tables_startBlock (g.newBlock.2.onBlock _ _) hmode _ stop).2

theorem handlers_leadTo (g : BlockGraph) (l : Label) : (g.leadTo l).handlers = g.handlers := by
  obtain ⟨-, -, -, -, -, hhandlers⟩ := blockOf_fields g l
  unfold leadTo BlockGraph.addEdge
  split <;> exact hhandlers

theorem handlers_leadToAll (g : BlockGraph) (ls : List Label) :
    (ls.foldl (fun g l => g.leadTo l) g).handlers = g.handlers := by
  induction ls generalizing g with
  | nil => rfl
  | cons l ls ih => exact (ih (g.leadTo l)).trans (handlers_leadTo g l)

theorem WellBuilt.handlers_afterStep (hg : g.WellBuilt T) (stop : Nat) (around : Bool)
    (i : Instruction Label) : (g.afterStep stop around i).handlers = g.handlers := by
  cases i
  case simple op =>
    rw [BlockGraph.afterStep]
    split
    · exact handlers_endBlock g stop
    · rfl
  case jump op goal =>
    rw [BlockGraph.afterStep]
    split
    · exact (handlers_endBlock _ stop).trans (handlers_leadTo g goal)
    · exact (handlers_fallThrough (hg.leadTo goal).mode stop around).trans (handlers_leadTo g goal)
  case tableSwitch low high default targets =>
    exact (handlers_endBlock _ stop).trans (handlers_leadToAll g (default :: targets))
  case lookupSwitch default keys targets =>
    exact (handlers_endBlock _ stop).trans (handlers_leadToAll g (default :: targets))
  case int | var | type | field | method | invokeDynamic | constant | increment | multiArray => rfl

/-- An instruction registers no handler. -/
theorem WellBuilt.handlers_step (hT : T.Sound h) (hg : g.WellBuilt T) {start stop : Nat} {around : Bool}
    {i : Instruction Label} (hrun : BlockGraph.step start stop around i g T = ((.ok (), g'), T')) :
    g'.handlers = g.handlers := by
  rcases hg.step_cases hT hrun with ⟨-, rfl⟩ | ⟨c, f, f', -, -, -, hg₁, rfl⟩
  · rfl
  · exact hg₁.handlers_afterStep stop around i

theorem WellBuilt.handlers_label (hg : g.WellBuilt T) (l : Label) (position : Nat) :
    (g.label l position).handlers = g.handlers := by
  obtain ⟨-, -, -, -, -, hhandlers⟩ := blockOf_fields g l
  exact (tables_startBlock (g.blockOf l).2 (hg.blockOf l).1.mode _ position).2.trans hhandlers

/-- A handler is registered behind the others. -/
theorem handlers_addHandler (g : BlockGraph) (r : HandlerRange) :
    (g.addHandler r).handlers = g.handlers.push r := by
  rw [addHandler_eq, handlers_mention]

/-! ## 2. Ranges -/

/-- The blocks from which a handler is entered. -/
def Covers (g : BlockGraph) (r : HandlerRange) (i : BlockId) : Prop :=
  g.positionOf (g.firstOf r.start) < g.positionOf (g.firstOf r.stop) ∧
    i ∈ g.range (g.firstOf r.start) (g.firstOf r.stop)

/-- Blocks that have their place are those of the chain. -/
theorem Chained.mem_of_passed (h : Chained free chain g) (hi : g.Passed i) : i ∈ chain := by
  rcases hi.placed with rfl | hnext
  · exact h.last_mem
  by_contra hmem
  by_cases hfree : free i
  · rw [(h.free i hfree).2.2.2] at hnext
    exact nomatch hnext
  · obtain ⟨k, -, hk⟩ := h.settled i hi.lt hmem hfree
    exact nomatch hk.symm.trans hi.first

theorem Charted.mem_chain (h : Charted placed named p g) (hi : g.Passed i) : i ∈ g.chain 0 := by
  obtain ⟨chain, hc⟩ := h.chained
  exact hc.chain_eq ▸ hc.mem_of_passed hi

/-- The block that stands for another one, and nothing else. -/
theorem StandsAt.first_eq (hk : g.StandsAt i k a) : g.first i = k := by
  rcases hk.stands with rfl | halias
  · exact follow_of_first hk.passed.first _
  · exact follow_of_alias halias hk.passed.first _

/-- The block that stands for a label, and nothing else. -/
theorem Sited.firstOf_eq (hl : g.Sited l k a) : g.firstOf l = k := by
  obtain ⟨i, hi, hk⟩ := hl
  rw [firstOf, hi]
  exact hk.first_eq

theorem mem_takeWhile_of_pairwise {α : Type} {R : α → α → Prop} {p : α → Bool} {xs : List α}
    (hxs : xs.Pairwise R) {x : α} (hx : x ∈ xs) (hp : p x = true)
    (hbefore : ∀ y, R y x → p y = true) : x ∈ xs.takeWhile p := by
  induction hxs with
  | nil => exact hx
  | @cons y xs hy _ ih =>
    rcases List.mem_cons.1 hx with rfl | hx
    · rw [List.takeWhile_cons_of_pos hp]
      exact List.mem_cons_self
    · rw [List.takeWhile_cons_of_pos (hbefore y (hy x hx))]
      exact List.mem_cons_of_mem _ (ih hx)

/-- A range has all blocks of the chain that start between its ends. -/
theorem Chained.mem_range (h : Chained free chain g) (hi : i ∈ chain) (hj : j ∈ chain)
    (hij : g.positionOf i ≤ g.positionOf j) (hjk : g.positionOf j < g.positionOf k) :
    j ∈ g.range i k := by
  obtain ⟨front, behind, hchain⟩ := List.append_of_mem hi
  obtain ⟨-, hascending, hfront⟩ := List.pairwise_append.1 (hchain ▸ h.ascending)
  have hmem : j ∈ i :: behind := by
    rw [hchain] at hj
    rcases List.mem_append.1 hj with hj | hj
    · exact absurd (hfront j hj i List.mem_cons_self) (Nat.not_lt.2 hij)
    · exact hj
  have hne : ∀ x, g.positionOf x ≤ g.positionOf j → decide (x ≠ k) = true := by
    intro x hx
    refine decide_eq_true ?_
    rintro rfl
    exact absurd hjk (Nat.not_lt.2 hx)
  rw [BlockGraph.range, h.chain_of_append hchain]
  exact mem_takeWhile_of_pairwise hascending hmem (hne j (Nat.le_refl _))
    fun x hx => hne x (Nat.le_of_lt hx)

/-- What comes in front of an element is related to it. -/
theorem rel_of_mem_takeWhile {α : Type} [DecidableEq α] {R : α → α → Prop} {xs : List α}
    (hxs : xs.Pairwise R) {x y : α} (hy : y ∈ xs) (hx : x ∈ xs.takeWhile fun z => z ≠ y) : R x y := by
  induction hxs with
  | nil => exact absurd hy List.not_mem_nil
  | @cons z xs hz _ ih =>
    by_cases hzy : z = y
    · rw [List.takeWhile_cons_of_neg (by simpa using hzy)] at hx
      exact absurd hx List.not_mem_nil
    · have hy' : y ∈ xs := (List.mem_cons.1 hy).resolve_left (Ne.symm hzy)
      rw [List.takeWhile_cons_of_pos (by simpa using hzy)] at hx
      rcases List.mem_cons.1 hx with rfl | hx
      · exact hz y hy'
      · exact ih hy' hx

/-- A range is a part of the chain. -/
theorem Chained.range_sublist (h : Chained free chain g) (hi : i ∈ chain) (k : BlockId) :
    (g.range i k).Sublist chain := by
  obtain ⟨front, behind, hchain⟩ := List.append_of_mem hi
  rw [BlockGraph.range, h.chain_of_append hchain, hchain]
  exact (List.takeWhile_sublist _).trans (List.sublist_append_right front _)

/-- **A range has the blocks of the chain that start between its ends**, and no other. -/
theorem Chained.mem_range_iff (h : Chained free chain g) (hi : i ∈ chain) (hk : k ∈ chain)
    (hik : g.positionOf i < g.positionOf k) :
    j ∈ g.range i k ↔ j ∈ chain ∧ g.positionOf i ≤ g.positionOf j ∧
      g.positionOf j < g.positionOf k := by
  refine ⟨fun hj => ⟨(h.range_sublist hi k).subset hj, ?_⟩,
    fun ⟨hj, hij, hjk⟩ => h.mem_range hi hj hij hjk⟩
  obtain ⟨front, behind, hchain⟩ := List.append_of_mem hi
  obtain ⟨-, hascending, hfront⟩ := List.pairwise_append.1 (hchain ▸ h.ascending)
  rw [BlockGraph.range, h.chain_of_append hchain] at hj
  have hk' : k ∈ i :: behind := by
    rcases List.mem_append.1 (hchain ▸ hk) with hk | hk
    · exact absurd (hfront k hk i List.mem_cons_self) (Nat.lt_asymm hik)
    · exact hk
  refine ⟨?_, rel_of_mem_takeWhile (R := fun i j => g.positionOf i < g.positionOf j) hascending hk' hj⟩
  rcases List.mem_cons.1 ((List.takeWhile_sublist _).subset hj) with rfl | hj
  · exact Nat.le_refl _
  · exact Nat.le_of_lt ((List.pairwise_cons.1 hascending).1 j hj)

/-- The block that stands for the one of a label stands for itself. -/
theorem Charted.first_firstOf (h : Charted placed named p g) (hg : g.WellBuilt T) (l : Label) :
    g.first (g.firstOf l) = g.firstOf l := by
  refine h.first_first ?_
  cases hl : g.labels.get? l with
  | none => exact Nat.zero_lt_of_lt hg.last_lt
  | some i => exact hg.label_lt l i hl

/-- No range meets a block twice, also one that starts at a block that has not been placed. -/
theorem Charted.range_nodup (h : Charted placed named p g) (hg : g.WellBuilt T) (l : Label)
    (k : BlockId) : (g.range (g.firstOf l) k).Nodup ∧
      ∀ i ∈ g.range (g.firstOf l) k, i < g.blocks.size := by
  obtain ⟨chain, hc⟩ := h.chained
  have hlt := hg.firstOf_lt l
  by_cases hmem : g.firstOf l ∈ chain
  · have hsub := hc.range_sublist hmem k
    exact ⟨hsub.nodup hc.nodup, fun i hi => hc.lt i (hsub.subset hi)⟩
  · have hends : nextAt g.blocks (g.firstOf l) = none := by
      by_cases hfree : g.Unplaced placed (g.firstOf l)
      · exact (hc.free _ hfree).2.2.2
      · obtain ⟨j, hj, halias⟩ := hc.settled _ hlt hmem hfree
        have hself := h.first_firstOf hg l
        rw [BlockGraph.first, follow_of_alias halias (hc.first j hj)] at hself
        exact absurd (hself ▸ hj) hmem
    have hone : g.chain (g.firstOf l) = [g.firstOf l] :=
      chainFrom_eq rfl (.singleton _) (fun j hj => Option.some.inj hj ▸ hends) (Nat.one_le_of_lt hlt)
    have hsub : (g.range (g.firstOf l) k).Sublist [g.firstOf l] := by
      rw [BlockGraph.range, hone]
      exact List.takeWhile_sublist _
    exact ⟨hsub.nodup (List.nodup_singleton _), fun i hi =>
      List.mem_singleton.1 (hsub.subset hi) ▸ hlt⟩

instance (g : BlockGraph) (r : HandlerRange) (i : BlockId) : Decidable (g.Covers r i) :=
  inferInstanceAs (Decidable (_ ∧ _))

/-- **The blocks that start between the labels** of a handler, and no other. -/
theorem Charted.covers_iff (h : Charted placed named p g) {r : HandlerRange}
    (hstart : g.Sited r.start j a) (hstop : g.Sited r.stop k b) :
    g.Covers r i ↔ i ∈ g.chain 0 ∧ a ≤ g.positionOf i ∧ g.positionOf i < b := by
  obtain ⟨chain, hc⟩ := h.chained
  unfold Covers
  rw [hstart.firstOf_eq, hstop.firstOf_eq, hc.chain_eq]
  obtain ⟨_, _, hj⟩ := hstart
  obtain ⟨_, _, hk⟩ := hstop
  have hj' := hc.mem_of_passed hj.passed
  have hk' := hc.mem_of_passed hk.passed
  rw [← hj.position, ← hk.position]
  constructor
  · rintro ⟨hjk, hi⟩
    exact (hc.mem_range_iff hj' hk' hjk).1 hi
  · rintro ⟨hi, hji, hik⟩
    have hjk := Nat.lt_of_le_of_lt hji hik
    exact ⟨hjk, (hc.mem_range_iff hj' hk' hjk).2 ⟨hi, hji, hik⟩⟩

/-! ## 3. Edges to handlers -/

/-- Only edges have been added, and marks. -/
structure Joined (g g' : BlockGraph) : Prop where
  lines : SameLines g g'
  frames : ∀ i, frameAt g'.blocks i = frameAt g.blocks i
  edges : ∀ i, ∀ e ∈ edgesAt g.blocks i, e ∈ edgesAt g'.blocks i

theorem Joined.refl (g : BlockGraph) : Joined g g := ⟨.refl g, fun _ => rfl, fun _ _ => id⟩

theorem Joined.trans (h : Joined g g') (h' : Joined g' g'') : Joined g g'' :=
  ⟨h.lines.trans h'.lines, fun i => (h'.frames i).trans (h.frames i),
    fun i e he => h'.edges i e (h.edges i e he)⟩

theorem Joined.covers_iff (h : Joined g g') (r : HandlerRange) (i : BlockId) :
    g'.Covers r i ↔ g.Covers r i := by
  unfold Covers
  simp only [h.lines.firstOf_eq, h.lines.range_eq, h.lines.position]

theorem edgesAt_kept (g : BlockGraph) (i : BlockId) {f : Block → Block}
    (hf : ∀ b, (f b).edges = b.edges) (j : BlockId) :
    edgesAt (g.onBlock i f).blocks j = edgesAt g.blocks j := by
  unfold edgesAt
  rw [read_onBlock g i (fun b => b.edges.toList) fun b => congrArg Array.toList (hf b)]

theorem joined_markTarget (g : BlockGraph) (i : BlockId) :
    Joined g (g.onBlock i fun b => { b with isTarget := true }) where
  lines := sameLines_onBlock g i (fun _ => ⟨rfl, rfl, rfl⟩) fun _ => rfl
  frames := bind_onBlock g i fun _ => rfl
  edges j e he := by
    rwa [edgesAt_kept g i (f := fun b => { b with isTarget := true }) fun _ => rfl]

theorem joined_addEdges (g : BlockGraph) (e : Edge) (blocks : List BlockId) :
    Joined g (g.addEdges e blocks) where
  lines := (joins_addEdges g e blocks).lines
  frames j := by
    unfold BlockGraph.addEdges
    induction blocks generalizing g with
    | nil => rfl
    | cons i blocks ih =>
      exact (ih _).trans (bind_onBlock g i (f := Block.addEdge e) (fun _ => rfl) j)
  edges i e' he' := ((joins_addEdges g e blocks).edges i e').2 (.inl he')

theorem edgesAt_onBlock (g : BlockGraph) (hi : i < g.blocks.size) (e : Edge) (j : BlockId) :
    edgesAt (g.onBlock i (Block.addEdge e)).blocks j =
      edgesAt g.blocks j ++ if j = i then [e] else [] := by
  unfold edgesAt
  rw [getElem?_onBlock]
  by_cases hij : i = j
  · subst hij
    rw [if_pos rfl, if_pos rfl, Array.getElem?_eq_getElem hi]
    exact Array.toList_push
  · rw [if_neg hij, if_neg (Ne.symm hij), List.append_nil]

/-- Each of these blocks has one more edge. -/
theorem edgesAt_addEdges (g : BlockGraph) (e : Edge) {blocks : List BlockId} (hnodup : blocks.Nodup)
    (hlt : ∀ i ∈ blocks, i < g.blocks.size) (j : BlockId) :
    edgesAt (g.addEdges e blocks).blocks j = edgesAt g.blocks j ++ if j ∈ blocks then [e] else [] := by
  unfold BlockGraph.addEdges
  induction blocks generalizing g with
  | nil => simp
  | cons i blocks ih =>
    obtain ⟨hi, hnodup⟩ := List.nodup_cons.1 hnodup
    have hrest := ih (g.onBlock i (Block.addEdge e)) hnodup
      fun k hk => size_onBlock g i _ ▸ hlt k (List.mem_cons_of_mem i hk)
    rw [List.foldl_cons, hrest, edgesAt_onBlock g (hlt i List.mem_cons_self), List.append_assoc]
    by_cases hji : j = i
    · simp [hji, hi]
    · simp [hji]

/-- An edge to a handler, with the type of what it catches. -/
def Catches (g : BlockGraph) (T : TypeTable) (r : HandlerRange) (e : Edge) : Prop :=
  ∃ t, T.entries[t]? = some (.initialized (r.caught.getD "java/lang/Throwable")) ∧
    e = ⟨.caught (.scalar (.object t)), g.firstOf r.handler⟩

theorem Catches.later {r : HandlerRange} {e : Edge} (he : g.Catches T r e) (hle : T ≤ T') :
    g.Catches T' r e := by
  obtain ⟨t, ht, he⟩ := he
  exact ⟨t, hle t _ ht, he⟩

/-- **What blocks get from these handlers**: one edge from each that covers them, in order. -/
def Gains (g g' : BlockGraph) (T : TypeTable) (rs : List HandlerRange) : Prop :=
  ∀ i, ∃ es, edgesAt g'.blocks i = edgesAt g.blocks i ++ es ∧
    List.Forall₂ (g.Catches T) (rs.filter fun r => g.Covers r i) es

/-- **The edges of one handler.** -/
theorem addHandlerEdges_gains (hT : T.Sound h) (hg : g.mode = .frames) {r : HandlerRange}
    (hnodup : (g.range (g.firstOf r.start) (g.firstOf r.stop)).Nodup)
    (hlt : ∀ i ∈ g.range (g.firstOf r.start) (g.firstOf r.stop), i < g.blocks.size)
    {ans : Except Error Unit} (hrun : addHandlerEdges r g T = ((ans, g'), T')) :
    ans = .ok () ∧ Joined g g' ∧ g.Gains g' T' [r] := by
  obtain ⟨rfl, -, -, -, ⟨rfl, hempty⟩ | ⟨hpos, t, ht, rfl⟩⟩ := addHandlerEdges_cases hT hg r hrun
  · refine ⟨rfl, .refl g', fun i => ⟨[], (List.append_nil _).symm, ?_⟩⟩
    have hnot : ¬ g'.Covers r i := fun hi => absurd hi.1 (Nat.not_lt.2 hempty)
    simp [hnot]
  · have hmark := joined_markTarget g (g.firstOf r.handler)
    have hedges := edgesAt_kept g (g.firstOf r.handler) (f := fun b => { b with isTarget := true })
      fun _ => rfl
    generalize g.onBlock (g.firstOf r.handler) (fun b => { b with isTarget := true }) = g₁
      at hmark hedges ⊢
    rw [← hmark.lines.range_eq] at hnodup hlt
    rw [← hmark.lines.size] at hlt
    refine ⟨rfl, hmark.trans (joined_addEdges g₁ _ _), fun i => ⟨_,
      (edgesAt_addEdges g₁ _ hnodup hlt i).trans (congrArg (· ++ _) (hedges i)), ?_⟩⟩
    have hcovers : g.Covers r i ↔ i ∈ g₁.range (g.firstOf r.start) (g.firstOf r.stop) := by
      rw [hmark.lines.range_eq]
      exact and_iff_right hpos
    by_cases hi : g.Covers r i
    · rw [if_pos (hcovers.1 hi), List.filter_cons_of_pos (by simpa using hi)]
      exact .cons ⟨t, ht, rfl⟩ .nil
    · rw [if_neg (mt hcovers.2 hi), List.filter_cons_of_neg (by simpa using hi)]
      exact .nil

theorem gains_nil (g : BlockGraph) (T : TypeTable) : g.Gains g T [] :=
  fun _ => ⟨[], (List.append_nil _).symm, .nil⟩

/-- Handlers, and then other ones. -/
theorem Gains.append {rs rs' : List HandlerRange} (hrs : g.Gains g' T rs) (hjoined : Joined g g')
    (hle : T ≤ T') (hrs' : g'.Gains g'' T' rs') : g.Gains g'' T' (rs ++ rs') := by
  intro i
  obtain ⟨es, hedges, hes⟩ := hrs i
  obtain ⟨es', hedges', hes'⟩ := hrs' i
  refine ⟨es ++ es', by rw [hedges', hedges, List.append_assoc], ?_⟩
  rw [List.filter_append]
  refine List.rel_append (hes.imp fun _ _ he => he.later hle) ?_
  simp only [hjoined.covers_iff] at hes'
  refine hes'.imp ?_
  rintro r e ⟨t, ht, rfl⟩
  exact ⟨t, ht, by rw [hjoined.lines.firstOf_eq]⟩

/-- **The edges of all handlers.** -/
theorem Charted.addAllHandlerEdges_exact (hT : T.Sound h) (hg : g.WellBuilt T)
    (hc : Charted placed named p g) {ans : Except Error Unit}
    (hrun : BlockGraph.addAllHandlerEdges g T = ((ans, g'), T')) :
    ans = .ok () ∧ Joined g g' ∧ g.Gains g' T' g.handlers.toList := by
  have hlist : ∀ (rs : List HandlerRange) (g₁ : BlockGraph) (T₁ : TypeTable), T₁.Sound h →
      g₁.WellBuilt T₁ → Charted placed named p g₁ →
      (forIn rs PUnit.unit fun r _ => do
        BlockGraph.addHandlerEdges r
        pure (ForInStep.yield PUnit.unit) : GraphM PUnit) g₁ T₁ = ((ans, g'), T') →
      ans = .ok () ∧ Joined g₁ g' ∧ g₁.Gains g' T' rs ∧ T₁ ≤ T' := by
    intro rs
    induction rs with
    | nil =>
      intro g₁ T₁ _ _ _ hrun
      cases hrun
      exact ⟨rfl, .refl g', gains_nil g' T', TypeTable.le_refl T'⟩
    | cons r rs ih =>
      intro g₁ T₁ hT₁ hg₁ hc₁ hrun
      rw [List.forIn_cons, bind_assoc, bind_apply₂] at hrun
      rcases hr : BlockGraph.addHandlerEdges r g₁ T₁ with ⟨⟨ans₂, g₂⟩, T₂⟩
      obtain ⟨hT₂, hle₂, hg₂⟩ := hg₁.addHandlerEdges hT₁ r hr
      obtain ⟨hnodup, hlt⟩ := hc₁.range_nodup hg₁ r.start (g₁.firstOf r.stop)
      obtain ⟨rfl, hjoined₂, hgains₂⟩ := addHandlerEdges_gains hT₁ hg₁.mode hnodup hlt hr
      rw [hr] at hrun
      obtain ⟨hans, hjoined, hgains, hle⟩ :=
        ih g₂ T₂ hT₂ hg₂ (hc₁.addHandlerEdges hT₁ hg₁.mode hr) hrun
      exact ⟨hans, hjoined₂.trans hjoined, hgains₂.append hjoined₂ hle hgains,
        TypeTable.le_trans hle₂ hle⟩
  unfold BlockGraph.addAllHandlerEdges at hrun
  simp only [bind_pure_unit] at hrun
  obtain ⟨hans, hjoined, hgains, -⟩ := hlist g.handlers.toList g T hT hg hc hrun
  exact ⟨hans, hjoined, hgains⟩

/-- **Inference adds these edges first, and no other**, whatever its answer is. -/
theorem WellBuilt.infer_edges {context : MethodContext} (hT : T.Sound h) (hg : g.WellBuilt T)
    {g₁ : BlockGraph} {T₁ : TypeTable}
    (hedges : BlockGraph.addAllHandlerEdges g T = ((.ok (), g₁), T₁))
    {ans : Except Error (UInt16 × List SlotType)}
    (hrun : BlockGraph.infer context g T = ((ans, g'), T')) (i : BlockId) :
    edgesAt g'.blocks i = edgesAt g₁.blocks i := by
  obtain ⟨hs₁, -, hg₁⟩ := hg.addAllHandlerEdges hT hedges
  have hentered : ∀ f locals, edgesAt (entered g₁.blocks f locals) i = edgesAt g₁.blocks i := by
    intro f locals
    refine (edgesAt_kept (g₁.onBlock 0 fun b => { b with frame := some (f.enteredWith ⟨locals, #[]⟩) }) 0
      ?_ i).trans (edgesAt_kept g₁ 0 ?_ i) <;> exact fun _ => rfl
  rw [infer_apply, hedges] at hrun
  rcases hlocals : (Frame.methodLocals context.className context.access context.name
    context.descriptor context.maxLocals T₁ : Except Error (Array SlotType) × TypeTable)
    with ⟨e | locals, T₂⟩
  · simp only [hlocals] at hrun
    cases hrun
    refine edgesAt_kept g₁ 0 ?_ i
    exact fun _ => rfl
  simp only [hlocals] at hrun
  generalize (g₁.blocks[0]?.bind Block.frame).getD .empty = f at hrun
  rcases hsettle : (Inference.run context (changeLimit { g₁ with
    blocks := entered g₁.blocks f locals } context.hierarchy locals.size + 1)
    ⟨entered g₁.blocks f locals, [0], 0⟩ T₂ : Except Error Inference × TypeTable) with ⟨e | s, T₃⟩
  · rw [hsettle] at hrun
    cases hrun
    exact hentered f locals
  · rw [hsettle] at hrun
    cases hrun
    obtain ⟨-, hle₂, -⟩ := Frame.tame_methodLocals context.className context.access
      context.name context.descriptor context.maxLocals T₁ hs₁ trivial _ T₂ hlocals
    exact (((hg₁.later hle₂).complete.run hsettle).outline.edgesAt_eq i).trans (hentered f locals)

end ClassFile.BlockGraph
