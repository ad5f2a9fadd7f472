/-
# What is thrown, where only heights are recorded

A handler is entered from the blocks of the chain between those of two labels.  In a graph that is lined
up these are blocks of all instructions that the handler covers (`Lined.mem_range`); and if no other label
stands at the end of what is covered and in front of the label that ends it, each of the blocks begins at
such an instruction (`Lined.begins_of_mem_range`).

So the search for the greatest height finds a height for each instruction that control gets to
(`Lined.computeMaxStack_below`).
-/
import ClassFile.Proofs.BlockGraph.Entered
import ClassFile.Proofs.BlockGraph.Lined

namespace ClassFile

/-! ## 1. Places in order -/

/-- Labels are placed one behind the other. -/
theorem Routine.places_sorted (es : List MethodEvent) :
    (Routine.of es).places.Pairwise fun p q => p.2 ≤ q.2 := by
  suffices hall : ∀ (es : List MethodEvent) (r : Routine),
      (∀ p ∈ r.places, p.2 ≤ r.code.length) ∧ r.places.Pairwise (fun p q => p.2 ≤ q.2) →
      (es.foldl Routine.event r).places.Pairwise fun p q => p.2 ≤ q.2 from
    hall es .empty ⟨fun p hp => absurd hp List.not_mem_nil, .nil⟩
  intro es
  induction es with
  | nil => exact fun r hr => hr.2
  | cons e es ih =>
    rintro r ⟨hle, hsorted⟩
    refine ih (r.event e) ?_
    cases e
    case instruction i =>
      refine ⟨fun p hp => ?_, hsorted⟩
      rw [Routine.event, List.length_append]
      exact Nat.le_add_right_of_le (hle p hp)
    case label l =>
      unfold Routine.event
      dsimp only
      split
      · exact ⟨hle, hsorted⟩
      · refine ⟨fun p hp => ?_, List.pairwise_append.2 ⟨hsorted, List.pairwise_singleton _ _, ?_⟩⟩
        · rcases List.mem_append.1 hp with hp | hp
          · exact hle p hp
          · rw [List.mem_singleton.1 hp]
        · intro p hp q hq
          rw [List.mem_singleton.1 hq]
          exact hle p hp
    all_goals exact ⟨hle, hsorted⟩

namespace BlockGraph

variable {r : Routine} {s : Sketch} {g g' : BlockGraph} {chain : List BlockId} {i j : BlockId}
  {T T' : TypeTable}

/-! ## 2. Ranges -/

/-- The chain from the block of a label on. -/
theorem Lined.chain_of_append (h : Lined r s chain g) {front behind : List BlockId}
    (hchain : chain = front ++ i :: behind) : g.chain i = i :: behind := by
  refine BlockGraph.chain_of_append h.linked (fun j hj => h.ends j (.inr ?_))
    (fun j hj => (h.placed j hj).lt) h.nodup hchain
  exact Option.some.inj (hj.symm.trans h.last)

/-- **The blocks between two labels**, of which the first one is placed before the other one. -/
theorem Lined.range_eq (h : Lined r s chain g) (hsorted : r.places.Pairwise fun p q => p.2 ≤ q.2)
    {start stop : Label} {a b : Nat} (ha : (start, a) ∈ r.places) (hb : (stop, b) ∈ r.places)
    (hab : a < b) (hi : g.labels.get? start = some i) (hj : g.labels.get? stop = some j) :
    ∃ front between behind before middle after,
      r.places = front ++ (start, a) :: (between ++ (stop, b) :: behind) ∧
      chain = before ++ i :: (middle ++ j :: after) ∧
      List.Forall₂ (fun p i => g.labels.get? p.1 = some i) between middle ∧
      List.Forall₂ (fun p i => g.labels.get? p.1 = some i) behind after ∧
      g.range i j = i :: middle := by
  obtain ⟨front, rest, hplaces⟩ := List.append_of_mem ha
  have hmem : (stop, b) ∈ rest := by
    rw [hplaces] at hb hsorted
    rcases List.mem_append.1 hb with hb | hb
    · have hle : b ≤ a := (List.pairwise_append.1 hsorted).2.2 _ hb _ List.mem_cons_self
      omega
    · rcases List.mem_cons.1 hb with heq | hb
      · have : b = a := congrArg Prod.snd heq
        omega
      · exact hb
  obtain ⟨between, behind, rfl⟩ := List.append_of_mem hmem
  have hlabels := h.labels
  rw [hplaces] at hlabels
  obtain ⟨before, rest, htail, -, hrest⟩ := of_forall₂_append hlabels
  obtain ⟨i', rest', hi', hrest', rfl⟩ := List.forall₂_cons_left_iff.1 hrest
  obtain rfl : i' = i := Option.some.inj (hi'.symm.trans hi)
  obtain ⟨middle, rest, rfl, hbetween, hrest⟩ := of_forall₂_append hrest'
  obtain ⟨j', after, hj', hbehind, rfl⟩ := List.forall₂_cons_left_iff.1 hrest
  obtain rfl : j' = j := Option.some.inj (hj'.symm.trans hj)
  have hchain : chain = (0 :: before) ++ i' :: (middle ++ j' :: after) := by
    rw [List.cons_append, ← htail, List.cons_head?_tail h.head]
  refine ⟨front, between, behind, 0 :: before, middle, after, hplaces, hchain, hbetween, hbehind, ?_⟩
  have hnodup : (i' :: (middle ++ j' :: after)).Nodup :=
    (List.nodup_append.1 (hchain ▸ h.nodup)).2.1
  have hne : ∀ k ∈ i' :: middle, k ≠ j' := by
    rw [← List.cons_append] at hnodup
    exact fun k hk => (List.nodup_append.1 hnodup).2.2 k hk j' List.mem_cons_self
  rw [BlockGraph.range, h.chain_of_append hchain, ← List.cons_append,
    List.takeWhile_append_of_pos (fun k hk => decide_eq_true (hne k hk)),
    List.takeWhile_cons_of_neg (by simp), List.append_nil]

/-- The block of a label begins where the label is. -/
theorem Drawn.begins_of_places (hd : Drawn r s g) {places : List (Label × Nat)}
    {blocks : List BlockId} (hsub : ∀ p ∈ places, p ∈ r.places)
    (h : List.Forall₂ (fun p i => g.labels.get? p.1 = some i) places blocks) (hi : i ∈ blocks) :
    ∃ p ∈ places, Begins s g i p.2 := by
  obtain ⟨p, hp, hget⟩ := exists_of_forall₂ h hi
  obtain ⟨i', hi', hbegins⟩ := hd.label p.1 p.2 (hsub p hp)
  obtain rfl : i' = i := Option.some.inj (hi'.symm.trans hget)
  exact ⟨p, hp, hbegins⟩

/-- The block of an instruction begins at it or before it. -/
theorem Drawn.begins_le (hd : Drawn r s g) {k n : Nat} {x : Int} (hk : Gets r s g i x k)
    (hn : Begins s g i n) : n ≤ k := by
  induction k generalizing x with
  | zero =>
    cases hk with
    | start hk => exact Nat.le_of_eq (hd.begins_unique hn hk)
  | succ k ih =>
    cases hk with
    | start hk => exact Nat.le_of_eq (hd.begins_unique hn hk)
    | next hk => exact Nat.le_succ_of_le (ih (hd.row k i _ hk).2)

section Range

variable (h : Lined r s chain g) (hd : Drawn r s g)
  (hsorted : r.places.Pairwise fun p q => p.2 ≤ q.2) {start stop : Label} {a b : Nat}
  (ha : (start, a) ∈ r.places) (hb : (stop, b) ∈ r.places)
  (hi : g.labels.get? start = some i) (hj : g.labels.get? stop = some j)

include h hd hsorted ha hb hi hj

/-- **A range has the blocks of all instructions** between its labels. -/
theorem Lined.mem_range {k : Nat} {n : BlockId} {x : Int} (hrow : s.rows[k]? = some (some (n, x)))
    (hak : a ≤ k) (hkb : k < b) : n ∈ g.range i j := by
  obtain ⟨front, between, behind, before, middle, after, hplaces, hchain, -, hbehind, hrange⟩ :=
    h.range_eq hsorted ha hb (Nat.lt_of_le_of_lt hak hkb) hi hj
  obtain ⟨i', hi', hbegins⟩ := hd.label start a ha
  obtain rfl : i' = i := Option.some.inj (hi'.symm.trans hi)
  obtain ⟨offset, hoffset⟩ : ∃ offset, s.offsets[k]? = some offset := by
    refine ⟨_, List.getElem?_eq_getElem ?_⟩
    have hlt := (List.getElem?_eq_some_iff.1 hrow).1
    rw [hd.rows_length] at hlt
    rw [hd.offsets_length]
    exact Nat.lt_succ_of_lt hlt
  have hmem := h.rows k n x hrow
  rw [hchain] at hmem
  rw [hrange]
  rcases List.mem_append.1 hmem with hmem | hmem
  · -- a block in front of the range has no instruction behind its start
    have horder := (List.pairwise_append.1 (hchain ▸ h.order)).2.2 n hmem i' List.mem_cons_self
    have hlt := horder k x offset hrow hoffset
    have hle : g.positionOf i' ≤ offset := by
      rcases Nat.lt_or_eq_of_le hak with hlt' | rfl
      · exact Nat.le_of_lt (hd.offset_lt hlt' hbegins.offset hoffset)
      · exact Nat.le_of_eq (Option.some.inj (hbegins.offset.symm.trans hoffset))
    omega
  · rw [← List.cons_append] at hmem
    rcases List.mem_append.1 hmem with hmem | hmem
    · exact hmem
    · -- a block behind the range begins behind it
      have hsub : ∀ p ∈ (stop, b) :: behind, p ∈ r.places := fun p hp => by
        rw [hplaces]; simp only [List.mem_append, List.mem_cons] at hp ⊢; tauto
      obtain ⟨p, hp, hn⟩ := hd.begins_of_places hsub (.cons hj hbehind) hmem
      have hle : b ≤ p.2 := by
        rcases List.mem_cons.1 hp with rfl | hp
        · exact Nat.le_refl _
        · rw [hplaces] at hsorted
          have hrest := (List.pairwise_cons.1 (List.pairwise_append.1 hsorted).2.1).2
          exact (List.pairwise_cons.1 (List.pairwise_append.1 hrest).2.1).1 p hp
      have := hd.begins_le (hd.row k n x hrow).2 hn
      omega

/-- **Each block of a range begins at an instruction** between its labels, if no other label stands at
the place of the second one and in front of it. -/
theorem Lined.begins_of_mem_range (hends : ∀ front behind b,
    r.places = front ++ (stop, b) :: behind → ∀ p ∈ front, p.2 ≠ b) (hab : a < b) {n : BlockId}
    (hn : n ∈ g.range i j) : ∃ k, Begins s g n k ∧ a ≤ k ∧ k < b := by
  obtain ⟨front, between, behind, before, middle, after, hplaces, -, hbetween, -, hrange⟩ :=
    h.range_eq hsorted ha hb hab hi hj
  rw [hrange] at hn
  have hsub : ∀ p ∈ (start, a) :: between, p ∈ r.places := fun p hp => by
    rw [hplaces]; simp only [List.mem_append, List.mem_cons] at hp ⊢; tauto
  obtain ⟨p, hp, hbegins⟩ := hd.begins_of_places hsub (.cons hi hbetween) hn
  have hsplit : r.places = (front ++ (start, a) :: between) ++ (stop, b) :: behind := by
    rw [hplaces, List.append_assoc, List.cons_append]
  have hle : p.2 ≤ b := by
    rw [hsplit] at hsorted
    exact (List.pairwise_append.1 hsorted).2.2 p (List.mem_append_right _ hp) _ List.mem_cons_self
  have hne : p.2 ≠ b := hends _ behind b hsplit p (List.mem_append_right _ hp)
  refine ⟨p.2, hbegins, ?_, Nat.lt_of_le_of_ne hle hne⟩
  rcases List.mem_cons.1 hp with rfl | hp
  · exact Nat.le_refl _
  · rw [hplaces] at hsorted
    exact (List.pairwise_cons.1 (List.pairwise_append.1 hsorted).2.1).1 p (List.mem_append_left _ hp)

end Range

/-! ## 3. Edges to handlers -/

theorem SameLines.chainFrom_eq (hl : SameLines g g') (limit : Nat) (i : Option BlockId) :
    chainFrom g'.blocks limit i = chainFrom g.blocks limit i := by
  induction limit generalizing i with
  | zero => cases i <;> rfl
  | succ limit ih =>
    cases i with
    | none => rfl
    | some i =>
      have hnext : g'.blocks[i]?.bind Block.next = g.blocks[i]?.bind Block.next := hl.next i
      rw [chainFrom, chainFrom, hnext, ih]

theorem SameLines.range_eq (hl : SameLines g g') (i j : BlockId) : g'.range i j = g.range i j := by
  rw [BlockGraph.range, BlockGraph.range, chain, chain, hl.size, hl.chainFrom_eq]

theorem SameLines.first_eq (hl : SameLines g g') (i : BlockId) : g'.first i = g.first i := by
  have hfollow : ∀ limit i, follow g'.blocks limit i = follow g.blocks limit i := by
    intro limit
    induction limit with
    | zero => exact fun i => rfl
    | succ limit ih =>
      intro i
      have hsame : g'.blocks[i]?.bind Block.sameAs = g.blocks[i]?.bind Block.sameAs := hl.sameAs i
      rw [follow, follow, hsame]
      split
      · exact ih _
      · rfl
  rw [first, first, hl.size, hfollow]

theorem SameLines.firstOf_eq (hl : SameLines g g') (l : Label) : g'.firstOf l = g.firstOf l := by
  rw [firstOf, firstOf, hl.labels, hl.first_eq]

/-- Where no label is another name for a block. -/
theorem Lined.firstOf_eq (h : Lined r s chain g) {l : Label} (hi : g.labels.get? l = some i) :
    g.firstOf l = i := by
  rw [firstOf, hi]
  exact follow_of_first (h.plain i) _

/-- A handler adds edges from its range. -/
def throwTo (g : BlockGraph) (range : HandlerRange) : BlockGraph :=
  if g.positionOf (g.firstOf range.start) < g.positionOf (g.firstOf range.stop) then
    g.addEdges ⟨.thrown, g.firstOf range.handler⟩
      (g.range (g.firstOf range.start) (g.firstOf range.stop))
  else g

theorem addHandlerEdges_heights (hmode : g.mode = .maxStack) (range : HandlerRange) (T : TypeTable) :
    addHandlerEdges range g T = ((.ok (), g.throwTo range), T) := by
  show (if g.positionOf (g.firstOf range.start) < g.positionOf (g.firstOf range.stop) then do
        let kind ← handlerKind range
        if (← get).mode = .frames then
          modify (onBlock (g.firstOf range.handler) fun b => { b with isTarget := true })
        modify fun g' =>
          g'.addEdges ⟨kind, g.firstOf range.handler⟩
            (g'.range (g.firstOf range.start) (g.firstOf range.stop))
      else pure () : GraphM Unit) g T = _
  unfold throwTo
  split
  · rw [bind_apply₂, handlerKind_heights hmode]
    show (if g.mode = .frames then _ else pure () >>= fun _ =>
      modify fun g' => g'.addEdges ⟨.thrown, g.firstOf range.handler⟩
        (g'.range (g.firstOf range.start) (g.firstOf range.stop)) : GraphM Unit) g T = _
    rw [if_neg (by rw [hmode]; decide)]
    rfl
  · rfl

/-- Only edges have been added. -/
structure Joins (g g' : BlockGraph) (new : BlockId → Edge → Prop) : Prop where
  lines : SameLines g g'
  unsearched : Unsearched g.blocks → Unsearched g'.blocks
  mode : g'.mode = g.mode
  peak : ∀ i, peakAt g'.blocks i = peakAt g.blocks i
  edges : ∀ i e, e ∈ edgesAt g'.blocks i ↔ e ∈ edgesAt g.blocks i ∨ new i e

variable {new new' : BlockId → Edge → Prop}

theorem Joins.refl (g : BlockGraph) : Joins g g fun _ _ => False :=
  ⟨.refl g, id, rfl, fun _ => rfl, fun _ _ => (or_iff_left id).symm⟩

theorem Joins.trans {g'' : BlockGraph} (h : Joins g g' new) (h' : Joins g' g'' new') :
    Joins g g'' fun i e => new i e ∨ new' i e where
  lines := h.lines.trans h'.lines
  unsearched hg := h'.unsearched (h.unsearched hg)
  mode := h'.mode.trans h.mode
  peak i := (h'.peak i).trans (h.peak i)
  edges i e := by rw [h'.edges, h.edges, or_assoc]

theorem Joins.congr (h : Joins g g' new) (hnew : ∀ i e, new i e ↔ new' i e) : Joins g g' new' :=
  ⟨h.lines, h.unsearched, h.mode, h.peak, fun i e => (h.edges i e).trans (or_congr_right (hnew i e))⟩

theorem joins_onBlock (g : BlockGraph) (i : BlockId) (e : Edge) :
    Joins g (g.onBlock i (Block.addEdge e)) fun j e' => j = i ∧ i < g.blocks.size ∧ e' = e where
  lines := sameLines_onBlock g i (fun _ => ⟨rfl, rfl, rfl⟩) fun _ => rfl
  unsearched hg := unsearched_onBlock hg i fun _ => ⟨rfl, rfl⟩
  mode := rfl
  peak j := by
    have hread := read_onBlock g i (f := Block.addEdge e) Block.peak (fun _ => rfl) j
    unfold peakAt
    rw [hread]
  edges j e' := by
    unfold edgesAt
    rw [getElem?_onBlock]
    by_cases hj : i = j
    · subst hj
      rw [if_pos rfl]
      by_cases hi : i < g.blocks.size
      · rw [Array.getElem?_eq_getElem hi]
        simp only [Option.map_some, Option.getD_some, hi, true_and]
        exact Array.mem_toList_iff.trans (Array.mem_push.trans (or_congr_left Array.mem_toList_iff.symm))
      · rw [Array.getElem?_eq_none (Nat.le_of_not_lt hi)]
        simp [hi]
    · rw [if_neg hj]
      exact (or_iff_left fun h => hj h.1.symm).symm

theorem joins_addEdges (g : BlockGraph) (e : Edge) (blocks : List BlockId) :
    Joins g (g.addEdges e blocks) fun i e' => i ∈ blocks ∧ i < g.blocks.size ∧ e' = e := by
  unfold BlockGraph.addEdges
  induction blocks generalizing g with
  | nil => exact (Joins.refl g).congr fun i e' => by simp
  | cons i blocks ih =>
    have hone := joins_onBlock g i e
    refine (hone.trans (ih (g.onBlock i (Block.addEdge e)))).congr fun j e' => ?_
    rw [hone.lines.size, List.mem_cons, or_and_right]
    refine or_congr ⟨?_, ?_⟩ Iff.rfl
    · rintro ⟨rfl, hlt, he⟩
      exact ⟨rfl, hlt, he⟩
    · rintro ⟨rfl, hlt, he⟩
      exact ⟨rfl, hlt, he⟩

/-- The edges of a handler. -/
def Throws (g : BlockGraph) (range : HandlerRange) (i : BlockId) (e : Edge) : Prop :=
  g.positionOf (g.firstOf range.start) < g.positionOf (g.firstOf range.stop) ∧
    i ∈ g.range (g.firstOf range.start) (g.firstOf range.stop) ∧ i < g.blocks.size ∧
    e = ⟨.thrown, g.firstOf range.handler⟩

theorem SameLines.throws_iff (hl : SameLines g g') (range : HandlerRange) (i : BlockId) (e : Edge) :
    g'.Throws range i e ↔ g.Throws range i e := by
  unfold Throws
  simp only [hl.firstOf_eq, hl.range_eq, hl.position, hl.size]

theorem joins_throwTo (g : BlockGraph) (range : HandlerRange) :
    Joins g (g.throwTo range) (g.Throws range) := by
  unfold throwTo Throws
  split
  · rename_i hlt
    exact (joins_addEdges g _ _).congr fun i e => (and_iff_right hlt).symm
  · rename_i hlt
    exact (Joins.refl g).congr fun i e => ⟨False.elim, fun h => hlt h.1⟩

/-- **All handlers.** -/
theorem joins_addAllHandlerEdges (hmode : g.mode = .maxStack) (T : TypeTable) :
    ∃ g', addAllHandlerEdges g T = ((.ok (), g'), T) ∧
      Joins g g' fun i e => ∃ range ∈ g.handlers.toList, g.Throws range i e := by
  have hlist : ∀ (ranges : List HandlerRange) (g : BlockGraph), g.mode = .maxStack → ∃ g',
      (forIn ranges PUnit.unit fun range _ => do
        addHandlerEdges range
        pure (ForInStep.yield PUnit.unit) : GraphM PUnit) g T = ((.ok PUnit.unit, g'), T) ∧
      Joins g g' fun i e => ∃ range ∈ ranges, g.Throws range i e := by
    intro ranges
    induction ranges with
    | nil => exact fun g _ => ⟨g, rfl, (Joins.refl g).congr fun i e => by simp⟩
    | cons range ranges ih =>
      intro g hmode
      have hone := joins_throwTo g range
      obtain ⟨g', hrun, hjoins⟩ := ih (g.throwTo range) (hone.mode.trans hmode)
      refine ⟨g', ?_, (hone.trans hjoins).congr fun i e => ?_⟩
      · rw [List.forIn_cons, bind_assoc, bind_apply₂, addHandlerEdges_heights hmode]
        exact hrun
      · simp only [List.mem_cons, exists_eq_or_imp, hone.lines.throws_iff]
  obtain ⟨g', hrun, hjoins⟩ := hlist g.handlers.toList g hmode
  refine ⟨g', ?_, hjoins⟩
  unfold addAllHandlerEdges
  simp only [bind_pure_unit]
  exact hrun

/-! ## 4. The greatest height -/

/-- The greatest height is searched for when all edges to handlers are there. -/
theorem computeMaxStack_of_edges (hrun : addAllHandlerEdges g.closeHeights T = ((.ok (), g'), T')) :
    computeMaxStack g T =
      ((.ok (writtenHeight g'.searchHeights.2.toInt), g'.searchHeights.1), T') := by
  unfold computeMaxStack
  rw [bind_apply₂]
  show (do
    addAllHandlerEdges
    let greatest ← modifyGet fun g => (g.searchHeights.2, g.searchHeights.1)
    return writtenHeight greatest.toInt : GraphM UInt16) g.closeHeights T = _
  rw [bind_apply₂, hrun]
  rfl

/-- All labels of handlers have been placed. -/
def HandlersPlaced (r : Routine) : Prop :=
  ∀ range ∈ r.handlers, ∀ l ∈ [range.start, range.stop, range.handler], ∃ t, (l, t) ∈ r.places

section Search

variable (h : Lined r s chain g) (hd : Drawn r s g)
  (hsorted : r.places.Pairwise fun p q => p.2 ≤ q.2) {range : HandlerRange}

include h hd hsorted

/-- **Along an edge to a handler.** -/
theorem Lined.enters_thrown (hrange : range ∈ r.handlers) (hplaced : HandlersPlaced r)
    (hends : r.EndsFirst) {H : Int} {e : Edge} (hi : Enters r s g i H) (he : g.Throws range i e) :
    Enters r s g e.successor 1 := by
  obtain ⟨hpos, hmem, -, rfl⟩ := he
  have hlabel : ∀ l ∈ [range.start, range.stop, range.handler],
      ∃ t i, (l, t) ∈ r.places ∧ g.labels.get? l = some i ∧ Begins s g i t := fun l hl =>
    have ⟨t, ht⟩ := hplaced range hrange l hl
    have ⟨i, hi, hbegins⟩ := hd.label l t ht
    ⟨t, i, ht, hi, hbegins⟩
  obtain ⟨a, i₁, ha, hi₁, hbegins₁⟩ := hlabel range.start (by simp)
  obtain ⟨b, i₂, hb, hi₂, hbegins₂⟩ := hlabel range.stop (by simp)
  obtain ⟨t, j, ht, hj, hbegins⟩ := hlabel range.handler (by simp)
  rw [h.firstOf_eq hi₁, h.firstOf_eq hi₂] at hpos hmem
  have hab : a < b := by
    rcases Nat.lt_trichotomy a b with hlt | rfl | hlt
    · exact hlt
    · have := Option.some.inj (hbegins₁.offset.symm.trans hbegins₂.offset)
      omega
    · have := hd.offset_lt hlt hbegins₂.offset hbegins₁.offset
      omega
  obtain ⟨k, hk, hak, hkb⟩ :=
    h.begins_of_mem_range hd hsorted ha hb hi₁ hi₂ (hends range hrange) hab hmem
  obtain ⟨k', hk', hreaches⟩ := hi
  obtain rfl := hd.begins_unique hk' hk
  rw [h.firstOf_eq hj]
  exact ⟨t, hbegins, hreaches.throw hrange ha hb hak hkb ht⟩

/-- **From each instruction that a handler covers** there is an edge to it. -/
theorem Lined.throws_of_row {a b t k : Nat} {x : Int} (ha : (range.start, a) ∈ r.places)
    (hb : (range.stop, b) ∈ r.places) (ht : (range.handler, t) ∈ r.places) (hak : a ≤ k) (hkb : k < b)
    (hrow : s.rows[k]? = some (some (i, x))) :
    ∃ j, g.labels.get? range.handler = some j ∧ g.Throws range i ⟨.thrown, j⟩ := by
  obtain ⟨i₁, hi₁, hbegins₁⟩ := hd.label _ _ ha
  obtain ⟨i₂, hi₂, hbegins₂⟩ := hd.label _ _ hb
  obtain ⟨j, hj, -⟩ := hd.label _ _ ht
  refine ⟨j, hj, ?_⟩
  unfold Throws
  rw [h.firstOf_eq hi₁, h.firstOf_eq hi₂, h.firstOf_eq hj]
  exact ⟨hd.offset_lt (Nat.lt_of_le_of_lt hak hkb) hbegins₁.offset hbegins₂.offset,
    h.mem_range hd hsorted ha hb hi₁ hi₂ hrow hak hkb, (hd.row k i x hrow).1.lt, rfl⟩

end Search

/-- **The greatest height that is found** bounds the stack. -/
theorem Lined.computeMaxStack_below (h : Lined r s chain g) (hd : Drawn r s g)
    (hhandlers : g.handlers.toList = r.handlers)
    (hsorted : r.places.Pairwise fun p q => p.2 ≤ q.2) (htargets : r.TargetsPlaced)
    (hplaced : HandlersPlaced r) (hends : r.EndsFirst) (hcovered : r.Covered)
    (hheld : r.Below (2 ^ 31 - 1)) (hsteady : r.Steady) (T : TypeTable) :
    ∃ greatest g', computeMaxStack g T = ((.ok (writtenHeight greatest), g'), T) ∧
      r.Below greatest := by
  obtain ⟨hline, hclose⟩ := h.closeHeights
  obtain ⟨g₂, hrun, hjoins⟩ := joins_addAllHandlerEdges hclose.frameless.mode T
  have hsize : g₂.blocks.size = g.blocks.size := hjoins.lines.size.trans hline.size
  -- the edges of the graph that is searched are those that are drawn, and those to handlers
  have hedges : ∀ i e, e ∈ edgesAt g₂.blocks i ↔
      e ∈ edgesAt g.blocks i ∨ ∃ range ∈ r.handlers, g.Throws range i e := by
    intro i e
    have hsame : g.closeHeights.handlers = g.handlers := by
      unfold BlockGraph.closeHeights
      split <;> rfl
    rw [hjoins.edges, edgesAt_closeHeights, hsame, hhandlers]
    simp only [hline.throws_iff]
  have hpeak : ∀ i, peakAt g₂.blocks i = .ofInt (g.peakOf i) := fun i => by
    rw [hjoins.peak, ← h.peakAt_closeHeights, Int32.ofInt_toInt]
  obtain ⟨found, hentry, hfound⟩ := searchHeights_spec
    (P := fun i height => ∃ H : Int, height = .ofInt H ∧ Enters r s g i H)
    (hjoins.unsearched hclose.unsearched) (hsize ▸ hd.entry.placed.lt)
    ⟨0, rfl, 0, hd.entry, .entry⟩
    (by
      rintro i height ⟨H, rfl, hi⟩ e he
      rcases (hedges i e).1 he with he | ⟨range, hrange, he⟩
      · obtain ⟨above, hkind⟩ := (h.edges i e he).1
        obtain ⟨a, ha, hpasses⟩ := hd.edge i e he (.inr ⟨above, hkind⟩)
        rw [Leaves, hkind] at ha
        subst ha
        exact ⟨H + a, Edge.entering_ofInt hkind H, hd.enters htargets hi hpasses⟩
      · have henters := h.enters_thrown hd hsorted hrange hplaced hends hi he
        obtain ⟨-, -, -, rfl⟩ := he
        exact ⟨1, rfl, henters⟩)
  refine ⟨g₂.searchHeights.2.toInt, g₂.searchHeights.1, computeMaxStack_of_edges hrun,
    hd.below hcovered hheld hsteady (fun i H => found i (.ofInt H) ∧ Enters r s g i H)
      ⟨0, hentry, 0, hd.entry, .entry⟩ ⟨?_, ?_⟩ ?_ (fun i H hi => hi.2) ?_⟩
  · rintro i ⟨H, hi, -⟩ e he
    obtain ⟨height, hsucc⟩ :=
      (hfound i _ hi).2.2 e ((hedges i e).2 (.inl he)) (hsize ▸ (h.edges i e he).2)
    obtain ⟨H', rfl, henters⟩ := (hfound _ _ hsucc).1
    exact ⟨H', hsucc, henters⟩
  · intro i j _ hj
    rw [h.plain i] at hj
    exact nomatch hj
  · rintro range hrange a b t ha hb ht k i x hak hkb hrow ⟨H, hi, -⟩
    obtain ⟨j, hj, hthrows⟩ := h.throws_of_row hd hsorted ha hb ht hak hkb hrow
    obtain ⟨height, hsucc⟩ := (hfound i _ hi).2.2 _ ((hedges i _).2 (.inr ⟨range, hrange, hthrows⟩))
      (hsize ▸ h.label_lt _ j hj)
    obtain ⟨H', rfl, henters⟩ := (hfound _ _ hsucc).1
    exact ⟨j, hj, H', hsucc, henters⟩
  · rintro i H ⟨hi, henters⟩
    obtain ⟨hH, -⟩ := henters.held hcovered hheld
    obtain ⟨hpos, hlt⟩ := hd.peak_held hcovered hheld henters
    have hle := (hfound i _ hi).2.1
    rwa [hpeak, ← Int32.ofInt_add, Int32.toInt_ofInt_of_le (by omega) hlt] at hle

end BlockGraph

end ClassFile
