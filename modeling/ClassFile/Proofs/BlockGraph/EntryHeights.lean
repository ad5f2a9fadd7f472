/-
# Heights on entry of blocks

Where there are frames, inference gives each block that control gets to the slots on its entry.  Along an
edge, the stack of the next block is as high as it is at the end of the block in front of it
(`Frame.length_outflow`), and that of a handler has one slot.  So the machine enters a block with just as many
slots, and what is given for the greatest height is no less than any height in a block that has been followed
(`EntryHeights`).

When nothing is pending any more, all blocks that control gets to have been followed.  So the height that
inference gives bounds the stack (`Framed.infer_below`), as that of the search does where there are only
heights.
-/
import ClassFile.Proofs.BlockGraph.Framed
import ClassFile.Proofs.BlockGraph.Guarded
import ClassFile.Proofs.Frame.Designated

namespace ClassFile

/-! ## 1. Stacks along edges -/

namespace Frame

/-- **The stack at the end of a block** is as high as on entry, and what has been put on it comes on top. -/
theorem length_outflow {className : String} {f : Frame} {out : Outflow} {T T' : TypeTable}
    (htaken : f.taken ≤ f.entrySlots.stack.size) (hroom : f.entrySlots.stack.size < 2 ^ 31)
    (hret : Returns (f.outflow className none) T out T') :
    (out.stack.length : Int) = f.entrySlots.stack.size + f.net := by
  obtain ⟨locals, T₁, -, hret⟩ := returns_bind.1 hret
  obtain ⟨stack, T₂, hstack, hret⟩ := returns_bind.1 hret
  obtain ⟨rfl, -⟩ := returns_pure.1 hret
  rw [exitStack_eq className (kept_eq htaken hroom)] at hstack
  have hlength : stack.length = f.whole.length := length_of_returns_mapM hstack
  dsimp only
  rw [hlength, whole, net, List.length_append, List.length_take, Array.length_toList, Array.length_toList]
  omega

/-- Heights are those of the effect. -/
theorem same_of_effect {f f' : Frame} (h : f'.effect = f.effect) :
    f'.taken = f.taken ∧ f'.peak = f.peak ∧ f'.net = f.net := by
  have htaken : f'.effect.taken = f.effect.taken := by rw [h]
  have hpeak : f'.effect.peak = f.effect.peak := by rw [h]
  have hnet : f'.effect.net = f.effect.net := by rw [h]
  exact ⟨htaken, hpeak, hnet⟩

end Frame

namespace BlockGraph

variable {r : Routine} {s : Sketch} {g g' : BlockGraph} {st st' : Inference} {start : Array Block}
  {context : MethodContext} {T T' : TypeTable} {f : Frame} {e : Edge} {i j : BlockId} {H : Int}
  {placed named : Label → Prop} {p : Nat}

/-! ## 2. While blocks are followed -/

/-- **The machine enters each block with as many slots as it is given**, and what has been followed is
no higher than the greatest height so far. -/
structure EntryHeights (r : Routine) (s : Sketch) (g : BlockGraph) (st : Inference) : Prop where
  enters : ∀ i entry, entryAt st.blocks i = some entry → Enters r s g i entry.stack.size
  greatest : ∀ i f, frameAt st.blocks i = some f → f.isReached = true → i ∉ st.pending →
    (Int32.ofNat (f.entrySlots.stack.size + f.peak)).toNatClampNeg ≤ st.greatest

theorem entrySlots_of_entryAt {blocks : Array Block} {entry : Slots} (hf : frameAt blocks i = some f)
    (hentry : entryAt blocks i = some entry) : f.entry = some entry ∧ f.entrySlots = entry := by
  have hf' : f.entry = some entry := by rwa [entryAt, hf, Option.bind_some] at hentry
  exact ⟨hf', by rw [Frame.entrySlots, hf', Option.getD_some]⟩

/-- A block is visited. -/
theorem EntryHeights.visit {blocks : Array Block} {pending : List BlockId} {greatest : Nat}
    (h : EntryHeights r s g ⟨blocks, i :: pending, greatest⟩) (hf : frameAt blocks i = some f) :
    EntryHeights r s g ⟨blocks.modify i markVisited, pending,
      max greatest (Int32.ofNat (f.entrySlots.stack.size + f.peak)).toNatClampNeg⟩ where
  enters j entry hentry := h.enters j entry (by rwa [entryAt_markVisited] at hentry)
  greatest j f' hf' hreached hj := by
    rw [frameAt_markVisited] at hf'
    by_cases hji : j = i
    · subst hji
      obtain rfl := Option.some.inj (hf.symm.trans hf')
      exact le_max_right _ _
    · exact (h.greatest j f' hf' hreached fun hmem => hj ((List.mem_cons.1 hmem).resolve_left hji)).trans
        (le_max_left _ _)

/-- **An edge is followed** from a block with this frame. -/
theorem EntryHeights.follow (h : EntryHeights r s g st) (hx : Explored start st) (hi : Reaches start i)
    (he : e ∈ edgesAt start i)
    (hout : ∀ out T₁, Returns (f.outflow context.className (Inference.caught e)) T out T₁ →
      Enters r s g (targetOf start e) out.stack.length)
    (hrun : Returns (Inference.follow context f e st) T st' T') : EntryHeights r s g st' := by
  obtain ⟨b, old, hlt, hb, hbf⟩ := hx.target (hx.successor_lt i e he)
  have htarget : targetOf st.blocks e = targetOf start e := hx.outline.targetOf_eq e
  obtain ⟨rm, hm, hst⟩ := follow_cases (htarget ▸ hb) hbf hrun
  rcases rm with err | ⟨changed, merged⟩
  · exact nomatch hst
  obtain ⟨slots, rfl, hfirst⟩ := Frame.mergeInto_enters hm
  have hl : Lands start st (targetOf start e) b old changed slots :=
    ⟨hx, hlt, hb, hbf, .edge hi he, hfirst⟩
  cases Except.ok.inj hst
  rw [htarget]
  refine ⟨fun j entry hentry => ?_, fun j f' hf' hreached hj => ?_⟩
  · rw [hl.entryAt_land] at hentry
    split at hentry
    · rename_i htj
      obtain rfl := Option.some.inj hentry
      obtain ⟨out, T₁, houtflow, hsize⟩ := Frame.mergeInto_stack hm
      rw [← htj, hsize]
      cases hold : old.entry with
      | none => exact hout out T₁ houtflow
      | some before => exact h.enters _ before (hl.entryAt_eq.trans hold)
    · exact h.enters j entry hentry
  · rw [hl.spreads.kept j hj] at hf'
    exact h.greatest j f' hf' hreached fun hmem => hj (hl.spreads.waits j hmem)

/-! ## 3. In drawn graphs -/

/-- Other names for a block begin with it. -/
theorem Tidy.enters_first_iff (ht : Tidy g) : Enters r s g (g.first i) H ↔ Enters r s g i H := by
  cases halias : aliasAt g.blocks i with
  | none => rw [first, follow_of_first halias]
  | some j =>
    obtain ⟨hi, hj, hposition⟩ := ht.sameAs i j halias
    rw [first, follow_of_alias halias hj.first]
    have hbegins : ∀ k, Begins s g j k ↔ Begins s g i k := fun k =>
      ⟨fun hk => ⟨hi, hposition ▸ hk.offset⟩, fun hk => ⟨ht.placed j hj, hposition.symm ▸ hk.offset⟩⟩
    simp only [Enters, hbegins]

/-- Nothing comes in a block under another name. -/
theorem Tidy.peakOf_le_first (ht : Tidy g) (hmode : g.mode = .frames) (i : BlockId)
    (hpos : 0 ≤ g.peakOf (g.first i)) : g.peakOf i ≤ g.peakOf (g.first i) := by
  cases halias : aliasAt g.blocks i with
  | none => rw [first, follow_of_first halias]
  | some j =>
    have hnot : ¬ g.Passed i := fun hi => Option.some_ne_none j (halias.symm.trans hi.first)
    rwa [peakOf_eq_zero hmode (ht.unused i hnot)]

/-- A block begins with one of its instructions, or in front of the next one. -/
theorem Drawn.exists_begins (hd : Drawn r s g) {a : Int} {k : Nat} (hk : Gets r s g i a k) :
    ∃ k₀, k₀ ≤ k ∧ Begins s g i k₀ := by
  induction k generalizing a with
  | zero =>
    cases hk with
    | start hk => exact ⟨0, Nat.le_refl 0, hk⟩
  | succ k ih =>
    cases hk with
    | start hk => exact ⟨k + 1, Nat.le_refl _, hk⟩
    | next hk ho hu hfalls =>
      obtain ⟨k₀, hle, hbegins⟩ := ih (hd.row k i _ hk).2
      exact ⟨k₀, Nat.le_succ_of_le hle, hbegins⟩

/-- The block of a placed label. -/
theorem Framed.sited (hf : Framed r s g) (hd : Drawn r s g) {l : Label} {k : Nat}
    (hl : (l, k) ∈ r.places) : ∃ j offset, g.Sited l j offset ∧ s.offsets[k]? = some offset := by
  obtain ⟨i, hi, hbegins⟩ := hd.label l k hl
  obtain ⟨j, hj⟩ := hf.standsAt hbegins.placed
  exact ⟨j, _, ⟨i, hi, hj⟩, hbegins.offset⟩

/-- Instructions in order are at ascending offsets. -/
theorem Drawn.le_of_offset_le (hd : Drawn r s g) {m n a b : Nat} (hm : s.offsets[m]? = some a)
    (hn : s.offsets[n]? = some b) (hab : a ≤ b) : m ≤ n := by
  by_contra hlt
  exact absurd (hd.offset_lt (Nat.not_le.1 hlt) hn hm) (Nat.not_lt.2 hab)

section Drawn

variable (hf : Framed r s g) (hd : Drawn r s g) (hc : Charted placed named p g)

include hf hd hc

/-- **From a block that a handler covers**, the machine gets to the handler. -/
theorem Framed.enters_caught (hplaced : HandlersPlaced r) {range : HandlerRange}
    (hrange : range ∈ r.handlers) (hi : Enters r s g i H) (hcovers : g.Covers range i) :
    Enters r s g (g.firstOf range.handler) 1 := by
  obtain ⟨a, ha⟩ := hplaced range hrange range.start (by simp)
  obtain ⟨b, hb⟩ := hplaced range hrange range.stop (by simp)
  obtain ⟨t, ht⟩ := hplaced range hrange range.handler (by simp)
  obtain ⟨j₁, x, hstart, hx⟩ := hf.sited hd ha
  obtain ⟨j₂, y, hstop, hy⟩ := hf.sited hd hb
  obtain ⟨-, hxi, hiy⟩ := (hc.covers_iff hstart hstop).1 hcovers
  obtain ⟨k, hbegins, hreaches⟩ := hi
  obtain ⟨j, hj, hhandler⟩ := hd.label _ t ht
  have hak : a ≤ k := hd.le_of_offset_le hx hbegins.offset hxi
  have hkb : k < b := by
    by_contra hbk
    rcases Nat.lt_or_eq_of_le (Nat.not_lt.1 hbk) with hlt | rfl
    · exact absurd (hd.offset_lt hlt hy hbegins.offset) (Nat.not_lt.2 (Nat.le_of_lt hiy))
    · rw [Option.some.inj (hy.symm.trans hbegins.offset)] at hiy
      exact absurd hiy (Nat.lt_irrefl _)
  rw [firstOf, hj]
  exact hf.enters_first_iff.2 ⟨t, hhandler, hreaches.throw hrange ha hb hak hkb ht⟩

/-- **A handler covers the block of each instruction between its labels.** -/
theorem Framed.covers_row {range : HandlerRange} {a b k : Nat} {x : Int}
    (ha : (range.start, a) ∈ r.places) (hb : (range.stop, b) ∈ r.places) (hak : a ≤ k) (hkb : k < b)
    (hrow : s.rows[k]? = some (some (i, x))) : g.Covers range i := by
  obtain ⟨j₁, y, hstart, hy⟩ := hf.sited hd ha
  obtain ⟨j₂, z, hstop, hz⟩ := hf.sited hd hb
  obtain ⟨k₀, hle, hbegins⟩ := hd.exists_begins (hd.row k i x hrow).2
  refine (hc.covers_iff hstart hstop).2 ⟨hc.mem_chain (hf.rows k i x hrow), ?_, ?_⟩
  · exact hf.order _ a ha k i x y hak hrow hy
  · exact hd.offset_lt (Nat.lt_of_le_of_lt hle hkb) hbegins.offset hz

omit hc in
/-- A frame takes no more slots than there are on entry. -/
theorem Framed.taken_le (hcovered : r.Covered) (hframe : frameAt g.blocks i = some f)
    (hH : 0 ≤ H) (hi : Enters r s g i H) : (f.taken : Int) ≤ H := by
  refine hf.depth i f hframe H hH fun k a o u hk ho hu => ?_
  have := hcovered k _ o u (hd.reaches hi (hd.row k i a hk).2) ho hu
  omega

end Drawn

/-! ## 4. While inference goes on -/

/-- The blocks of a graph, with all edges to handlers. -/
structure Wired (r : Routine) (g : BlockGraph) (start : Array Block) : Prop where
  size : start.size = g.blocks.size
  frames : ∀ i f, frameAt g.blocks i = some f → ∃ f', frameAt start i = some f' ∧ f'.effect = f.effect
  edges : ∀ i, ∀ e ∈ edgesAt g.blocks i, e ∈ edgesAt start i
  caught : ∀ range ∈ r.handlers, ∀ i < g.blocks.size, g.Covers range i →
    ∃ e ∈ edgesAt start i, e.successor = g.firstOf range.handler
  sent : ∀ i, ∀ e ∈ edgesAt start i, e ∈ edgesAt g.blocks i ∨ ∃ range ∈ r.handlers,
    g.Covers range i ∧ (∃ t, e.kind = .caught t) ∧ e.successor = g.firstOf range.handler
  target : ∀ e, targetOf start e = g.first e.successor

theorem Joined.wired {g₁ : BlockGraph} {T₁ : TypeTable} (hjoined : Joined g g₁)
    (hgains : g.Gains g₁ T₁ r.handlers) (hstart : SameOutline g₁.blocks start) : Wired r g start where
  size := hstart.size_eq.trans hjoined.lines.size
  frames i f hframe := hstart.frameAt ((hjoined.frames i).trans hframe)
  edges i e he := (hstart.edgesAt_eq i).symm ▸ hjoined.edges i e he
  caught range hrange i hi hcovers := by
    obtain ⟨t, -, he⟩ := hgains.guards hrange i hi hcovers
    exact ⟨_, (hstart.edgesAt_eq i).symm ▸ he, rfl⟩
  sent i e he := by
    obtain ⟨es, hedges, hes⟩ := hgains i
    rw [hstart.edgesAt_eq, hedges] at he
    refine (List.mem_append.1 he).imp id fun he => ?_
    obtain ⟨range, hrange, t, -, rfl⟩ := exists_of_forall₂ hes he
    obtain ⟨hmem, hcovers⟩ := List.mem_filter.1 hrange
    exact ⟨range, hmem, of_decide_eq_true hcovers, ⟨_, rfl⟩, rfl⟩
  target e := (hstart.targetOf_eq e).trans (hjoined.lines.first_eq e.successor)

section Inference

variable (hf : Framed r s g) (hd : Drawn r s g) (hc : Charted placed named p g) (hg : g.WellBuilt T)
  (hw : Wired r g start) (htargets : r.TargetsPlaced) (hplaced : HandlersPlaced r)
  (hcovered : r.Covered) (hheld : r.Below (2 ^ 31 - 1))

include hf hd hc hw htargets hplaced hcovered hheld

/-- **Along an edge** the machine enters the next block as high as the stack is that comes along it. -/
theorem Framed.enters_along {f' : Frame} {out : Outflow} {T₁ T₂ : TypeTable} {className : String}
    (hframe : frameAt g.blocks i = some f) (heffect : f'.effect = f.effect)
    (hi : Enters r s g i f'.entrySlots.stack.size) (he : e ∈ edgesAt start i)
    (hout : Returns (f'.outflow className (Inference.caught e)) T₁ out T₂) :
    Enters r s g (targetOf start e) out.stack.length := by
  rw [hw.target]
  refine hf.enters_first_iff.2 ?_
  rcases hw.sent i e he with he | ⟨range, hrange, hcovers, ⟨t, hkind⟩, hsuccessor⟩
  · have hkind := hf.normal i e he
    obtain ⟨a, hleaves, hpasses⟩ := hd.edge i e he (.inl hkind)
    obtain ⟨hH, hH'⟩ := hi.held hcovered hheld
    have htaken := hf.taken_le hd hcovered hframe hH hi
    obtain ⟨hsame, -, hnet⟩ := Frame.same_of_effect heffect
    rw [Leaves, hkind] at hleaves
    obtain ⟨f₀, hf₀, rfl⟩ := Option.map_eq_some_iff.1 hleaves
    obtain rfl := Option.some.inj (hframe.symm.trans hf₀)
    have hnone : Inference.caught e = none := by rw [Inference.caught, hkind]
    rw [hnone] at hout
    rw [Frame.length_outflow (by omega) (by omega) hout, hnet]
    exact hd.enters htargets hi hpasses
  · have hcaught : Inference.caught e = some t := by rw [Inference.caught, hkind]
    rw [hcaught] at hout
    rw [Frame.outflow_caught hout, hsuccessor]
    exact hf.enters_caught hd hc hplaced hrange hi hcovers

include hg

/-- **Inference keeps heights**, wherever it stops. -/
theorem Framed.entryHeights {locals : Array SlotType} {limit : Nat} {T₁ T₂ : TypeTable}
    (hcomplete : Complete start ⟨start, [0], 0⟩)
    (hentry : ∀ j, entryAt start j = if 0 = j then some ⟨locals, #[]⟩ else none)
    (hrun : Returns (Inference.run context limit ⟨start, [0], 0⟩) T₁ st T₂) : EntryHeights r s g st := by
  refine hcomplete.run_keeps (P := EntryHeights r s g)
    (Q := fun i f' => Enters r s g i f'.entrySlots.stack.size ∧
      ∃ f, frameAt g.blocks i = some f ∧ f'.effect = f.effect)
    (fun blocks i pending greatest f' hb h hf' => ⟨?_, h.visit hf'⟩)
    (fun i f' e st st' T T' hx hi he hQ h hrun => ?_) ⟨fun j entry hj => ?_, fun j f' hf' hreached hj => ?_⟩
    hrun
  · obtain ⟨entry, hi⟩ := Option.isSome_iff_exists.1 (hb.pending_reached i List.mem_cons_self)
    refine ⟨(entrySlots_of_entryAt hf' hi).2 ▸ h.enters i entry hi, ?_⟩
    obtain ⟨f, hframe⟩ := hg.exists_frame (hw.size ▸ hb.pending_lt i List.mem_cons_self)
    obtain ⟨f₁, hf₁, heffect₁⟩ := hw.frames i f hframe
    obtain ⟨f₂, hf₂, heffect₂⟩ := hb.outline.frameAt hf₁
    obtain rfl := Option.some.inj (hf₂.symm.trans hf')
    exact ⟨f, hframe, heffect₂.trans heffect₁⟩
  · obtain ⟨henters, f, hframe, heffect⟩ := hQ
    exact h.follow hx hi he (fun out T₁ hout =>
      hf.enters_along hd hc hw htargets hplaced hcovered hheld hframe heffect henters he hout) hrun
  · rw [hentry] at hj
    split at hj
    · rename_i hzero
      obtain rfl := Option.some.inj hj
      exact hzero ▸ ⟨0, hd.entry, .entry⟩
    · exact nomatch hj
  · obtain ⟨entry, hj'⟩ := Option.isSome_iff_exists.1 hreached
    have hreachedIn : entryAt start j = some entry := by rw [entryAt, hf', Option.bind_some, hj']
    rw [hentry] at hreachedIn
    split at hreachedIn
    · rename_i hzero
      exact absurd (hzero ▸ List.mem_cons_self) hj
    · exact nomatch hreachedIn

end Inference

/-- **The greatest height that inference gives** bounds the stack. -/
theorem Framed.infer_below (hT : T.Sound context.hierarchy) (hg : g.WellBuilt T)
    (hc : Charted placed named p g) (hd : Drawn r s g) (hf : Framed r s g)
    (hhandlers : g.handlers.toList = r.handlers) (htargets : r.TargetsPlaced) (hplaced : HandlersPlaced r)
    (hcovered : r.Covered) (hheld : r.Below (2 ^ 31 - 1)) (hsteady : r.Steady)
    {answer : UInt16 × List SlotType} (hrun : BlockGraph.infer context g T = ((.ok answer, g'), T'))
    (hended : context.hierarchy.Rooted ∨ Finished g'.blocks) :
    ∃ greatest : Int, answer.1 = writtenHeight greatest ∧ r.Below greatest := by
  have hfinished : Finished g'.blocks := hended.elim (fun hr => hg.infer_done hr hT hrun) id
  obtain ⟨g₁, T₁, f, locals, T₂, limit, st, hedges, hf₀, hlocals, hsettle, rfl, rfl⟩ := infer_parts hrun
  obtain ⟨hs₁, -, hg₁⟩ := hg.addAllHandlerEdges hT hedges
  obtain ⟨-, hjoined, hgains⟩ := hc.addAllHandlerEdges_exact hT hg hedges
  obtain ⟨-, hle₂, -⟩ := Frame.tame_methodLocals context.className context.access context.name
    context.descriptor context.maxLocals T₁ hs₁ trivial _ T₂ hlocals
  obtain ⟨f', hf'⟩ := hg₁.frame_zero
  obtain rfl : f' = f := by rwa [hf', Option.getD_some] at hf₀
  have hw : Wired r g (entered g₁.blocks f' locals) :=
    hjoined.wired (hhandlers ▸ hgains) (sameOutline_entered hf' locals)
  have hstart : Complete (entered g₁.blocks f' locals) _ := (hg₁.later hle₂).complete
  have hend := hstart.run hsettle
  have hdone := hfinished.pending_eq_nil hend
  have hheights := hf.entryHeights hd hc hg hw htargets hplaced hcovered hheld hstart
    hg₁.entryAt_entered hsettle
  have hentered : ∀ i H, (∃ entry, entryAt st.blocks (g.first i) = some entry ∧
      (entry.stack.size : Int) = H) → Enters r s g i H := by
    rintro i H ⟨entry, hentry, rfl⟩
    exact hf.enters_first_iff.1 (hheights.enters _ entry hentry)
  -- what control gets to along edges
  have hnext : ∀ i e, ReachedIn st.blocks i → e ∈ edgesAt (entered g₁.blocks f' locals) i →
      ∃ H : Int, ∃ entry, entryAt st.blocks (g.first e.successor) = some entry ∧
        (entry.stack.size : Int) = H := by
    intro i e hi he
    obtain ⟨entry, hentry⟩ := Option.isSome_iff_exists.1
      (hend.followed i hi (hdone ▸ List.not_mem_nil) e he)
    exact ⟨_, entry, hw.target e ▸ hentry, rfl⟩
  have hself : ∀ {i}, g.Passed i → g.first i = i := fun hi => follow_of_first hi.first _
  refine ⟨st.greatest, rfl, hd.below hcovered hheld hsteady
    (fun i H => ∃ entry, entryAt st.blocks (g.first i) = some entry ∧ (entry.stack.size : Int) = H)
    ?_ ⟨fun i ⟨H, entry, hentry, _⟩ e he => ?_, fun i j ⟨H, hi⟩ hj => ?_⟩ ?_ hentered ?_⟩
  · obtain ⟨chain, hchain⟩ := hc.chained
    have hzero : g.first 0 = 0 := follow_of_first (hchain.first 0 (List.mem_of_mem_head? hchain.head)) _
    obtain ⟨entry, hentry⟩ := Option.isSome_iff_exists.1 hend.entry
    exact ⟨_, entry, hzero.symm ▸ hentry, rfl⟩
  · have hi : g.Passed i := by
      by_contra hnot
      rw [hf.bare i hnot] at he
      exact absurd he List.not_mem_nil
    rw [hself hi] at hentry
    exact hnext i e (Option.isSome_iff_exists.2 ⟨entry, hentry⟩) (hw.edges i e he)
  · refine ⟨H, ?_⟩
    obtain ⟨-, hpassed, -⟩ := hf.sameAs i j hj
    rw [hself hpassed]
    rwa [first, follow_of_alias hj hpassed.first] at hi
  · rintro range hrange a b t ha hb ht k i x hak hkb hrow ⟨H, entry, hentry, -⟩
    obtain ⟨j, hj, -⟩ := hd.label _ t ht
    have hi := hf.rows k i x hrow
    rw [hself hi] at hentry
    obtain ⟨e, he, hsuccessor⟩ := hw.caught range hrange i hi.lt (hf.covers_row hd hc ha hb hak hkb hrow)
    have hfirst : g.first (g.firstOf range.handler) = g.first j := by
      rw [hc.first_firstOf hg, firstOf, hj]
      rfl
    obtain ⟨H', hH'⟩ := hnext i e (Option.isSome_iff_exists.2 ⟨entry, hentry⟩) he
    rw [hsuccessor, hfirst] at hH'
    exact ⟨j, hj, H', hH'⟩
  · rintro i H ⟨entry, hentry, rfl⟩
    obtain ⟨f₁, hf₁, hfe⟩ := Option.bind_eq_some_iff.1 hentry
    have hslots := (entrySlots_of_entryAt hf₁ hentry).2
    have hle := hheights.greatest _ f₁ hf₁ (by rw [Frame.isReached, hfe]; rfl) (hdone ▸ List.not_mem_nil)
    obtain ⟨hpos, hlt⟩ := hd.peak_held hcovered hheld (hheights.enters _ entry hentry)
    obtain ⟨f₂, hf₂⟩ := hg.exists_frame (i := g.first i) (by
      rw [← hw.size, ← hend.outline.size_eq]
      exact lt_of_frameAt (g := { g with blocks := st.blocks }) hf₁)
    have hpeak : (f₁.peak : Int) = g.peakOf (g.first i) := by
      obtain ⟨f₃, hf₃, heffect⟩ := hw.frames _ f₂ hf₂
      obtain ⟨f₄, hf₄, heffect'⟩ := hend.outline.frameAt hf₃
      obtain rfl := Option.some.inj (hf₄.symm.trans hf₁)
      rw [peakOf_of_frameAt hg.mode hf₂, (Frame.same_of_effect (heffect'.trans heffect)).2.1]
    have hfirst := hf.peakOf_le_first hg.mode i hpos
    rw [hslots, Int32.toNatClampNeg_ofNat_of_lt (by omega)] at hle
    omega

end BlockGraph

end ClassFile
