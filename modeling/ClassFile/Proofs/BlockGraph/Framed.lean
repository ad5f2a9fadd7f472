/-
# Graphs with frames as they are drawn

Where there are frames, instructions come only in blocks of the chain, and any other block is empty: that
of a label that has not been placed, and one that is another name (`Tidy`).  So a block that starts is
empty, and the stack in it begins at its height on entry, also if it is another name for the last block.

A block is left at each jump, and may be left behind a store.  What it leaves behind is drawn like a block
that starts (`Puts.starts`).  Besides, a frame never says that more slots of those on entry have been taken
than its instructions need, and a block of an instruction begins behind each label in front of it (`Framed`).
-/
import ClassFile.Proofs.BlockGraph.FrameStep
import ClassFile.Proofs.BlockGraph.Placing

namespace ClassFile.BlockGraph

variable {r : Routine} {s : Sketch} {g g' g'' : BlockGraph} {c i j k : BlockId} {l : Label} {e : Edge}
  {f f' : Frame} {T T' : TypeTable} {placed named : Label → Prop} {p position : Nat} {same falls : Bool}

/-! ## 1. Blocks that are empty -/

/-- **Blocks of the chain have their places, and all others are empty.**  If control does not get to what
comes next, the last block is empty as well. -/
structure Tidy (g : BlockGraph) : Prop where
  unused : ∀ i, ¬ g.Passed i → ∀ f, frameAt g.blocks i = some f → f = .empty
  bare : ∀ i, ¬ g.Passed i → edgesAt g.blocks i = []
  idle : g.current = none → ∀ f, frameAt g.blocks g.last = some f → f = .empty
  placed : ∀ i, g.Passed i → g.IsPlaced i
  unplaced : ∀ i, g.Fresh i → ¬ g.IsPlaced i
  sameAs : ∀ i j, aliasAt g.blocks i = some j →
    g.IsPlaced i ∧ g.Passed j ∧ g.positionOf j = g.positionOf i
  normal : ∀ i, ∀ e ∈ edgesAt g.blocks i, e.kind = .normal

theorem tidy_start : Tidy (start .frames) where
  unused i hi f hf := by
    rcases i with _ | i
    · exact (Option.some.inj hf).symm
    · exact nomatch hf
  bare i _ := by
    rcases i with _ | i <;> rfl
  idle h := nomatch h
  placed i hi := by
    obtain rfl : i = 0 := Nat.lt_one_iff.1 hi.lt
    exact ⟨_, rfl, rfl⟩
  unplaced i hi := absurd (Nat.lt_one_iff.1 hi.lt) hi.ne_last
  sameAs i j hj := by
    rcases i with _ | i <;> exact nomatch hj
  normal i e he := by
    rcases i with _ | i <;> exact absurd he List.not_mem_nil

theorem Fresh.not_passed (hi : g.Fresh i) : ¬ g.Passed i := fun h => h.ne hi rfl

/-- What has its place has it in the chain, or is another name. -/
theorem Tidy.standsAt (ht : Tidy g) (hi : g.IsPlaced i) : ∃ k, g.StandsAt i k (g.positionOf i) := by
  cases halias : aliasAt g.blocks i with
  | some k =>
    obtain ⟨-, hk, hposition⟩ := ht.sameAs i k halias
    exact ⟨k, hk, hposition, .inr halias⟩
  | none =>
    refine ⟨i, ⟨hi.lt, halias, ?_⟩, rfl, .inl rfl⟩
    by_contra hnot
    rw [not_or, Bool.not_eq_true, Option.isSome_eq_false_iff, Option.isNone_iff_eq_none] at hnot
    exact ht.unplaced i ⟨hi.lt, hnot.1, hnot.2, halias⟩ hi

theorem SameLines.passed_iff (hl : SameLines g g') : g'.Passed i ↔ g.Passed i := by
  constructor <;> rintro ⟨hlt, hfirst, hplaced⟩
  · exact ⟨hl.size ▸ hlt, (hl.sameAs i).symm.trans hfirst, by rwa [hl.last, hl.next] at hplaced⟩
  · exact ⟨hl.size.symm ▸ hlt, (hl.sameAs i).trans hfirst, by rwa [hl.last, hl.next]⟩

/-- Another frame of the current block, and other edges from it. -/
theorem Tidy.congr (ht : Tidy g) (hled : g.Led) (hl : SameLines g g') (hcurrent : g'.current = g.current)
    (hframes : ∀ i f, frameAt g'.blocks i = some f → g.current = some i ∨ frameAt g.blocks i = some f)
    (hedges : ∀ i, ∀ e ∈ edgesAt g'.blocks i,
      g.current = some i ∧ e.kind = .normal ∨ e ∈ edgesAt g.blocks i) : Tidy g' where
  unused i hi f hf := by
    rw [hl.passed_iff] at hi
    rcases hframes i f hf with hc | hf
    · exact absurd (hled.current i hc ▸ hled.passed) hi
    · exact ht.unused i hi f hf
  bare i hi := by
    rw [hl.passed_iff] at hi
    refine List.eq_nil_iff_forall_not_mem.2 fun e he => ?_
    rcases hedges i e he with ⟨hc, -⟩ | he
    · exact hi (hled.current i hc ▸ hled.passed)
    · exact absurd (ht.bare i hi ▸ he) List.not_mem_nil
  idle h f hf := by
    rw [hcurrent] at h
    rw [hl.last] at hf
    rcases hframes _ f hf with hc | hf
    · exact nomatch h.symm.trans hc
    · exact ht.idle h f hf
  placed i hi := (hl.placed i).2 (ht.placed i (hl.passed_iff.1 hi))
  unplaced i hi := by
    rw [hl.placed]
    exact ht.unplaced i ⟨hl.size ▸ hi.lt, hl.last ▸ hi.ne_last, (hl.next i).symm.trans hi.next,
      (hl.sameAs i).symm.trans hi.first⟩
  sameAs i j hj := by
    rw [hl.placed, hl.passed_iff, hl.position, hl.position]
    exact ht.sameAs i j ((hl.sameAs i).symm.trans hj)
  normal i e he := by
    rcases hedges i e he with ⟨-, hkind⟩ | he
    · exact hkind
    · exact ht.normal i e he

/-- One more block, of which nothing is known. -/
theorem Tidy.widens (ht : Tidy g) (hlast : g.last < g.blocks.size) (hw : Widens g g') : Tidy g' where
  unused i hi f hf := by
    rw [hw.passed_iff hlast] at hi
    rcases hw.frameAt hf with hf | hf
    · exact ht.unused i hi f hf
    · exact hf
  bare i hi := (hw.edgesAt i).trans (ht.bare i fun h => hi ((hw.passed_iff hlast).2 h))
  idle h f hf := by
    rw [hw.last, hw.frameAt_lt hlast] at hf
    exact ht.idle (hw.current ▸ h) f hf
  placed i hi := (hw.isPlaced i).2 (ht.placed i ((hw.passed_iff hlast).1 hi))
  unplaced i hi hplaced := by
    rw [hw.isPlaced] at hplaced
    refine ht.unplaced i ⟨hplaced.lt, hw.last ▸ hi.ne_last, ?_, ?_⟩ hplaced
    · exact (hw.nextAt i).symm.trans hi.next
    · exact (hw.aliasAt i).symm.trans hi.first
  sameAs i j hj := by
    rw [hw.isPlaced, hw.passed_iff hlast, hw.positionOf, hw.positionOf]
    exact ht.sameAs i j ((hw.aliasAt i).symm.trans hj)
  normal i e he := ht.normal i e (hw.edgesAt i ▸ he)

/-! ## 2. Heights of frames -/

theorem heightIs_iff (hmode : g.mode = .frames) (hc : g.current = some c)
    (hf : frameAt g.blocks c = some f) {a : Int} : g.HeightIs a ↔ f.net = a := by
  rw [heightIs_of_frames hmode, hc, Option.bind_some, hf, Option.map_some, Option.getD_some]

theorem heightIs_zero (hmode : g.mode = .frames) (hc : g.current = some c)
    (hf : ∀ f, frameAt g.blocks c = some f → f.net = 0) : g.HeightIs 0 := by
  rw [heightIs_of_frames hmode, hc, Option.bind_some]
  cases hframe : frameAt g.blocks c with
  | none => rfl
  | some f => exact hf f hframe

theorem peakOf_of_frameAt (hmode : g.mode = .frames) (hf : frameAt g.blocks i = some f) :
    g.peakOf i = f.peak := by
  rw [peakOf_of_frames hmode, hf, Option.map_some, Option.getD_some]

/-- An empty block has no height. -/
theorem peakOf_eq_zero (hmode : g.mode = .frames)
    (hf : ∀ f, frameAt g.blocks i = some f → f = .empty) : g.peakOf i = 0 := by
  rw [peakOf_of_frames hmode]
  cases hframe : frameAt g.blocks i with
  | none => rfl
  | some f => rw [hf f hframe]; rfl

/-- An edge leaves a block in the same height as long as the frame is the same. -/
theorem Leaves.congr {a : Int} (h : g.Leaves i e a)
    (hf : ∀ f, frameAt g.blocks i = some f → frameAt g'.blocks i = some f) : g'.Leaves i e a := by
  unfold Leaves at h ⊢
  cases hkind : e.kind with
  | normal =>
    rw [hkind] at h
    obtain ⟨f, hframe, ha⟩ := Option.map_eq_some_iff.1 h
    exact Option.map_eq_some_iff.2 ⟨f, hf f hframe, ha⟩
  | atHeight above => rwa [hkind] at h
  | thrown => rwa [hkind] at h
  | caught t => rwa [hkind] at h

theorem lt_of_frameAt (hf : frameAt g.blocks i = some f) : i < g.blocks.size := by
  obtain ⟨b, hb, -⟩ := Option.bind_eq_some_iff.1 hf
  exact (Array.getElem?_eq_some_iff.1 hb).1

theorem WellBuilt.exists_frame (hg : g.WellBuilt T) (hi : i < g.blocks.size) :
    ∃ f, frameAt g.blocks i = some f := by
  obtain ⟨f, hf, -⟩ := (hg.blocks _ (Array.getElem_mem hi)).frame
  exact ⟨f, by rw [frameAt, Array.getElem?_eq_getElem hi, Option.bind_some, hf]⟩

/-- A block that begins where control has got to in it has no instructions yet. -/
theorem Drawn.height_of_begins (hd : Drawn r s g) {n : Nat} {a : Int} (hn : Begins s g i n)
    (hg : Gets r s g i a n) : a = 0 := by
  cases hg with
  | start _ => rfl
  | next hk _ _ _ => exact absurd (hd.begins_le (hd.row _ _ _ hk).2 hn) (Nat.not_succ_le_self _)

/-! ## 3. Labels on their first mention -/

theorem Widens.extends (hw : Widens g g') : Extends g g' where
  labels := hw.labels
  placed i hi := ⟨(hw.isPlaced i).2 hi, hw.positionOf i⟩
  edges i := by
    rw [hw.edgesAt]
    exact List.Subset.refl _
  sameAs i j hj := (hw.aliasAt i).trans hj

theorem Widens.frame_kept (hw : Widens g g') (hf : BlockGraph.frameAt g.blocks i = some f) :
    BlockGraph.frameAt g'.blocks i = some f := (hw.frameAt_lt (lt_of_frameAt hf)).trans hf

theorem Widens.mentions (hg : g.WellBuilt T) (hw : Widens g g') : Mentions g g' where
  keeps := hw.extends
  current := hw.current
  height a ha := by
    cases hc : g.current with
    | none =>
      rw [heightIs_of_frames hg.mode, hc] at ha
      rwa [heightIs_of_frames (hw.mode.trans hg.mode), hw.current, hc]
    | some c =>
      obtain ⟨f, hf⟩ := hg.exists_frame (hg.current_lt c hc)
      rw [heightIs_iff hg.mode hc hf] at ha
      rwa [heightIs_iff (hw.mode.trans hg.mode) (hw.current.trans hc) (hw.frame_kept hf)]
  sent i e he := ⟨hw.edgesAt i ▸ he, fun a ha => ha.congr fun f => hw.frame_kept⟩
  placed i hi := (hw.isPlaced i).1 hi
  peak i _ := hw.peakOf hg.mode i

/-! ## 4. Blocks that start -/

section Puts

variable (hp : Puts g g' i position same falls) (ht : Tidy g) (hi : g.Fresh i) (hled : g.Led)

include hp hi hled

theorem Puts.later (hj : g.Passed j) : g'.Passed j := by
  refine ⟨(hp.lt_iff j).2 hj.lt, ?_, ?_⟩
  · rw [hp.aliasAt hi.lt, if_neg fun h => hj.ne hi h.2.symm]
    exact hj.first
  · rw [hp.last, hp.nextAt hled.passed.lt]
    rcases hj.placed with rfl | hnext
    · cases same with
      | true => exact .inl rfl
      | false => exact .inr (by rw [if_pos ⟨rfl, rfl⟩]; rfl)
    · right
      split
      · rfl
      · exact hnext

omit hi in
/-- The only new edge is that of control that falls through. -/
theorem Puts.sent (he : e ∈ BlockGraph.edgesAt g'.blocks j) : e ∈ BlockGraph.edgesAt g.blocks j ∨
    falls = true ∧ g.current = some j ∧ e = ⟨.normal, i⟩ := by
  rw [hp.edgesAt fun c hc => hled.current c hc ▸ hled.passed.lt] at he
  split at he
  · rename_i hj
    rcases List.mem_append.1 he with he | he
    · exact .inl he
    · exact .inr ⟨hj.2.1, hj.2.2, List.mem_singleton.1 he⟩
  · exact .inl he

/-- Blocks closed under edges and names that have the new block have the last one. -/
theorem Puts.leads {V : BlockId → Prop} (hV : g'.Closed V) : (V i → V g'.last) ∧
    (falls = true → ∀ c, g.current = some c → V c → V g'.last) := by
  rw [hp.last]
  cases same with
  | false =>
    refine ⟨id, fun hfalls c hc hVc => ?_⟩
    refine hV.edge c hVc ⟨.normal, i⟩ ?_
    rw [hp.edgesAt fun c hc => hled.current c hc ▸ hled.passed.lt, if_pos ⟨rfl, hfalls, hc⟩]
    exact List.mem_append_right _ (List.mem_singleton.2 rfl)
  | true =>
    refine ⟨fun hVi => hV.sameAs i g.last hVi ?_, fun _ c hc hVc => hled.current c hc ▸ hVc⟩
    rw [hp.aliasAt hi.lt, if_pos ⟨rfl, rfl⟩]

include ht

theorem Puts.extends : Extends g g' where
  labels l j hl := hp.labels ▸ hl
  placed j hj := by
    have hne : i ≠ j := fun heq => ht.unplaced i hi (heq ▸ hj)
    exact ⟨(hp.isPlaced hi.lt j).2 (.inr hj), by rw [hp.positionOf hi.lt, if_neg hne]⟩
  edges j := by
    rw [hp.edgesAt fun c hc => hled.current c hc ▸ hled.passed.lt]
    split
    · exact List.subset_append_left _ _
    · exact List.Subset.refl _
  sameAs j k hj := by
    rw [hp.aliasAt hi.lt, if_neg, hj]
    rintro ⟨-, rfl⟩
    exact nomatch hi.first.symm.trans hj

/-- The last block starts at the position, whether it is the new one or not. -/
theorem Puts.placed_last : g'.IsPlaced g'.last ∧ g'.positionOf g'.last = position := by
  rw [hp.last]
  cases same with
  | false => exact ⟨(hp.isPlaced hi.lt i).2 (.inl rfl), by
      rw [if_neg Bool.false_ne_true, hp.positionOf hi.lt, if_pos rfl]⟩
  | true =>
    have hplaced := ht.placed _ hled.passed
    obtain ⟨hplaced', hposition⟩ := (hp.extends ht hi hled).placed _ hplaced
    exact ⟨hplaced', hposition.trans (hp.same rfl)⟩

theorem Puts.tidy (hsame : same = true → falls = true) : Tidy g' where
  unused j hj f hf := by
    rw [hp.frameAt] at hf
    exact ht.unused j (fun h => hj (hp.later hi hled h)) f hf
  bare j hj := by
    have hnot : ¬ g.Passed j := fun h => hj (hp.later hi hled h)
    rw [hp.edgesAt fun c hc => hled.current c hc ▸ hled.passed.lt, if_neg, ht.bare j hnot]
    exact fun h => hnot (hled.current j h.2.2 ▸ hled.passed)
  idle h f hf := by
    rw [hp.frameAt] at hf
    rw [hp.current] at h
    cases same with
    | true => rw [if_pos (hsame rfl)] at h; exact nomatch h
    | false =>
      rw [hp.last, if_neg Bool.false_ne_true] at hf
      exact ht.unused i hi.not_passed f hf
  placed j hj := by
    rw [hp.isPlaced hi.lt]
    rcases hp.passed hi hled.passed.lt hj with hj | ⟨rfl, -⟩
    · exact .inr (ht.placed j hj)
    · exact .inl rfl
  unplaced j hj := by
    obtain ⟨hj, hne⟩ := hp.fresh hi hled.passed.lt hj
    rw [hp.isPlaced hi.lt, not_or]
    exact ⟨Ne.symm hne, ht.unplaced j hj⟩
  sameAs j k hk := by
    have hext := hp.extends ht hi hled
    rw [hp.aliasAt hi.lt] at hk
    split at hk
    · rename_i h
      obtain ⟨rfl, rfl⟩ := h
      obtain rfl := Option.some.inj hk
      have hplaced : g'.IsPlaced i := (hp.isPlaced hi.lt i).2 (.inl rfl)
      refine ⟨hplaced, hp.later hi hled hled.passed, ?_⟩
      rw [(hext.placed _ (ht.placed _ hled.passed)).2, hp.same rfl, hp.positionOf hi.lt, if_pos rfl]
    · obtain ⟨hj, hpassed, hposition⟩ := ht.sameAs j k hk
      obtain ⟨hj', hposition'⟩ := hext.placed j hj
      refine ⟨hj', hp.later hi hled hpassed, ?_⟩
      rw [(hext.placed k (ht.placed k hpassed)).2, hposition', hposition]
  normal j e he := by
    rcases hp.sent hled he with he | ⟨-, -, rfl⟩
    · exact ht.normal j e he
    · rfl

omit hi hled ht in
theorem Puts.peakOf (hmode : g.mode = .frames) (j : BlockId) : g'.peakOf j = g.peakOf j := by
  rw [peakOf_of_frames hmode, peakOf_of_frames hp.mode, hp.frameAt]

omit hled in
/-- A block that gets its place is empty. -/
theorem Puts.peakOf_fresh (hmode : g.mode = .frames) (hj : g'.IsPlaced j) :
    g.IsPlaced j ∨ g'.peakOf j = 0 := by
  rcases (hp.isPlaced hi.lt j).1 hj with rfl | hj
  · right
    rw [hp.peakOf hmode]
    exact peakOf_eq_zero hmode (ht.unused i hi.not_passed)
  · exact .inl hj

end Puts

/-- **A block starts**, and control falls through to it. -/
theorem Puts.starts (hp : Puts g g' i position same true) (ht : Tidy g) (hi : g.Fresh i) (hled : g.Led)
    (hg : g.WellBuilt T) (hd : Drawn r s g) (hposition : s.offsets[r.code.length]? = some position) :
    Starts g g' position := by
  have hext := hp.extends ht hi hled
  have hcurrent : g'.current = some g'.last := hp.current
  have hlast := hp.placed_last ht hi hled
  -- if the last block starts there, no instruction has come in it
  have hempty : ∀ f, BlockGraph.frameAt g'.blocks g'.last = some f → f.net = 0 := by
    intro f hf
    rw [hp.frameAt, hp.last] at hf
    cases same with
    | false =>
      rw [ht.unused i hi.not_passed f hf]
      rfl
    | true =>
      rw [if_pos rfl] at hf
      cases hc : g.current with
      | none =>
        rw [ht.idle hc f hf]
        rfl
      | some c =>
        obtain rfl := hled.current c hc
        obtain ⟨hplaced, a, hheight, hgets⟩ := hd.now _ hc
        rw [(heightIs_iff hg.mode hc hf).1 hheight]
        exact hd.height_of_begins ⟨hplaced, by rw [hp.same rfl, hposition]⟩ hgets
  refine ⟨hext, fun j hj => ?_, fun c hc V hV hVc => ⟨_, hcurrent, (hp.leads hi hled hV).2 rfl c hc hVc⟩,
    fun j e he _ => ?_, fun j => hp.peakOf_fresh ht hi hg.mode, fun j _ => hp.peakOf hg.mode j⟩
  · obtain rfl := Option.some.inj (hcurrent.symm.trans hj)
    exact ⟨hlast.1, hlast.2, heightIs_zero hp.mode hcurrent hempty⟩
  · rcases hp.sent hled he with he | ⟨-, hc, rfl⟩
    · exact .inl ⟨he, fun a ha => ha.congr fun f hf => (hp.frameAt j).trans hf⟩
    · refine .inr ⟨hc, fun a ha => ?_, (hp.isPlaced hi.lt i).2 (.inl rfl), ?_⟩
      · obtain ⟨f, hf⟩ := hg.exists_frame (hg.current_lt j hc)
        rw [heightIs_iff hg.mode hc hf] at ha
        show (BlockGraph.frameAt g'.blocks j).map Frame.net = some a
        rw [hp.frameAt, hf, Option.map_some, ha]
      · rw [hp.positionOf hi.lt, if_pos rfl]

/-- No edge leaves the last block yet, if none did before. -/
theorem Puts.still (hp : Puts g g' i position same falls) (ht : Tidy g) (hi : g.Fresh i) (hled : g.Led)
    (hlast : same = true → BlockGraph.edgesAt g.blocks g.last = []) :
    BlockGraph.edgesAt g'.blocks g'.last = [] := by
  rw [hp.edgesAt (fun c hc => hled.current c hc ▸ hled.passed.lt), hp.last]
  cases same with
  | true => exact hlast rfl
  | false =>
    rw [if_neg Bool.false_ne_true, if_neg, ht.bare i hi.not_passed]
    exact fun h => hi.ne_last (hled.current i h.2.2)

/-! ## 5. Blocks that end -/

/-- The current block goes on, or has ended for good. -/
structure Closes (g g' : BlockGraph) (falls : Bool) : Prop where
  keeps : Extends g g'
  current : g'.current = if falls then g.current else none
  edges : ∀ i, edgesAt g'.blocks i = edgesAt g.blocks i
  frames : ∀ i f, frameAt g.blocks i = some f → frameAt g'.blocks i = some f
  others : ∀ i f, frameAt g'.blocks i = some f → frameAt g.blocks i = some f ∨ f = .empty
  fresh : ∀ i, g'.IsPlaced i → g.IsPlaced i ∨ g'.peakOf i = 0
  peak : ∀ i, g'.peakOf i = g.peakOf i

theorem Closes.refl (g : BlockGraph) : Closes g g true :=
  ⟨.refl g, rfl, fun _ => rfl, fun _ _ => id, fun _ _ => .inl, fun _ => .inl, fun _ => rfl⟩

theorem Widens.led (hw : Widens g g') (hled : g.Led) : g'.Led :=
  ⟨hw.last ▸ (hw.passed_iff hled.passed.lt).2 hled.passed,
    fun c hc => hw.last ▸ hled.current c (hw.current ▸ hc)⟩

/-- **Control does not fall through.** -/
theorem WellBuilt.closes_endBlock (hg : g.WellBuilt T) (ht : Tidy g) (hled : g.Led) (stop : Nat) :
    Closes g (g.endBlock stop) false ∧ Tidy (g.endBlock stop) ∧
      edgesAt (g.endBlock stop).blocks (g.endBlock stop).last = [] := by
  have hw := widens_newBlock hg.mode
  have hp := puts_endBlock hg.mode stop
  obtain ⟨-, hi⟩ := hg.onward_newBlock
  have ht' := ht.widens hg.last_lt hw
  have hled' := hw.led hled
  refine ⟨⟨hw.extends.trans (hp.extends ht' hi hled'), hp.current, fun i => ?_, fun i f hf => ?_,
    fun i f hf => hw.frameAt (hp.frameAt i ▸ hf), fun i hplaced => ?_, fun i => ?_⟩,
    hp.tidy ht' hi hled' nofun, hp.still ht' hi hled' nofun⟩
  · rw [hp.edgesAt (fun c hc => hled'.current c hc ▸ hled'.passed.lt), if_neg (fun h => nomatch h.2.1),
      hw.edgesAt]
  · rw [hp.frameAt]
    exact hw.frame_kept hf
  · rw [← hw.isPlaced]
    exact hp.peakOf_fresh ht' hi (hw.mode.trans hg.mode) hplaced
  · rw [hp.peakOf (hw.mode.trans hg.mode), hw.peakOf hg.mode]

/-- **Control falls through** to a block without a label. -/
theorem WellBuilt.puts_fallThrough (hg : g.WellBuilt T) (hled : g.Led) (stop : Nat) (isTarget : Bool) :
    ∃ g₁ same, Widens g g₁ ∧ g₁.WellBuilt T ∧ g₁.Fresh g.blocks.size ∧
      Puts g₁ (g.fallThrough stop isTarget) g.blocks.size stop same true := by
  have hw := widens_newBlock hg.mode
  obtain ⟨hg', -⟩ := hg.newBlock
  obtain ⟨-, hi⟩ := hg.onward_newBlock
  cases isTarget with
  | false =>
    obtain ⟨same, hp⟩ := puts_startBlock hg'.mode hi (hw.led hled).current stop
    exact ⟨_, same, hw, hg', hi, hp⟩
  | true =>
    have hw' := hw.mark g.blocks.size
    have hi' := hi.of_sameShape (sameShape_onBlock g.newBlock.2 g.blocks.size
      (f := fun b => { b with isTarget := true }) fun _ => ⟨rfl, rfl, rfl⟩) rfl
    have hg'' : WellBuilt T (g.newBlock.2.onBlock g.blocks.size fun b => { b with isTarget := true }) :=
      hg'.onBlock _ fun b hb => ⟨hb.frame, hb.edges, hb.sameAs, hb.fresh⟩
    obtain ⟨same, hp⟩ := puts_startBlock hg''.mode hi' (hw'.led hled).current stop
    exact ⟨_, same, hw', hg'', hi', hp⟩

/-! ## 6. Edges to labels -/

/-- **Edges to labels** from the current block. -/
structure LeadsTo (g g' : BlockGraph) (ls : List Label) : Prop where
  keeps : Extends g g'
  current : g'.current = g.current
  last : g'.last = g.last
  frames : ∀ i f, frameAt g.blocks i = some f → frameAt g'.blocks i = some f
  others : ∀ i f, frameAt g'.blocks i = some f → frameAt g.blocks i = some f ∨ f = .empty
  sends : ∀ i, g.current = some i → ∀ l ∈ ls,
    ∃ e ∈ edgesAt g'.blocks i, g'.labels.get? l = some e.successor
  sent : ∀ i e, e ∈ edgesAt g'.blocks i → e ∈ edgesAt g.blocks i ∨
    g.current = some i ∧ e.kind = .normal ∧ ∃ l ∈ ls, g'.labels.get? l = some e.successor
  placed : ∀ i, g'.IsPlaced i → g.IsPlaced i
  peak : ∀ i, g'.peakOf i = g.peakOf i

theorem LeadsTo.nil (g : BlockGraph) : LeadsTo g g [] :=
  ⟨.refl g, rfl, rfl, fun _ _ => id, fun _ _ => .inl, fun _ _ _ hl => absurd hl List.not_mem_nil,
    fun _ _ => .inl, fun _ => id, fun _ => rfl⟩

theorem LeadsTo.cons {ls : List Label} (h : LeadsTo g g' [l]) (h' : LeadsTo g' g'' ls) :
    LeadsTo g g'' (l :: ls) where
  keeps := h.keeps.trans h'.keeps
  current := h'.current.trans h.current
  last := h'.last.trans h.last
  frames i f hf := h'.frames i f (h.frames i f hf)
  others i f hf := (h'.others i f hf).elim (h.others i f) .inr
  sends i hi k hk := by
    rcases List.mem_cons.1 hk with rfl | hk
    · obtain ⟨e, he, hget⟩ := h.sends i hi k (List.mem_singleton.2 rfl)
      exact ⟨e, h'.keeps.edges i he, h'.keeps.labels k _ hget⟩
    · exact h'.sends i (h.current.trans hi) k hk
  sent i e he := by
    rcases h'.sent i e he with he | ⟨hi, hkind, k, hk, hget⟩
    · rcases h.sent i e he with hold | ⟨hi, hkind, k, hk, hget⟩
      · exact .inl hold
      · obtain rfl := List.mem_singleton.1 hk
        exact .inr ⟨hi, hkind, k, List.mem_cons_self, h'.keeps.labels k _ hget⟩
    · exact .inr ⟨h.current.symm.trans hi, hkind, k, List.mem_cons_of_mem _ hk, hget⟩
  placed i hi := h.placed i (h'.placed i hi)
  peak i := (h'.peak i).trans (h.peak i)

theorem frameAt_addEdge (g : BlockGraph) (kind : EdgeKind) (i j : BlockId) :
    frameAt (g.addEdge kind i).blocks j = frameAt g.blocks j := by
  unfold BlockGraph.addEdge
  split
  · exact bind_onBlock g _ (f := Block.addEdge ⟨kind, i⟩) (fun _ => rfl) j
  · rfl

theorem mode_addEdge (g : BlockGraph) (kind : EdgeKind) (i : BlockId) :
    (g.addEdge kind i).mode = g.mode ∧ (g.addEdge kind i).current = g.current := by
  unfold BlockGraph.addEdge
  split <;> exact ⟨rfl, rfl⟩

theorem WellBuilt.leadsTo (hg : g.WellBuilt T) (ht : Tidy g) (hled : g.Led) (l : Label) :
    LeadsTo g (g.leadTo l) [l] ∧ Tidy (g.leadTo l) := by
  have hw : Widens g (g.target l).2 := (hg.widens_blockOf l).mark _
  have hget : (g.target l).2.labels.get? l = some (g.target l).1 :=
    (get?_blockOf hg.labels_linked l l).trans (if_pos rfl)
  have ht' := ht.widens hg.last_lt hw
  have hled' := hw.led hled
  have hmode := hw.mode.trans hg.mode
  unfold BlockGraph.leadTo
  generalize (g.target l).2 = g₁ at hw hget ht' hled' hmode
  generalize (g.target l).1 = i at hget
  have hline := sameLines_addEdge g₁ .normal i
  have hframes := frameAt_addEdge g₁ .normal i
  have hedges := edgesAt_addEdge (fun c hc => hled'.current c hc ▸ hled'.passed.lt) .normal i
  obtain ⟨hmode', hcurrent⟩ := mode_addEdge g₁ .normal i
  have hsent : ∀ j, ∀ e ∈ edgesAt (g₁.addEdge .normal i).blocks j,
      e ∈ edgesAt g₁.blocks j ∨ g₁.current = some j ∧ e = ⟨.normal, i⟩ := by
    intro j e he
    rw [hedges] at he
    split at he
    · rename_i hj
      exact (List.mem_append.1 he).imp id fun he => ⟨hj, List.mem_singleton.1 he⟩
    · exact .inl he
  have hkeeps : Extends g₁ (g₁.addEdge .normal i) := hline.extends fun j => by
    rw [hedges]
    split
    · exact List.subset_append_left _ _
    · exact List.Subset.refl _
  refine ⟨⟨hw.extends.trans hkeeps, hcurrent.trans hw.current, hline.last.trans hw.last,
    fun j f hf => (hframes j).trans (hw.frame_kept hf), fun j f hf => hw.frameAt ((hframes j) ▸ hf),
    fun j hj k hk => ?_, fun j e he => ?_, fun j hj => (hw.isPlaced j).1 ((hline.placed j).1 hj),
    fun j => ?_⟩, ht'.congr hled' hline hcurrent (fun j f hf => .inr ((hframes j) ▸ hf)) fun j e he => ?_⟩
  · obtain rfl := List.mem_singleton.1 hk
    refine ⟨⟨.normal, i⟩, ?_, hline.labels ▸ hget⟩
    rw [hedges, if_pos (hw.current.trans hj)]
    exact List.mem_append_right _ (List.mem_singleton.2 rfl)
  · rcases hsent j e he with he | ⟨hj, rfl⟩
    · exact .inl (hw.edgesAt j ▸ he)
    · exact .inr ⟨hw.current ▸ hj, rfl, l, List.mem_singleton.2 rfl, hline.labels ▸ hget⟩
  · rw [peakOf_of_frames (hmode'.trans hmode), hframes, ← peakOf_of_frames hmode, hw.peakOf hg.mode]
  · refine (hsent j e he).symm.imp ?_ id
    rintro ⟨hj, rfl⟩
    exact ⟨hj, rfl⟩

theorem WellBuilt.leadsToAll (hg : g.WellBuilt T) (ht : Tidy g) (hled : g.Led) (ls : List Label) :
    LeadsTo g (ls.foldl (fun g l => g.leadTo l) g) ls ∧ Tidy (ls.foldl (fun g l => g.leadTo l) g) ∧
      (ls.foldl (fun g l => g.leadTo l) g).Led := by
  induction ls generalizing g with
  | nil => exact ⟨.nil g, ht, hled⟩
  | cons l ls ih =>
    obtain ⟨hl, ht'⟩ := hg.leadsTo ht hled l
    obtain ⟨honward, hlast, hcurrent⟩ := hg.onward_leadTo l
    obtain ⟨hls, hrest⟩ := ih (hg.leadTo l) ht' (hled.grown honward.toGrown hlast hcurrent)
    exact ⟨hl.cons hls, hrest⟩

/-! ## 7. Graphs of routines -/

/-- **A graph with frames as a routine makes it.** -/
structure Framed (r : Routine) (s : Sketch) (g : BlockGraph) : Prop extends Tidy g where
  /-- Instructions stand in blocks of the chain. -/
  rows : ∀ (k : Nat) i a, s.rows[k]? = some (some (i, a)) → g.Passed i
  /-- A block of an instruction begins behind each label in front of it. -/
  order : ∀ l m, (l, m) ∈ r.places → ∀ (k : Nat) i a offset, m ≤ k → s.rows[k]? = some (some (i, a)) →
    s.offsets[m]? = some offset → offset ≤ g.positionOf i
  /-- No more slots of those on entry are taken than the instructions need. -/
  depth : ∀ i f, frameAt g.blocks i = some f → ∀ n : Int, 0 ≤ n →
    (∀ (k : Nat) a (o : Instruction Label) (u : StackUse), s.rows[k]? = some (some (i, a)) →
      r.code[k]? = some o → o.stackUse? = some u → (u.taken : Int) - a ≤ n) → (f.taken : Int) ≤ n
  /-- A block with an edge has ended. -/
  still : edgesAt g.blocks g.last = []

theorem framed_start : Framed .empty .empty (start .frames) where
  toTidy := tidy_start
  rows k i a hk := nomatch hk
  order l m hl := absurd hl List.not_mem_nil
  depth i f hf n hn _ := by
    rcases i with _ | i
    · obtain rfl : Frame.empty = f := Option.some.inj hf
      exact hn
    · exact nomatch hf
  still := rfl

/-- More blocks, of which nothing is known. -/
theorem Framed.grown (hf : Framed r s g) (hgrown : Grown g g') (ht : Tidy g')
    (hframes : ∀ i f, frameAt g'.blocks i = some f → frameAt g.blocks i = some f ∨ f = .empty)
    (hstill : edgesAt g'.blocks g'.last = []) : Framed r s g' where
  toTidy := ht
  rows k i a hk := (hgrown.passed i (hf.rows k i a hk)).1
  order l m hl k i a offset hmk hk hoffset := by
    rw [(hgrown.passed i (hf.rows k i a hk)).2]
    exact hf.order l m hl k i a offset hmk hk hoffset
  depth i f hframe n hn hall := by
    rcases hframes i f hframe with hframe | rfl
    · exact hf.depth i f hframe n hn hall
    · exact hn
  still := hstill

/-- A label that is placed behind all instructions. -/
theorem Framed.labelAt (hf : Framed r s g) (hd : Drawn r s g) (l : Label) :
    Framed (r.event (.label l)) s g := by
  unfold Routine.event
  dsimp only
  split
  · exact hf
  · refine ⟨hf.toTidy, hf.rows, fun l' m hl k i a offset hmk hk hoffset => ?_, hf.depth, hf.still⟩
    rcases List.mem_append.1 hl with hl | hl
    · exact hf.order l' m hl k i a offset hmk hk hoffset
    · obtain ⟨-, rfl⟩ := Prod.mk.injEq .. ▸ List.mem_singleton.1 hl
      have hlt := (List.getElem?_eq_some_iff.1 hk).1
      rw [hd.rows_length] at hlt
      exact absurd hmk (Nat.not_le.2 hlt)

/-- **A block starts behind all instructions**, whether that of a label or one without a label. -/
theorem Framed.starts (hf : Framed r s g) (hd : Drawn r s g) (hg : g.WellBuilt T) (hled : g.Led)
    (hw : Widens g g') (hg' : g'.WellBuilt T) (hi : g'.Fresh i) (hp : Puts g' g'' i position same true)
    (hgrown : Grown g g'') (hposition : s.offsets[r.code.length]? = some position) :
    Drawn r s g'' ∧ Framed r s g'' ∧ ∀ l, g'.labels.get? l = some i → LabelAt g'' l i position := by
  have ht' := hf.toTidy.widens hg.last_lt hw
  have hled' := hw.led hled
  have hd' : Drawn r s g' := hd.mention rfl rfl (hw.mentions hg)
  refine ⟨hd'.start hposition (hp.starts ht' hi hled' hg' hd' hposition),
    hf.grown hgrown (hp.tidy ht' hi hled' fun _ => rfl) (fun j f hframe => hw.frameAt (hp.frameAt j ▸ hframe))
      (hp.still ht' hi hled' fun _ => by rw [hw.edgesAt, hw.last, hf.still]), fun l hl => ?_⟩
  refine ⟨hp.labels ▸ hl, (hp.isPlaced hi.lt i).2 (.inl rfl), by rw [hp.positionOf hi.lt, if_pos rfl],
    fun V hV hVi => ⟨_, hp.current, (hp.leads hi hled' hV).1 hVi⟩⟩

/-- **A label** that has not been placed. -/
theorem Framed.label (hf : Framed r s g) (hd : Drawn r s g) (hg : g.WellBuilt T)
    (hc : Charted placed named p g) (hl : named l) (hunplaced : ¬ placed l) (hdebug : l.debug = false)
    (hposition : s.offsets[r.code.length]? = some position) :
    Drawn (r.event (.label l)) s (g.label l position) ∧
      Framed (r.event (.label l)) s (g.label l position) := by
  obtain ⟨hc', hget⟩ := hc.blockOf hg hl
  obtain ⟨hg', -⟩ := hg.blockOf l
  have hi := hc'.fresh hget hunplaced
  obtain ⟨same, hp⟩ := puts_startBlock hg'.mode hi hc'.led.current position
  obtain ⟨honward, -⟩ := hc.onward_label hg hl hunplaced position
  obtain ⟨hd', hf', hlabel⟩ :=
    hf.starts hd hg hc.led (hg.widens_blockOf l) hg' hi hp honward.toGrown hposition
  exact ⟨hd'.labelAt hdebug hposition (hlabel l hget), hf'.labelAt hd' l⟩

/-- **A block without a label.** -/
theorem Framed.fallThrough (hf : Framed r s g) (hd : Drawn r s g) (hg : g.WellBuilt T) (hled : g.Led)
    (isTarget : Bool) (hposition : s.offsets[r.code.length]? = some position) :
    Drawn r s (g.fallThrough position isTarget) ∧ Framed r s (g.fallThrough position isTarget) := by
  obtain ⟨g₁, same, hw, hg₁, hi, hp⟩ := hg.puts_fallThrough hled position isTarget
  obtain ⟨hd', hf', -⟩ := hf.starts hd hg hled hw hg₁ hi hp
    (hg.onward_fallThrough hled position isTarget).toGrown hposition
  exact ⟨hd', hf'⟩

/-- **A handler** mentions its labels. -/
theorem Framed.addHandler (hf : Framed r s g) (hd : Drawn r s g) (hg : g.WellBuilt T) (hled : g.Led)
    (range : HandlerRange) :
    Drawn { r with handlers := r.handlers ++ [range] } s (g.addHandler range) ∧
      Framed { r with handlers := r.handlers ++ [range] } s (g.addHandler range) := by
  obtain ⟨hg₁, -⟩ := hg.blockOf range.start
  obtain ⟨hg₂, -⟩ := hg₁.blockOf range.stop
  have hw₁ := hg.widens_blockOf range.start
  have hw₂ := hg₁.widens_blockOf range.stop
  have hw₃ := hg₂.widens_blockOf range.handler
  have hd₃ : Drawn r s (g.mention range) :=
    ((hd.mention rfl rfl (hw₁.mentions hg)).mention rfl rfl (hw₂.mentions hg₁)).mention rfl rfl
      (hw₃.mentions hg₂)
  have ht₃ : Tidy (g.mention range) :=
    ((hf.toTidy.widens hg.last_lt hw₁).widens hg₁.last_lt hw₂).widens hg₂.last_lt hw₃
  have hled₃ : (g.mention range).Led := hw₃.led (hw₂.led (hw₁.led hled))
  have hframes : ∀ i f, frameAt (g.mention range).blocks i = some f →
      frameAt g.blocks i = some f ∨ f = .empty := fun i f hframe =>
    (hw₃.frameAt hframe).elim
      (fun h => (hw₂.frameAt h).elim (fun h => hw₁.frameAt h) .inr) .inr
  have hstill : edgesAt (g.mention range).blocks (g.mention range).last = [] := by
    rw [BlockGraph.mention, hw₃.edgesAt, hw₂.edgesAt, hw₁.edgesAt, hw₃.last, hw₂.last, hw₁.last, hf.still]
  obtain ⟨honward, -⟩ := hg.onward_addHandler range
  rw [addHandler_eq] at honward ⊢
  generalize g.mention range = g₃ at hd₃ ht₃ hled₃ hframes hstill honward ⊢
  have hf₃ : Framed r s { g₃ with handlers := g₃.handlers.push range } := by
    refine hf.grown honward.toGrown (ht₃.congr hled₃ ?_ rfl (fun _ _ => .inr) fun _ _ => .inr) hframes hstill
    exact ⟨rfl, fun _ => Iff.rfl, fun _ => rfl, fun _ => rfl, fun _ => rfl, rfl, rfl, fun _ => id⟩
  exact ⟨hd₃.mention rfl rfl (mentions_handlers g₃ _), hf₃.toTidy, hf₃.rows, hf₃.order, hf₃.depth,
    hf₃.still⟩

/-! ## 8. Instructions -/

/-- The last block starts behind all others. -/
theorem Charted.le_last (hc : Charted placed named p g) (hk : g.Passed k) :
    g.positionOf k ≤ g.positionOf g.last := by
  obtain ⟨chain, hchain⟩ := hc.chained
  exact hchain.le_last (hchain.mem_of_passed hk)

section Instruction

variable {o : Instruction Label} {u : StackUse} {stop : Nat} {row : Option (BlockId × Int)}

/-- **A graph with one more instruction**: of frames from before, only that of its block has changed. -/
theorem Framed.add (hf : Framed r s g) (hd : Drawn r s g) (hc : Charted placed named p g)
    (hnow : RowNow r s g row) (hu : o.stackUse? = some u) (hgrown : Grown g g') (ht : Tidy g')
    (hframes : ∀ i f', frameAt g'.blocks i = some f' → f' = .empty ∨ frameAt g.blocks i = some f' ∨
      ∃ f, row = some (i, f.net) ∧ frameAt g.blocks i = some f ∧ Frame.Uses u f f')
    (hstill : edgesAt g'.blocks g'.last = []) (stop : Nat) :
    Framed (r.event (.instruction o)) (s.add row stop) g' where
  toTidy := ht
  rows k i a hk := by
    rcases getElem?_concat_eq_some_iff.1 hk with hk | ⟨-, hrow⟩
    · exact (hgrown.passed i (hf.rows k i a hk)).1
    · rw [hc.led.current i (hnow.current hrow.symm)]
      exact (hgrown.passed _ hc.led.passed).1
  order l m hl k i a offset hmk hk hoffset := by
    have hm := hd.place_le hl
    have hoffset' : s.offsets[m]? = some offset := by
      rwa [Sketch.add, List.getElem?_append_left (by rw [hd.offsets_length]; omega)] at hoffset
    rcases getElem?_concat_eq_some_iff.1 hk with hk | ⟨-, hrow⟩
    · rw [(hgrown.passed i (hf.rows k i a hk)).2]
      exact hf.order l m hl k i a offset hmk hk hoffset'
    · -- the instruction is in the last block, which starts behind each label
      obtain ⟨j, -, hbegins⟩ := hd.label l m hl
      obtain ⟨k', hk'⟩ := hf.standsAt hbegins.placed
      obtain rfl := hc.led.current i (hnow.current hrow.symm)
      have hle := hc.le_last hk'.passed
      rw [(hgrown.passed _ hc.led.passed).2]
      rw [hk'.position] at hle
      rwa [Option.some.inj (hbegins.offset.symm.trans hoffset')] at hle
  depth i f' hframe n hn hall := by
    have hold : ∀ f, frameAt g.blocks i = some f → (f.taken : Int) ≤ n := fun f hframe =>
      hf.depth i f hframe n hn fun k a o' u' hk ho hu' => hall k a o' u'
        (getElem?_extended (List.prefix_append _ _) hk) (getElem?_extended (List.prefix_append _ _) ho) hu'
    rcases hframes i f' hframe with rfl | hframe | ⟨f, hrow, hframe, huses⟩
    · exact hn
    · exact hold f' hframe
    · have htaken := hold f hframe
      have hnew := hall r.code.length f.net o u
        (getElem?_concat_eq_some_iff.2 (.inr ⟨hd.rows_length.symm, hrow.symm⟩))
        (getElem?_concat_eq_some_iff.2 (.inr ⟨rfl, rfl⟩)) hu
      have := huses.depth
      omega
  still := hstill

/-- **What an instruction does** that control gets to, up to the end of its block. -/
theorem Framed.moves (hf : Framed r s g) (hg : g.WellBuilt T) (hled : g.Led) (hc : g.current = some c)
    (hframe : frameAt g.blocks c = some f) (huses : Frame.Uses u f f')
    (hl : LeadsTo (g.withFrame c f') g' o.targets) (hclose : Closes g' g'' o.fallsThrough)
    (hmode' : g''.mode = .frames) (stop : Nat) : Moves g g'' o u stop := by
  have hline : SameLines g (g.withFrame c f') := sameLines_onBlock g c (fun _ => ⟨rfl, rfl, rfl⟩) fun _ => rfl
  have hedges : ∀ i, edgesAt (g.withFrame c f').blocks i = edgesAt g.blocks i :=
    edgesAt_kept g c (f := fun b => { b with frame := some f' }) fun _ => rfl
  have hframes := frameAt_withFrame hframe f'
  have hext : Extends g g'' := ((hline.extends fun i => (hedges i).symm ▸ List.Subset.refl _).trans
    hl.keeps).trans hclose.keeps
  have hcframe : frameAt g''.blocks c = some f' :=
    hclose.frames c f' (hl.frames c f' ((hframes c).trans (if_pos rfl)))
  have hkept : ∀ i, c ≠ i → ∀ f, frameAt g.blocks i = some f → frameAt g''.blocks i = some f :=
    fun i hi f h => hclose.frames i f (hl.frames i f ((hframes i).trans ((if_neg hi).trans h)))
  have hpeak : ∀ i, c ≠ i → g''.peakOf i = g.peakOf i := by
    intro i hi
    rw [hclose.peak, hl.peak, peakOf_of_frames hg.mode, peakOf_of_frames (g := g.withFrame c f') hg.mode,
      hframes, if_neg hi]
  have hnet : ∀ i a, g.current = some i → g.HeightIs a → f'.net = a + u.net := by
    intro i a hi ha
    obtain rfl : c = i := Option.some.inj (hc.symm.trans hi)
    rw [huses.net, (heightIs_iff hg.mode hc hframe).1 ha]
  refine ⟨hext, fun i hi l hmem => ?_, fun i e he _ => ?_, fun i hi hfalls => ?_, fun j hj => ?_,
    fun j hj => ?_, fun i _ hi => hpeak i fun h => hi (h ▸ hc), fun i a hi ha hle hwithin => ?_⟩
  · obtain ⟨e, he, hget⟩ := hl.sends i hi l hmem
    exact ⟨e, hclose.keeps.edges i he, hclose.keeps.labels l _ hget⟩
  · rw [hclose.edges] at he
    rcases hl.sent i e he with he | ⟨hi, hkind, l, hmem, hget⟩
    · -- the block with the edge has ended before
      rw [hedges] at he
      have hi : c ≠ i := by
        rintro rfl
        rw [hled.current c hc, hf.still] at he
        exact absurd he List.not_mem_nil
      exact .inl ⟨he, fun a ha => ha.congr (hkept i hi)⟩
    · refine .inr ⟨hi, fun a ha => ?_, .inl ⟨l, hmem, hclose.keeps.labels l _ hget⟩⟩
      obtain rfl : c = i := Option.some.inj (hc.symm.trans hi)
      unfold Leaves
      rw [hkind]
      show (frameAt g''.blocks c).map Frame.net = some (a + u.net)
      rw [hcframe, Option.map_some, hnet c a hc ha]
  · obtain rfl : c = i := Option.some.inj (hc.symm.trans hi)
    have hcurrent : g''.current = some c := by
      rw [hclose.current, hfalls, if_pos rfl, hl.current]
      exact hc
    exact ⟨c, hcurrent, .inl ⟨rfl, fun a ha => (heightIs_iff hmode' hcurrent hcframe).2 (hnet c a hc ha)⟩⟩
  · rw [hclose.current] at hj
    split at hj
    · rename_i hfalls
      exact ⟨c, hc, hfalls⟩
    · exact nomatch hj
  · refine (hclose.fresh j hj).imp (fun hj => ?_) id
    exact (hline.placed j).1 (hl.placed j hj)
  · obtain rfl : c = i := Option.some.inj (hc.symm.trans hi)
    rw [heightIs_iff hg.mode hc hframe] at ha
    rw [peakOf_of_frameAt hg.mode hframe] at hle ⊢
    rw [peakOf_of_frameAt hmode' hcframe, huses.peak (by unfold Frame.Peaked; omega) (ha ▸ hwithin),
      huses.net, ha]

/-- **How the current block ends** behind an instruction. -/
theorem Framed.closing (hf : Framed r s g) (hd : Drawn r s g) (hg : g.WellBuilt T) (hled : g.Led)
    (hnow : RowNow r s g row) (hu : o.stackUse? = some u) (hstop : ∀ x ∈ s.offsets, x < stop)
    (hlast : g.positionOf g.last < stop) (hc : g.current = some c) (hframe : frameAt g.blocks c = some f)
    (huses : Frame.Uses u f f') (hg' : g'.WellBuilt T') (ht : Tidy g') (hled' : g'.Led)
    (hl : LeadsTo (g.withFrame c f') g' o.targets) (around : Bool) :
    Drawn (r.event (.instruction o)) (s.add row stop) (closing o stop around g') ∧
      Tidy (closing o stop around g') ∧
      (∀ i f, frameAt (closing o stop around g').blocks i = some f →
        frameAt g'.blocks i = some f ∨ f = .empty) ∧
      edgesAt (closing o stop around g').blocks (closing o stop around g').last = [] := by
  have hmoves : ∀ {g''}, Closes g' g'' o.fallsThrough → g''.mode = .frames →
      Drawn (r.event (.instruction o)) (s.add row stop) g'' := fun hclose hmode =>
    hd.instruction hnow hu hstop (hf.moves hg hled hc hframe huses hl hclose hmode stop)
  unfold BlockGraph.closing
  cases hfalls : o.fallsThrough with
  | false =>
    rw [if_neg Bool.false_ne_true]
    obtain ⟨hclose, ht', hstill⟩ := hg'.closes_endBlock ht hled' stop
    exact ⟨hmoves (hfalls ▸ hclose) (hg'.endBlock stop).mode, ht', hclose.others, hstill⟩
  | true =>
    have hd' : Drawn (r.event (.instruction o)) (s.add row stop) g' :=
      hmoves (hfalls ▸ .refl g') hg'.mode
    rw [if_pos rfl]
    split
    · rename_i htargets
      refine ⟨hd', ht, fun _ _ => .inl, List.eq_nil_iff_forall_not_mem.2 fun e he => ?_⟩
      -- without targets there is no new edge
      rcases hl.sent _ e he with he | ⟨-, -, l, hmem, -⟩
      · have hedges : edgesAt (g.withFrame c f').blocks g.last = edgesAt g.blocks g.last :=
          edgesAt_kept g c (f := fun b => { b with frame := some f' }) (fun _ => rfl) g.last
        have hsame : (g.withFrame c f').last = g.last := rfl
        rw [id_eq, hl.last, hsame, hedges, hf.still] at he
        exact absurd he List.not_mem_nil
      · exact absurd (htargets ▸ hmem) List.not_mem_nil
    · obtain ⟨g₁, same, hw, hg₁, hi, hp⟩ := hg'.puts_fallThrough hled' stop around
      have ht₁ := ht.widens hg'.last_lt hw
      have hled₁ := hw.led hled'
      have hposition : (s.add row stop).offsets[(r.event (.instruction o)).code.length]? = some stop := by
        refine getElem?_concat_eq_some_iff.2 (.inr ⟨?_, rfl⟩)
        rw [hd.offsets_length, Routine.event, List.length_append, List.length_singleton]
      -- the last block has started before the instruction, so it is not the one that starts
      have hbehind : g₁.positionOf g₁.last = g.positionOf g.last := by
        have hline : SameLines g (g.withFrame c f') :=
          sameLines_onBlock g c (fun _ => ⟨rfl, rfl, rfl⟩) fun _ => rfl
        rw [hw.last, hw.positionOf, hl.last]
        exact (hl.keeps.placed g.last ((hline.placed _).2 (hf.placed _ hled.passed))).2.trans
          (hline.position _)
      have hnot : same ≠ true := fun hsame => by
        have := hp.same hsame
        omega
      exact ⟨(hd'.mention rfl rfl (hw.mentions hg')).start hposition
          (hp.starts ht₁ hi hled₁ hg₁ (hd'.mention rfl rfl (hw.mentions hg')) hposition),
        hp.tidy ht₁ hi hled₁ fun _ => rfl, fun i f hframe => hw.frameAt (hp.frameAt i ▸ hframe),
        hp.still ht₁ hi hled₁ fun hsame => absurd hsame hnot⟩

/-- **An instruction.** -/
theorem Framed.instruction {h : Hierarchy} (hf : Framed r s g) (hd : Drawn r s g) (hT : T.Sound h)
    (hg : g.WellBuilt T) (hc : Charted placed named p g) (hu : o.stackUse? = some u) {start : Nat}
    {around : Bool} (hstop : ∀ x ∈ s.offsets, x < stop) (hp : p < stop)
    (hrun : step start stop around (CodeWriter.reported o) g T = ((.ok (), g'), T')) :
    ∃ row, Drawn (r.event (.instruction o)) (s.add row stop) g' ∧
      Framed (r.event (.instruction o)) (s.add row stop) g' := by
  obtain ⟨row, hnow⟩ := hd.exists_rowNow
  refine ⟨row, ?_⟩
  have hgrown := hc.grown_step hT hg hrun
  rcases hg.step_cases hT hrun with ⟨hnone, rfl⟩ | ⟨c, f, f', hcurrent, hframe, hact, hg₁, rfl⟩
  · exact ⟨hd.instruction hnow hu hstop (moves_unreached hnone o u stop),
      hf.add hd hc hnow hu hgrown hf.toTidy (fun i f' hf' => .inr (.inl hf')) hf.still stop⟩
  · have huses := uses_reported hu hact
    have hline : SameLines g (g.withFrame c f') :=
      sameLines_onBlock g c (fun _ => ⟨rfl, rfl, rfl⟩) fun _ => rfl
    have hframes := frameAt_withFrame hframe f'
    have hedges : ∀ i, edgesAt (g.withFrame c f').blocks i = edgesAt g.blocks i :=
      edgesAt_kept g c (f := fun b => { b with frame := some f' }) fun _ => rfl
    have ht₁ : Tidy (g.withFrame c f') := by
      refine hf.toTidy.congr hc.led hline rfl (fun i f₁ hf₁ => ?_) fun i e he => .inr (hedges i ▸ he)
      rw [hframes] at hf₁
      split at hf₁
      · rename_i hi
        exact .inl (hi ▸ hcurrent)
      · exact .inr hf₁
    have hled₁ : (g.withFrame c f').Led :=
      hc.led.grown (grown_withFrame hframe (Frame.prolongs_frameStep start _ _ _ _ _ _ hact)) rfl rfl
    obtain ⟨hl, ht₂, hled₂⟩ := hg₁.leadsToAll ht₁ hled₁ o.targets
    rw [afterStep_reported hu] at hgrown ⊢
    obtain ⟨hd', ht', hothers, hstill⟩ := hf.closing hd hg hc.led hnow hu hstop
      (Nat.lt_of_le_of_lt hc.behind hp) hcurrent hframe huses (hg₁.leadToAll o.targets) ht₂ hled₂ hl around
    refine ⟨hd', hf.add hd hc hnow hu hgrown ht' (fun i f₁ hf₁ => ?_) hstill stop⟩
    rcases (hothers i f₁ hf₁).imp_left (hl.others i f₁) with (hnew | hempty) | hempty
    · rw [hframes] at hnew
      split at hnew
      · rename_i hi
        subst hi
        obtain rfl := Option.some.inj hnew
        obtain ⟨a, hrow⟩ := hnow.exists_height hcurrent
        have ha := (heightIs_iff hg.mode hcurrent hframe).1 (hnow.height c a hrow).1
        exact .inr (.inr ⟨f, by rw [hrow, ha], hframe, huses⟩)
      · exact .inr (.inl hnew)
    · exact .inl hempty
    · exact .inl hempty

end Instruction

end ClassFile.BlockGraph
