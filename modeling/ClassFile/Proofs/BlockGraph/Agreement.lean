/-
# Both analyses count the same stack

A graph that records heights looks the effects of opcodes up in a table and counts the slots of
descriptors.  A graph with frames takes types from a stack and puts others on it, and reaches below its
own block where the stack is not high enough.  Both are told the same instructions here, and stay side by
side (`Abreast`) until one of them ends the block; the peak of the block is then the same as well
(`same_stack`), as long as 32 bits hold all heights on the way (`Held`).  Where they do not, one of the
graphs may take a height that has gone round for the greatest one while the other one does not see it.

Only `athrow` is counted in two ways, as nothing or as one slot less.  It ends its block, so this shows
neither in the height of something behind it nor in the peak.
-/
import ClassFile.Proofs.BlockGraph.Drawn
import ClassFile.Proofs.BlockGraph.HeightStep

namespace ClassFile

/-- Does an instruction without targets end its block? -/
def Instruction.endsBlock {τ : Type} : Instruction τ → Bool
  | .simple op => op.isReturn || op == Opcode.athrow
  | _ => false

/-- An instruction that is reported to a graph, with the offsets between which it stands. -/
structure Report where
  start : Nat
  stop : Nat
  instruction : Instruction Label

namespace BlockGraph

variable {g g' f f' : BlockGraph} {k i : BlockId} {T T' U U' : TypeTable} {o : Instruction Label}
  {start stop : Nat} {around : Bool}

/-- Reports instructions one after the other, until one fails. -/
def reportAll (rs : List Report) : GraphM Unit :=
  rs.forM fun r => step r.start r.stop false r.instruction

/-! ## 1. Heights -/

/-- Where slots have been counted, there was a descriptor of the kind that the operands have. -/
theorem counted_of_step (hg : g.mode = .maxStack) (hcurrent : g.current.isSome = true)
    (hrun : Returns₂ (step start stop around o) g T () g' T') : o.Counted := by
  have hreached := fun act => whenReached_current hcurrent act T
  have hheights := fun frames heights => byMode_heights_apply (g := g) frames heights hg T
  cases o
  case field op owner name descriptor =>
    change field op name descriptor g T = _ at hrun
    unfold field at hrun
    rw [hreached, hheights] at hrun
    obtain ⟨t, _, _, ht, -⟩ := returns₂_bind.1 hrun
    exact ⟨t, Descriptor.fieldType_eq_ok_iff.1 (returns₂_lift.1 ht).1⟩
  case method op owner name descriptor interface =>
    change call op name descriptor g T = _ at hrun
    unfold call at hrun
    rw [hreached, hheights] at hrun
    obtain ⟨slots, _, _, hslots, -⟩ := returns₂_bind.1 hrun
    obtain ⟨t, ht, -⟩ := Descriptor.methodSlots_eq_ok_iff.1 (returns₂_lift.1 hslots).1
    exact ⟨t, ht⟩
  all_goals exact trivial

/-- The state behind an instruction without targets: the height changes, there is a new peak, and the
block may end. -/
def straightened (o : Instruction Label) (stop : Nat) (change : Int) (peak : Int32) (g : BlockGraph) :
    BlockGraph :=
  (if o.endsBlock then endBlock stop else id) { g with height := g.height + .ofInt change, peak }

/-- **An instruction without targets** where only heights are recorded. -/
theorem step_straight (hg : g.Frameless) (hcurrent : g.current.isSome = true)
    (hpeaked : g.height.toInt ≤ g.peak.toInt) {u : StackUse} (hu : o.straightUse? = some u)
    (hheld : u.Within g.height.toInt) (hrun : Returns₂ (step start stop around o) g T () g' T') :
    ∃ change peak, (o.endsBlock = false → change = u.net) ∧
      peak.toInt = max g.peak.toInt (g.height.toInt + u.net) ∧
      g' = straightened o stop change peak g := by
  have hother : o.stackUse? = some u → o.targets = [] → o.fallsThrough = true →
      o.endsBlock = false → CodeWriter.reported o = o →
      ∃ change peak, (o.endsBlock = false → change = u.net) ∧
        peak.toInt = max g.peak.toInt (g.height.toInt + u.net) ∧
        g' = straightened o stop change peak g := by
    intro huse htargets hfalls hends hreported
    rw [← hreported] at hrun
    obtain ⟨change, peak, hsteps⟩ := step_heights hg hcurrent huse hrun
    refine ⟨change, peak, fun _ => hsteps.exact (.inl hfalls), hsteps.peak_eq hpeaked hheld, ?_⟩
    rw [hsteps.eq, htargets, hfalls, straightened, hends]
    rfl
  cases o
  case simple op =>
    obtain ⟨change, hchange, hplain⟩ := plain_heights hg.mode hcurrent hu stop T
    cases hplain.symm.trans hrun
    refine ⟨change, _, fun hends => ?_, toInt_grown hpeaked hheld ?_, rfl⟩
    · rcases hchange with hnet | ⟨rfl, -, -⟩
      · exact hnet
      · exact absurd hends (by decide)
    · exact hchange.imp_right fun ⟨_, hzero, hnet⟩ => ⟨by omega, by omega⟩
  case method op owner name descriptor interface =>
    obtain ⟨⟨arguments, result⟩, hslots, hcall⟩ := Option.bind_eq_some_iff.1 hu
    cases (call_heights hg.mode hcurrent (ok_of_toOption hslots) hcall name T).symm.trans hrun
    exact ⟨u.net, _, fun _ => rfl, toInt_grown hpeaked hheld (.inl rfl), rfl⟩
  case jump | tableSwitch | lookupSwitch => exact nomatch hu
  all_goals exact hother hu rfl rfl rfl rfl

/-! ## 2. Frames -/

/-- **An instruction without targets** changes the frame of its block by the slots that it takes and
leaves. -/
theorem measured_frameStep (htargets : o.targets = []) (hformed : o.WellDescribed)
    (hcounted : o.Counted) (start : Nat) : Frame.Measured o.straightUse? (frameStep start o) := by
  cases o
  case simple op => exact Frame.measured_plain op
  case int op operand => exact Frame.measured_number op operand
  case var op index => exact Frame.measured_localOperand op index
  case type op name => exact Frame.measured_typeOperand op start name
  case field op owner name descriptor =>
    obtain ⟨t, ht⟩ := hcounted
    change op.Accepts descriptor at hformed
    unfold Opcode.Accepts at hformed
    split at hformed
    · rename_i hop
      have huse : (Instruction.field op owner name descriptor : Instruction Label).straightUse? =
          Instruction.fieldUse? op t.slots := by
        simp only [Instruction.straightUse?, Instruction.stackUse?, Descriptor.fieldType_eq_ok_iff.2 ht]
        rfl
      exact huse ▸ Frame.measured_access hop name ht
    · obtain ⟨t', ht'⟩ := hformed
      exact absurd ht' (Descriptor.not_field_and_method ht)
  case method op owner name descriptor interface =>
    obtain ⟨t, ht⟩ := hcounted
    change op.Accepts descriptor at hformed
    unfold Opcode.Accepts at hformed
    split at hformed
    · obtain ⟨t', ht'⟩ := hformed
      exact absurd ht (Descriptor.not_field_and_method ht')
    · rename_i hop
      have huse : (Instruction.method op owner name descriptor interface : Instruction Label).straightUse? =
          Instruction.callUse? op (t.parameterSlots true) t.resultSlots := by
        rw [Instruction.straightUse?, Descriptor.methodSlots_eq_ok_iff.2 ⟨t, ht, rfl⟩]
        rfl
      exact huse ▸ Frame.measured_call (Bool.eq_false_iff.2 hop) name ht
  case invokeDynamic name descriptor bootstrap arguments =>
    obtain ⟨t, ht⟩ := hformed
    have huse : (Instruction.invokeDynamic name descriptor bootstrap arguments :
        Instruction Label).straightUse? = some ⟨t.parameterSlots true - 1, t.resultSlots⟩ := by
      simp only [Instruction.straightUse?, Instruction.stackUse?,
        Descriptor.methodSlots_eq_ok_iff.2 ⟨t, ht, rfl⟩]
      rfl
    exact huse ▸ Frame.measured_arguments ht
  case constant value => exact Frame.measured_constant hformed
  case increment index amount => exact Frame.measured_increment index
  case multiArray descriptor dimensions =>
    obtain ⟨t, ht, harray⟩ := hformed
    exact Frame.measured_multiArray ht harray
  case jump | tableSwitch | lookupSwitch => cases htargets

theorem afterStep_straight (htargets : o.targets = []) (g : BlockGraph) :
    g.afterStep stop around o = (if o.endsBlock then endBlock stop else id) g := by
  cases o
  case simple op =>
    rw [afterStep, Instruction.endsBlock]
    cases op.isReturn || op == Opcode.athrow <;> rfl
  case jump | tableSwitch | lookupSwitch => cases htargets
  all_goals rfl

/-- The frame of a block does not change any more when the block ends. -/
theorem frameAt_endBlock (hf : f.mode = .frames) (hi : i < f.blocks.size) (stop : Nat) :
    frameAt (f.endBlock stop).blocks i = frameAt f.blocks i := by
  have hblocks : (f.endBlock stop).blocks =
      ((f.blocks.push (.empty (some .empty))).modify f.blocks.size
        fun b => { b with position := stop, isPlaced := true }).modify f.last
        fun b => { b with next := some f.blocks.size } := by
    unfold endBlock
    simp only [hf]
    rw [← newBlock_blocks hf]
    rfl
  rw [hblocks, frameAt_modify_flags, frameAt_modify_flags]
  · rw [frameAt, frameAt, Array.getElem?_push_lt hi, Array.getElem?_eq_getElem hi]
  · exact fun _ => rfl
  · exact fun _ => rfl

/-- The peak of a block is recorded when the block ends. -/
theorem peakOf_endBlock (hg : g.mode = .maxStack) (hk : k < g.blocks.size) (hcurrent : g.current = some k)
    (stop : Nat) : (g.endBlock stop).peakOf k = g.peak.toInt := by
  have hended : g.endBlock stop =
      { g.onBlock k fun b => { b with peak := g.peak } with current := none } := by
    unfold endBlock closeHeights
    simp only [hg, hcurrent]
  rw [hended]
  unfold peakOf
  simp only [onBlock, onBlocks, hg, reduceCtorEq, if_false, peakAt, Array.getElem?_modify, if_true,
    Array.getElem?_eq_getElem hk, Option.map_some, Option.getD_some]

/-! ## 3. Side by side -/

/-- **Two graphs at the same height** in blocks of theirs, one that records heights and one that has
frames. -/
structure Abreast (g f : BlockGraph) (k i : BlockId) : Prop where
  heights : g.Frameless
  frames : f.mode = .frames
  placed : k < g.blocks.size
  currentHeights : g.current = some k
  currentFrames : f.current = some i
  frame : ∃ F, frameAt f.blocks i = some F ∧ F.Peaked ∧ g.height.toInt = F.net ∧
    g.peak.toInt = F.peak

/-- Two graphs in which blocks with the same peak have ended. -/
structure Ended (g f : BlockGraph) (k i : BlockId) : Prop where
  currentHeights : g.current = none
  currentFrames : f.current = none
  frame : ∃ F, frameAt f.blocks i = some F ∧ g.peakOf k = F.peak

/-- Both graphs start like this. -/
theorem abreast_start : Abreast (BlockGraph.start .maxStack) (BlockGraph.start .frames) 0 0 where
  heights := frameless_start
  frames := rfl
  placed := Nat.one_pos
  currentHeights := rfl
  currentFrames := rfl
  frame := ⟨.empty, rfl, Frame.peaked_empty, rfl, rfl⟩

theorem Abreast.peakOf (h : Abreast g f k i) :
    ∃ F, frameAt f.blocks i = some F ∧ g.peakOf k = F.peak ∧ g.height.toInt = F.net := by
  obtain ⟨F, hF, -, hheight, hpeak⟩ := h.frame
  refine ⟨F, hF, ?_, hheight⟩
  unfold BlockGraph.peakOf
  rw [h.heights.mode, h.currentHeights, ← hpeak]
  exact congrArg Int32.toInt (if_pos rfl)

/-- 32 bits hold all heights that instructions go through, one after the other, until one of them ends the
block. -/
def Held : Int → List Report → Prop
  | _, [] => True
  | height, r :: rs => ∀ u, r.instruction.straightUse? = some u →
    u.Within height ∧ (r.instruction.endsBlock = false → Held (height + u.net) rs)

theorem Held.cons {height : Int} {r : Report} {rs : List Report} {u : StackUse}
    (hu : r.instruction.straightUse? = some u) (hwithin : u.Within height)
    (hrest : Held (height + u.net) rs) : Held height (r :: rs) := by
  intro v hv
  obtain rfl : u = v := Option.some.inj (hu.symm.trans hv)
  exact ⟨hwithin, fun _ => hrest⟩

/-- **One instruction** keeps both graphs abreast, or ends both blocks. -/
theorem Abreast.step (h : Abreast g f k i) (htargets : o.targets = []) (hformed : o.WellDescribed)
    (hheld : ∀ u, o.straightUse? = some u → u.Within g.height.toInt)
    (hg : Returns₂ (step start stop around o) g T () g' T')
    (hf : Returns₂ (BlockGraph.step start stop around o) f U () f' U') :
    if o.endsBlock then Ended g' f' k i
    else Abreast g' f' k i ∧
      ∃ u, o.straightUse? = some u ∧ g'.height.toInt = g.height.toInt + u.net := by
  obtain ⟨F, hF, hpeaked, hheight, hpeak⟩ := h.frame
  obtain ⟨b, hb, hbF⟩ := Option.bind_eq_some_iff.1 hF
  have hi : i < f.blocks.size := (Array.getElem?_eq_some_iff.1 hb).1
  have hgcurrent : g.current.isSome = true := by rw [h.currentHeights]; rfl
  have hcounted := counted_of_step h.heights.mode hgcurrent hg
  -- the frame changes by the slots that the instruction takes and leaves
  rcases hact : (frameStep start o F U : (Except Error Unit × Frame) × TypeTable) with ⟨⟨r, F'⟩, U₁⟩
  have hrun : BlockGraph.step start stop around o f U = ((.ok (), f'), U') := hf
  rw [step_apply h.frames, onFrame_current h.currentFrames hb hbF hact] at hrun
  cases r with
  | error e => exact nomatch hrun
  | ok v =>
    obtain ⟨u, hu, huses⟩ := measured_frameStep htargets hformed hcounted start _ _ _ _ _ hact
    have hwithin := hheld u hu
    obtain ⟨change, peak, hchange, hgrown, rfl⟩ := step_straight h.heights hgcurrent
      (hheight.trans_le (hpeaked.trans_eq hpeak.symm)) hu hwithin hg
    simp only [h.currentFrames, Option.isSome_some, if_true, afterStep_straight htargets] at hrun
    cases hrun
    -- so do the height and the peak of the other graph
    have hpeak' : peak.toInt = F'.peak := by
      rw [hgrown, huses.peak hpeaked (hheight ▸ hwithin), huses.net, hpeak, hheight]
    have hF' : frameAt (f.onBlock i fun b => { b with frame := some F' }).blocks i = some F' := by
      show frameAt (f.blocks.modify i _) i = _
      rw [frameAt_modify_frame hi (fun _ => rfl), if_pos rfl]
    cases hends : o.endsBlock with
    | false =>
      rw [straightened, hends]
      have hnet : (g.height + .ofInt change).toInt = g.height.toInt + u.net := by
        rw [hchange hends, toInt_add_ofInt]
        · have := hwithin.between
          unfold StackUse.net
          omega
        · exact hwithin.behind
      refine ⟨⟨h.heights.congr rfl rfl, h.frames, h.placed, h.currentHeights, h.currentFrames, F', hF',
        huses.peaked hpeaked (hheight ▸ hwithin), ?_, hpeak'⟩, u, hu, hnet⟩
      show (g.height + .ofInt change).toInt = F'.net
      rw [hnet, huses.net, hheight]
    | true =>
      rw [straightened, hends]
      refine ⟨rfl, rfl, F', ?_, ?_⟩
      · have hsize : i < (f.onBlock i fun b => { b with frame := some F' }).blocks.size := by
          rwa [size_onBlock]
        exact (frameAt_endBlock (f := f.onBlock i _) h.frames hsize stop).trans hF'
      · rw [← hpeak']
        exact peakOf_endBlock (g := { g with height := g.height + .ofInt change, peak })
          h.heights.mode h.placed h.currentHeights stop

/-- Where blocks have ended, instructions change nothing. -/
theorem Ended.reportAll (h : Ended g f k i) {rs : List Report}
    (hg : Returns₂ (reportAll rs) g T () g' T') (hf : Returns₂ (BlockGraph.reportAll rs) f U () f' U') :
    Ended g' f' k i := by
  have hidle : ∀ (rs : List Report) {g g' : BlockGraph} {T T' : TypeTable}, g.current = none →
      Returns₂ (BlockGraph.reportAll rs) g T () g' T' → g' = g := by
    intro rs g g' T T' hcurrent hrun
    induction rs generalizing T with
    | nil => exact (returns₂_pure.1 hrun).2.1.symm
    | cons r rs ih =>
      obtain ⟨_, g₁, T₁, hfirst, hrest⟩ := returns₂_bind.1 hrun
      cases (step_unreached hcurrent _ _ _ _ _).symm.trans hfirst
      exact ih hrest
  rw [hidle rs h.currentHeights hg, hidle rs h.currentFrames hf]
  exact h

/-- **A run of instructions** keeps both graphs abreast as long as none of them ends the block. -/
theorem Abreast.reportAll {rs : List Report} (hstraight : ∀ r ∈ rs, r.instruction.targets = [])
    (hformed : ∀ r ∈ rs, r.instruction.WellDescribed) (h : Abreast g f k i)
    (hheld : Held g.height.toInt rs) (hg : Returns₂ (reportAll rs) g T () g' T')
    (hf : Returns₂ (BlockGraph.reportAll rs) f U () f' U') :
    if rs.any fun r => r.instruction.endsBlock then Ended g' f' k i else Abreast g' f' k i := by
  induction rs generalizing g f T U with
  | nil =>
    obtain ⟨-, rfl, -⟩ := returns₂_pure.1 hg
    obtain ⟨-, rfl, -⟩ := returns₂_pure.1 hf
    exact h
  | cons r rs ih =>
    obtain ⟨_, g₁, T₁, hgr, hg⟩ := returns₂_bind.1 hg
    obtain ⟨_, f₁, U₁, hfr, hf⟩ := returns₂_bind.1 hf
    have hstep := h.step (hstraight r List.mem_cons_self) (hformed r List.mem_cons_self)
      (fun u hu => (hheld u hu).1) hgr hfr
    rw [List.any_cons]
    cases hends : r.instruction.endsBlock with
    | true =>
      rw [hends, if_pos rfl] at hstep
      exact hstep.reportAll hg hf
    | false =>
      rw [hends, if_neg Bool.false_ne_true] at hstep
      obtain ⟨hnext, u, hu, hheight⟩ := hstep
      exact ih (fun r hr => hstraight r (List.mem_cons_of_mem _ hr))
        (fun r hr => hformed r (List.mem_cons_of_mem _ hr)) hnext
        (hheight ▸ (hheld u hu).2 hends) hg hf

/-- **Both analyses count the same stack**, as long as 32 bits hold all heights.  Straight-line code that
can be reported to a graph of heights and to one with frames, from blocks at the same height, gives both
blocks the same peak.  As long as no return and no `athrow` has ended the blocks, they are at the same
height again. -/
theorem same_stack {rs : List Report} (hstraight : ∀ r ∈ rs, r.instruction.targets = [])
    (hformed : ∀ r ∈ rs, r.instruction.WellDescribed) (h : Abreast g f k i)
    (hheld : Held g.height.toInt rs) (hg : Returns₂ (reportAll rs) g T () g' T')
    (hf : Returns₂ (reportAll rs) f U () f' U') :
    ∃ F, frameAt f'.blocks i = some F ∧ g'.peakOf k = F.peak ∧
      ((∀ r ∈ rs, r.instruction.endsBlock = false) →
        g'.current = some k ∧ f'.current = some i ∧ g'.height.toInt = F.net) := by
  have hrun := h.reportAll hstraight hformed hheld hg hf
  split at hrun
  · rename_i hends
    obtain ⟨F, hF, hpeak⟩ := hrun.frame
    refine ⟨F, hF, hpeak, fun hnone => ?_⟩
    obtain ⟨r, hr, hr'⟩ := List.any_eq_true.1 hends
    exact absurd ((hnone r hr).symm.trans hr') Bool.false_ne_true
  · obtain ⟨F, hF, hpeak, hheight⟩ := hrun.peakOf
    exact ⟨F, hF, hpeak, fun _ => ⟨hrun.currentHeights, hrun.currentFrames, hheight⟩⟩

/-- A block that takes a value of its predecessors, stores a constant and returns. -/
def reportsStored : List Report :=
  [⟨0, 1, .simple Opcode.pop2⟩, ⟨1, 2, .simple Opcode.lconst1⟩,
    ⟨2, 5, .field Opcode.putstatic "A" "x" "J"⟩, ⟨5, 6, .simple Opcode.return_⟩]

theorem held_stored : Held 0 reportsStored := by
  have huses : reportsStored.map (fun r => r.instruction.straightUse?) =
      [some ⟨2, 0⟩, some ⟨0, 2⟩, some ⟨2, 0⟩, some ⟨0, 0⟩] := by decide +kernel
  simp only [reportsStored, List.map_cons, List.map_nil, List.cons.injEq, and_true] at huses
  obtain ⟨hpop, hconst, hput, hreturn⟩ := huses
  exact .cons hpop ⟨by decide, by decide, by decide⟩ (.cons hconst ⟨by decide, by decide, by decide⟩
    (.cons hput ⟨by decide, by decide, by decide⟩ (.cons hreturn ⟨by decide, by decide, by decide⟩
      trivial)))

theorem same_stack_stored :
    ∃ g' T' f' U',
      (∀ r ∈ reportsStored, r.instruction.targets = []) ∧
      (∀ r ∈ reportsStored, r.instruction.WellDescribed) ∧
      Abreast (BlockGraph.start .maxStack) (BlockGraph.start .frames) 0 0 ∧ Held 0 reportsStored ∧
      Returns₂ (reportAll reportsStored) (BlockGraph.start .maxStack) .empty () g' T' ∧
      Returns₂ (reportAll reportsStored) (BlockGraph.start .frames) .empty () f' U' ∧
      ∃ F, frameAt f'.blocks 0 = some F ∧ g'.peakOf 0 = F.peak := by
  have hstraight : ∀ r ∈ reportsStored, r.instruction.targets = [] := by decide
  have hformed : ∀ r ∈ reportsStored, r.instruction.WellDescribed := by
    intro r hr
    simp only [reportsStored, List.mem_cons, List.not_mem_nil, or_false] at hr
    rcases hr with rfl | rfl | rfl | rfl
    · trivial
    · trivial
    · exact ⟨.base .long, by decide +kernel⟩
    · trivial
  have hg := returns₂_of_ok (m := reportAll reportsStored) (f := BlockGraph.start .maxStack)
    (t := .empty) (a := ()) (by decide +kernel)
  have hf := returns₂_of_ok (m := reportAll reportsStored) (f := BlockGraph.start .frames)
    (t := .empty) (a := ()) (by decide +kernel)
  obtain ⟨F, hF, hpeak, -⟩ := same_stack hstraight hformed abreast_start held_stored hg hf
  exact ⟨_, _, _, _, hstraight, hformed, abreast_start, held_stored, hg, hf, F, hF, hpeak⟩

end BlockGraph

end ClassFile
