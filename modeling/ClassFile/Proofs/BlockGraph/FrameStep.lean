/-
# Instructions where there are frames

An instruction that control gets to changes the frame of the current block by the slots that it takes
and leaves (`uses_reported`).  Then it adds an edge for each of its targets, and the block ends: for good
if control does not fall through, and otherwise where there are targets (`afterStep_reported`).
-/
import ClassFile.Proofs.BlockGraph.Agreement

namespace ClassFile

variable {o : Instruction Label} {u : StackUse}

/-! ## 1. Frames -/

namespace Opcode

/-- The short form of a jump takes what the jump takes. -/
theorem stackUse?_shortForm {op : Opcode} (hu : op.stackUse? = some u) (hjump : op.isJump = true) :
    (Assembler.shortForm op).1.stackUse? = some u := by
  have hall : ∀ p ∈ uses, p.1.isJump = true →
      (Assembler.shortForm p.1).1.stackUse? = some p.2 := by decide +kernel
  exact hall (op, u) (mem_uses hu) hjump

end Opcode

namespace Instruction

/-- Where slots can be counted, there are descriptors of the kind that the instruction needs. -/
theorem wellDescribed_of_stackUse? (hu : o.stackUse? = some u) : o.WellDescribed ∧ o.Counted := by
  have hfield : ∀ {descriptor : String} {t : FieldType},
      (Descriptor.fieldType descriptor).toOption = some t → FieldType.parse descriptor = .ok t :=
    fun h => Descriptor.fieldType_eq_ok_iff.1 (ok_of_toOption h)
  have hmethod : ∀ {descriptor : String} {slots : Nat × Nat},
      (Descriptor.methodSlots descriptor).toOption = some slots →
        ∃ t, MethodType.parse descriptor = .ok t := fun h =>
    have ⟨t, ht, _⟩ := Descriptor.methodSlots_eq_ok_iff.1 (ok_of_toOption h)
    ⟨t, ht⟩
  cases o
  case field op owner name descriptor =>
    obtain ⟨t, ht, hu⟩ := Option.bind_eq_some_iff.1 hu
    refine ⟨?_, t, hfield ht⟩
    have hop : op.accessesField = true := by
      unfold fieldUse? at hu
      split_ifs at hu with h h h h <;> rw [h] <;> decide
    show op.Accepts descriptor
    rw [Opcode.Accepts, if_pos hop]
    exact ⟨t, hfield ht⟩
  case method op owner name descriptor interface =>
    rw [stackUse?] at hu
    split_ifs at hu
    obtain ⟨slots, hslots, hu⟩ := Option.bind_eq_some_iff.1 hu
    refine ⟨?_, hmethod hslots⟩
    have hop : op.accessesField = false := by
      unfold callUse? at hu
      split_ifs at hu with h h
      · rcases h with rfl | rfl <;> decide
      · rcases h with rfl | rfl | rfl <;> decide
    show op.Accepts descriptor
    rw [Opcode.Accepts, if_neg (by rw [hop]; exact Bool.false_ne_true)]
    exact hmethod hslots
  case invokeDynamic name descriptor bootstrap arguments =>
    obtain ⟨slots, hslots, -⟩ := Option.bind_eq_some_iff.1 hu
    exact ⟨hmethod hslots, trivial⟩
  case constant value =>
    refine ⟨?_, trivial⟩
    cases value
    case dynamic name descriptor bootstrap arguments =>
      obtain ⟨t, ht, -⟩ := Option.bind_eq_some_iff.1 hu
      exact ⟨t, hfield ht⟩
    all_goals trivial
  case multiArray descriptor dimensions =>
    obtain ⟨t, ht, hu⟩ := Option.bind_eq_some_iff.1 hu
    split_ifs at hu with harray
    exact ⟨⟨t, hfield ht, harray⟩, trivial⟩
  all_goals exact ⟨trivial, trivial⟩

/-- Without targets, it does not matter whether an opcode comes with the operands of another shape. -/
theorem straightUse?_of_stackUse? (htargets : o.targets = []) (hu : o.stackUse? = some u) :
    o.straightUse? = some u := by
  cases o
  case simple op =>
    rw [stackUse?] at hu
    split_ifs at hu
    exact hu
  case method op owner name descriptor interface =>
    rw [stackUse?] at hu
    split_ifs at hu
    exact hu
  case jump | tableSwitch | lookupSwitch => exact absurd htargets (List.cons_ne_nil _ _)
  all_goals exact hu

end Instruction

namespace BlockGraph

variable {g : BlockGraph} {f f' : Frame} {T T' : TypeTable} {start stop : Nat} {around : Bool}

/-- **An instruction changes a frame** by the slots that it takes and leaves. -/
theorem uses_reported (hu : o.stackUse? = some u)
    (hrun : Returns₂ (frameStep start (CodeWriter.reported o)) f T () f' T') : Frame.Uses u f f' := by
  have hplain : ∀ op : Opcode, op.stackUse? = some u → Returns₂ (Frame.plain op) f T () f' T' →
      Frame.Uses u f f' := by
    intro op hop hrun
    obtain ⟨v, hv, huses⟩ := Frame.measured_plain op f T () f' T' hrun
    obtain rfl : u = v := Option.some.inj (hop.symm.trans hv)
    exact huses
  have hstraight : o.targets = [] → CodeWriter.reported o = o → Frame.Uses u f f' := by
    intro htargets hsame
    obtain ⟨hformed, hcounted⟩ := Instruction.wellDescribed_of_stackUse? hu
    rw [hsame] at hrun
    obtain ⟨v, hv, huses⟩ :=
      measured_frameStep htargets hformed hcounted start f T () f' T' hrun
    obtain rfl : u = v :=
      Option.some.inj ((Instruction.straightUse?_of_stackUse? htargets hu).symm.trans hv)
    exact huses
  cases o
  case jump op goal =>
    rw [Instruction.stackUse?] at hu
    split_ifs at hu with hjump
    exact hplain _ (Opcode.stackUse?_shortForm hu hjump) hrun
  case tableSwitch low high default targets =>
    obtain rfl : u = ⟨1, 0⟩ := (Option.some.inj hu).symm
    exact hplain .tableswitch (by decide +kernel) hrun
  case lookupSwitch default keys targets =>
    obtain rfl : u = ⟨1, 0⟩ := (Option.some.inj hu).symm
    exact hplain .lookupswitch (by decide +kernel) hrun
  all_goals exact hstraight rfl rfl

/-! ## 2. Blocks -/

/-- How the current block ends behind an instruction, if it does. -/
def closing (o : Instruction Label) (stop : Nat) (around : Bool) : BlockGraph → BlockGraph :=
  if o.fallsThrough then (if o.targets = [] then id else fallThrough stop around) else endBlock stop

/-- **What an instruction adds to a graph**: edges to its targets, and then the block may end. -/
theorem afterStep_reported (hu : o.stackUse? = some u) (g : BlockGraph) :
    g.afterStep stop around (CodeWriter.reported o) =
      closing o stop around (o.targets.foldl (fun g l => g.leadTo l) g) := by
  cases o
  case simple op =>
    rw [Instruction.stackUse?] at hu
    split_ifs at hu with hshape
    have hfalls : (Instruction.simple op : Instruction Label).fallsThrough = !op.isTerminal := rfl
    change g.afterStep stop around (.simple op) = _
    rw [afterStep, ← Opcode.isTerminal_of_stackUse? hu hshape, closing, hfalls]
    cases op.isTerminal <;> rfl
  case jump op goal =>
    rw [Instruction.stackUse?] at hu
    split_ifs at hu with hjump
    obtain ⟨-, -, hterminal⟩ := Opcode.jump_of_stackUse? hu hjump
    have hfalls : (Instruction.jump op goal : Instruction Label).fallsThrough = !op.isTerminal := rfl
    change g.afterStep stop around (.jump (Assembler.shortForm op).1 goal) = _
    rw [afterStep, hterminal, closing, hfalls]
    cases op.isTerminal <;> rfl
  all_goals rfl

end BlockGraph

end ClassFile
