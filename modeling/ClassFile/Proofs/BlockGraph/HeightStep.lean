/-
# Instructions where only heights are recorded

An instruction that control gets to changes the height of the current block by the slots that it takes
and leaves, adds an edge for each of its targets, and ends the block if control does not fall through
(`step_heights`).  So the table of the opcodes' stack effects, the counts of slots in descriptors and the
slots that frames are changed by say the same.
-/
import ClassFile.Proofs.BlockGraph.Heights
import ClassFile.Proofs.Frame.Height

namespace ClassFile

/-! ## 1. Tables -/

namespace Opcode

/-- The opcodes that decide their slots, with these. -/
def uses : List (Opcode × StackUse) :=
  consumers.flatMap (fun (ops, taken) => ops.map fun op => (op, ⟨taken, 0⟩)) ++
  producers.flatMap (fun (ops, taken, left) =>
    ops.map fun op => (op, ⟨taken, if left.isWide then 2 else 1⟩)) ++
  [(dup, ⟨1, 2⟩), (dupX1, ⟨2, 3⟩), (dupX2, ⟨3, 4⟩), (dup2, ⟨2, 4⟩), (dup2X1, ⟨3, 5⟩),
    (dup2X2, ⟨4, 6⟩), (swap, ⟨2, 2⟩), (aaload, ⟨2, 1⟩)]

theorem mem_uses {op : Opcode} {u : StackUse} (hu : op.stackUse? = some u) : (op, u) ∈ uses := by
  unfold stackUse? at hu
  split at hu
  · rename_i e he
    cases hu
    unfold stackEffect? at he
    split at he
    · rename_i ops taken hfind
      cases he
      refine List.mem_append_left _ (List.mem_append_left _ (List.mem_flatMap.2
        ⟨(ops, taken), List.mem_of_find?_eq_some hfind, List.mem_map.2 ⟨op, ?_, rfl⟩⟩))
      have hfound := List.find?_some hfind
      exact List.contains_iff_mem.1 hfound
    · split at he
      · rename_i ops taken left hfind
        cases he
        refine List.mem_append_left _ (List.mem_append_right _ (List.mem_flatMap.2
          ⟨(ops, taken, left), List.mem_of_find?_eq_some hfind, List.mem_map.2 ⟨op, ?_, rfl⟩⟩))
        have hfound := List.find?_some hfind
        exact List.contains_iff_mem.1 hfound
      · exact nomatch he
  · rename_i count order _ hshuffle
    cases hu
    refine List.mem_append_right _ ?_
    unfold shuffle? at hshuffle
    split_ifs at hshuffle with h h h h h h h <;> cases hshuffle <;> rw [h] <;> decide
  · split at hu
    · rename_i h
      cases hu
      rw [h]
      decide
    · exact nomatch hu

/-- The two tables of opcodes agree, but for `athrow`, which leaves nothing that could have a height. -/
theorem stackDelta?_of_stackUse? {op : Opcode} {u : StackUse} (hu : op.stackUse? = some u) :
    op.stackDelta? = some u.net ∨ op = athrow ∧ op.stackDelta? = some 0 ∧ u.net = -1 := by
  have hall : ∀ p ∈ uses, p.1.stackDelta? = some p.2.net ∨
      p.1 = athrow ∧ p.1.stackDelta? = some 0 ∧ p.2.net = -1 := by decide +kernel
  exact hall (op, u) (mem_uses hu)

/-- Where an instruction without operands ends its block. -/
theorem isTerminal_of_stackUse? {op : Opcode} {u : StackUse} (hu : op.stackUse? = some u)
    (hop : op.shape = .simple) : op.isTerminal = (op.isReturn || op == athrow) := by
  have hall : ∀ p ∈ uses, p.1.shape = .simple →
      p.1.isTerminal = (p.1.isReturn || p.1 == athrow) := by decide +kernel
  exact hall (op, u) (mem_uses hu) hop

/-- A jump only takes slots, and its short form takes as many. -/
theorem jump_of_stackUse? {op : Opcode} {u : StackUse} (hu : op.stackUse? = some u)
    (hjump : op.isJump = true) : (Assembler.shortForm op).1.stackDelta? = some u.net ∧ u.net ≤ 0 ∧
      ((Assembler.shortForm op).1 == goto || (Assembler.shortForm op).1 == gotoW) = op.isTerminal := by
  have hall : ∀ p ∈ uses, p.1.isJump = true →
      (Assembler.shortForm p.1).1.stackDelta? = some p.2.net ∧ p.2.net ≤ 0 ∧
      ((Assembler.shortForm p.1).1 == goto || (Assembler.shortForm p.1).1 == gotoW) =
        p.1.isTerminal := by decide +kernel
  exact hall (op, u) (mem_uses hu) hjump

/-- A load or a store changes the height as the table says. -/
theorem stackDelta?_of_localUse? {op : Opcode} {u : StackUse}
    (hu : Instruction.localUse? op = some u) : op.stackDelta? = some u.net ∧ op ≠ ret := by
  unfold Instruction.localUse? at hu
  split_ifs at hu with h h h h <;> cases hu
  · rcases h with rfl | rfl | rfl <;> decide +kernel
  · rcases h with rfl | rfl <;> decide +kernel
  · rcases h with rfl | rfl | rfl <;> decide +kernel
  · rcases h with rfl | rfl <;> decide +kernel

end Opcode

/-! ## 2. Descriptors -/

namespace Descriptor

/-- Only two types of fields are wide, and one letter stands for each. -/
theorem slots_of_fieldType {descriptor : String} {t : FieldType}
    (h : fieldType descriptor = .ok t) :
    t.slots = if descriptor == "J" || descriptor == "D" then 2 else 1 := by
  obtain ⟨-, rfl⟩ := FieldType.parse_eq_ok_iff.1 (fieldType_eq_ok_iff.1 h)
  have hletter : ∀ l : Char, t.text = String.singleton l ↔ t.render = [l] := by
    intro l
    rw [← String.toList_inj, String.toList_singleton, FieldType.text, String.toList_ofList]
  have hJ : t.text = "J" ↔ t.render = ['J'] := hletter 'J'
  have hD : t.text = "D" ↔ t.render = ['D'] := hletter 'D'
  simp only [t.slots_eq, Bool.or_eq_true, beq_iff_eq, hJ, hD]

/-- A receiver is counted with the arguments. -/
theorem one_le_of_methodSlots {descriptor : String} {arguments result : Nat}
    (h : methodSlots descriptor = .ok (arguments, result)) : 1 ≤ arguments := by
  obtain ⟨t, -, hslots⟩ := methodSlots_eq_ok_iff.1 h
  cases hslots
  exact t.one_le_parameterSlots

end Descriptor

theorem ok_of_toOption {α : Type} {e : Except Error α} {a : α} (h : e.toOption = some a) :
    e = .ok a := by
  cases e with
  | error _ => exact nomatch h
  | ok _ => exact congrArg Except.ok (Option.some.inj h)

/-- The slots of a constant, as its descriptor has it and as it is counted. -/
theorem Instruction.stackUse?_constant {value : Loadable} {u : StackUse}
    (hu : (Instruction.constant value : Instruction Label).stackUse? = some u) :
    u = ⟨0, if value.isWide then 2 else 1⟩ := by
  cases value
  case dynamic name descriptor bootstrap arguments =>
    obtain ⟨t, ht, hu⟩ := Option.bind_eq_some_iff.1 hu
    cases hu
    rw [Descriptor.slots_of_fieldType (ok_of_toOption ht)]
    rfl
  all_goals exact (Option.some.inj hu).symm

/-! ## 3. One instruction -/

namespace BlockGraph

variable {g g' : BlockGraph} {T T' : TypeTable}

/-- An edge to a label from the current block, at its height. -/
def leadAtHeight (l : Label) (g : BlockGraph) : BlockGraph :=
  (g.blockOf l).2.addEdge (.atHeight (g.blockOf l).2.height) (g.blockOf l).1

theorem growBy_apply {change : Int32 → BlockGraph → BlockGraph} {op : Opcode} {slots : Int}
    (hop : op.stackDelta? = some slots) (stop : Nat) (g : BlockGraph) (T : TypeTable) :
    growBy change op stop g T = ((.ok (), change (.ofInt slots) g), T) := by
  unfold growBy
  rw [hop]
  rfl

/-- The height at which a jump leaves its block is that behind it. -/
theorem growBy_jump_apply {op : Opcode} {slots : Int} (hop : op.stackDelta? = some slots) (stop : Nat)
    (goal : Label) (g : BlockGraph) (T : TypeTable) :
    (do
      growBy shift op stop
      let i ← modifyGet (blockOf goal)
      modify fun g =>
        let height := g.height
        g.addEdge (.atHeight height) i : GraphM Unit) g T =
      ((.ok (), (g.shift (.ofInt slots)).leadAtHeight goal), T) := by
  rw [bind_apply₂, growBy_apply hop]
  rfl

/-- There is no frame to change. -/
theorem onFrame_frameless (hg : g.Frameless) (act : FrameM Unit) (T : TypeTable) :
    onFrame act g T = ((.ok (), g), T) := by
  obtain ⟨mode, blocks, labels, current, last, height, peak, handlers⟩ := g
  cases current with
  | none => rfl
  | some i =>
    by_cases hi : i < blocks.size
    · have hget : blocks[i]? = some blocks[i] := Array.getElem?_eq_getElem hi
      have hframe : blocks[i].frame = none := hg.frame _ (Array.getElem_mem hi)
      have hsame : (blocks.setIfInBounds i (.empty none)).setIfInBounds i blocks[i] = blocks := by
        apply Array.ext_getElem?
        intro j
        simp only [Array.getElem?_setIfInBounds, Array.size_setIfInBounds]
        split
        · rename_i hij
          subst hij
          exact hget.symm
        · rfl
      have hact : ∀ b : Block, b.frame = none → Block.onFrame act T b = ((.ok (), T), b) := by
        rintro ⟨position, isTarget, isWritten, isReachable, isPending, isPlaced, frame, next, edges,
          entryHeight, peak', sameAs⟩ rfl
        rfl
      simp only [onFrame, if_pos hi, changeBlock, hget, hact _ hframe, hsame]
    · simp only [onFrame, if_neg hi]

/-- A height in 32 bits does not go round where these hold the result. -/
theorem toInt_add_ofInt {height : Int32} {slots : Int} (hlow : -2 ^ 31 ≤ height.toInt + slots)
    (hhigh : height.toInt + slots < 2 ^ 31) :
    (height + .ofInt slots).toInt = height.toInt + slots := by
  rw [← Int32.ofInt_toInt height, ← Int32.ofInt_add, Int32.ofInt_toInt]
  exact Int32.toInt_ofInt_of_le hlow hhigh

/-- What an instruction that takes and leaves slots does to a graph of heights, if control gets to it: the
height and its peak change, jumps become edges, and the block may end. -/
structure StepsTo (g g' : BlockGraph) (o : Instruction Label) (u : StackUse) (stop : Nat)
    (change : Int) (peak : Int32) : Prop where
  exact : o.fallsThrough = true ∨ o.targets ≠ [] → change = u.net
  peak_eq : g.height.toInt ≤ g.peak.toInt → u.Within g.height.toInt →
    peak.toInt = max g.peak.toInt (g.height.toInt + u.net)
  eq : g' = (if o.fallsThrough then id else endBlock stop)
    (o.targets.foldl (fun g l => g.leadAtHeight l)
      { g with height := g.height + .ofInt change, peak := peak })

/-- The peak behind an instruction, if 32 bits hold all heights.  More can be left than counts, but not
more than was there. -/
theorem toInt_grown {u : StackUse} {change : Int} (hle : g.height.toInt ≤ g.peak.toInt)
    (hu : u.Within g.height.toInt) (hchange : change = u.net ∨ u.net ≤ change ∧ change ≤ 0) :
    (max g.peak (g.height + .ofInt change)).toInt = max g.peak.toInt (g.height.toInt + u.net) := by
  obtain ⟨hbefore, hbetween, hbehind⟩ := hu
  unfold StackUse.net at hchange hbehind ⊢
  rw [toInt_max, toInt_add_ofInt (by omega) (by omega)]
  omega

/-- An instruction that changes the height, and after which its block may end. -/
theorem StepsTo.ofGrow {o : Instruction Label} {u : StackUse} {change : Int} {stop : Nat}
    (htargets : o.targets = [])
    (hchange : change = u.net ∨ o.fallsThrough = false ∧ u.net ≤ change ∧ change ≤ 0)
    (hg' : g' = (if o.fallsThrough then id else endBlock stop) (g.grow (.ofInt change))) :
    StepsTo g g' o u stop change (max g.peak (g.height + .ofInt change)) := by
  refine ⟨fun h => hchange.resolve_right fun hends => ?_, fun hle hu =>
    toInt_grown hle hu (hchange.imp_right And.right), ?_⟩
  · rcases h with hfalls | hne
    · exact absurd (hends.1.symm.trans hfalls) Bool.false_ne_true
    · exact hne htargets
  · rw [hg', htargets]
    rfl

/-- An instruction that takes what decides where control goes. -/
theorem StepsTo.ofShift {o : Instruction Label} {u : StackUse} {stop : Nat} (hle : u.net ≤ 0)
    (hg' : g' = (if o.fallsThrough then id else endBlock stop)
      (o.targets.foldl (fun g l => g.leadAtHeight l) (g.shift (.ofInt u.net)))) :
    StepsTo g g' o u stop u.net g.peak where
  exact _ := rfl
  peak_eq _ _ := by omega
  eq := hg'

/-- An instruction behind which control goes on. -/
theorem StepsTo.grow {o : Instruction Label} {u : StackUse} {stop : Nat} {slots : Int32}
    (htargets : o.targets = []) (hfalls : o.fallsThrough = true) (hslots : slots = .ofInt u.net) :
    StepsTo g (g.grow slots) o u stop u.net (max g.peak (g.height + .ofInt u.net)) := by
  refine .ofGrow htargets (.inl rfl) ?_
  rw [if_pos hfalls, hslots]
  rfl

/-- An instruction that leaves as many slots as it takes. -/
theorem StepsTo.idle {o : Instruction Label} {u : StackUse} {stop : Nat} (htargets : o.targets = [])
    (hfalls : o.fallsThrough = true) (hnet : u.net = 0) : StepsTo g g o u stop 0 g.peak := by
  refine ⟨fun _ => hnet.symm, fun h _ => by omega, ?_⟩
  rw [htargets, if_pos hfalls, show Int32.ofInt 0 = 0 from rfl, Int32.add_zero]
  rfl

/-- An instruction that takes a key and goes to one of its targets. -/
theorem StepsTo.switch {o : Instruction Label} {stop : Nat} {targets : List Label}
    (htargets : o.targets = targets) (hstops : o.fallsThrough = false) :
    StepsTo g ((targets.foldl (fun g l => g.leadAtHeight l) (g.shift (-1))).endBlock stop) o ⟨1, 0⟩
      stop (-1) g.peak := by
  refine .ofShift (by decide) ?_
  rw [hstops, htargets]
  rfl

section Shapes

variable (hg : g.mode = .maxStack) (hcurrent : g.current.isSome = true) {op : Opcode} {u : StackUse}
  {descriptor : String}

include hcurrent in
theorem whenReached_current (act : GraphM Unit) (T : TypeTable) : whenReached act g T = act g T := by
  rw [whenReached_apply, if_pos hcurrent]

include hg hcurrent

theorem whenReached_heights (frames heights : GraphM Unit) (T : TypeTable) :
    whenReached (byMode frames heights) g T = heights g T := by
  rw [whenReached_current hcurrent, byMode_heights_apply _ _ hg]

/-- An opcode that the table has a change of the height for. -/
theorem plain_of_stackDelta? {slots : Int} (hop : op.stackDelta? = some slots) (stop : Nat)
    (T : TypeTable) :
    plain op stop g T = ((.ok (), (if op.isReturn || op == Opcode.athrow then endBlock stop else id)
      (g.grow (.ofInt slots))), T) := by
  unfold plain
  rw [whenReached_current hcurrent, bind_apply₂, byMode_heights_apply _ _ hg, growBy_apply hop]
  cases op.isReturn || op == Opcode.athrow <;> rfl

/-- An instruction without operands. -/
theorem plain_heights (hu : op.stackUse? = some u) (stop : Nat) (T : TypeTable) :
    ∃ change : Int, (change = u.net ∨ op = Opcode.athrow ∧ change = 0 ∧ u.net = -1) ∧
      plain op stop g T = ((.ok (), (if op.isReturn || op == Opcode.athrow then endBlock stop else id)
        (g.grow (.ofInt change))), T) := by
  rcases Opcode.stackDelta?_of_stackUse? hu with hd | ⟨hop, hd, hnet⟩
  · exact ⟨u.net, .inl rfl, plain_of_stackDelta? hg hcurrent hd stop T⟩
  · exact ⟨0, .inr ⟨hop, rfl, hnet⟩, plain_of_stackDelta? hg hcurrent hd stop T⟩

/-- An instruction whose operand is a number. -/
theorem number_heights (operand : Int32) (T : TypeTable) :
    number op operand g T = ((.ok (), if op ≠ Opcode.newarray then g.grow 1 else g), T) := by
  unfold number
  rw [whenReached_heights hg hcurrent]
  split_ifs <;> rfl

/-- A load or store of a local. -/
theorem localOperand_heights (hu : Instruction.localUse? op = some u) (index : UInt16) (stop : Nat)
    (T : TypeTable) : localOperand op index stop g T = ((.ok (), g.grow (.ofInt u.net)), T) := by
  obtain ⟨hd, hret⟩ := Opcode.stackDelta?_of_localUse? hu
  unfold localOperand
  rw [whenReached_heights hg hcurrent, if_neg hret, growBy_apply hd]

/-- An instruction that makes or checks objects of a class or an array. -/
theorem typeOperand_heights (start : Nat) (name : String) (T : TypeTable) :
    typeOperand op start name g T = ((.ok (), if op = Opcode.new then g.grow 1 else g), T) := by
  unfold typeOperand
  rw [whenReached_heights hg hcurrent]
  split_ifs <;> rfl

/-- An instruction that accesses a field. -/
theorem field_heights {t : FieldType} (ht : Descriptor.fieldType descriptor = .ok t)
    (hu : Instruction.fieldUse? op t.slots = some u) (name : String) (T : TypeTable) :
    field op name descriptor g T = ((.ok (), g.grow (.ofInt u.net)), T) := by
  have hnet : (if op = Opcode.getstatic then (t.slots : Int) else if op = Opcode.putstatic then -t.slots
      else if op = Opcode.getfield then t.slots - 1 else -t.slots - 1) = u.net := by
    unfold Instruction.fieldUse? at hu
    split_ifs at hu ⊢ <;> cases hu <;> simp only [StackUse.net] <;> omega
  unfold field
  rw [whenReached_heights hg hcurrent, ht, ← hnet]
  rfl

/-- An instruction that calls a method. -/
theorem call_heights {arguments result : Nat}
    (hslots : Descriptor.methodSlots descriptor = .ok (arguments, result))
    (hu : Instruction.callUse? op arguments result = some u) (name : String) (T : TypeTable) :
    call op name descriptor g T = ((.ok (), g.grow (.ofInt u.net)), T) := by
  have hone := Descriptor.one_le_of_methodSlots hslots
  have hnet : (result : Int) - arguments +
      (if op = Opcode.invokestatic ∨ op = Opcode.invokedynamic then 1 else 0) = u.net := by
    unfold Instruction.callUse? at hu
    split_ifs at hu ⊢ <;> cases hu <;> simp only [StackUse.net] <;> omega
  unfold call
  rw [whenReached_heights hg hcurrent, hslots, ← hnet]
  rfl

/-- A jump. -/
theorem jump_heights {slots : Int} (hop : op.stackDelta? = some slots) (goal : Label) (stop : Nat)
    (around : Bool) (T : TypeTable) :
    jump op goal stop around g T =
      ((.ok (), (if op == Opcode.goto || op == Opcode.gotoW then endBlock stop else id)
        ((g.shift (.ofInt slots)).leadAtHeight goal)), T) := by
  unfold jump
  rw [whenReached_current hcurrent, bind_apply₂, byMode_heights_apply _ _ hg, growBy_jump_apply hop]
  dsimp only
  split <;> rfl

/-- A constant is put on the stack. -/
theorem constant_heights (value : Loadable) (T : TypeTable) :
    constant value g T = ((.ok (), g.grow (if value.isWide then 2 else 1)), T) := by
  unfold constant
  rw [whenReached_heights hg hcurrent]
  rfl

/-- A switch. -/
theorem switch_heights (targets : List Label) (stop : Nat) (T : TypeTable) :
    switch op targets stop g T =
      ((.ok (), (targets.foldl (fun g l => g.leadAtHeight l) (g.shift (-1))).endBlock stop), T) := by
  unfold switch
  rw [whenReached_current hcurrent, bind_apply₂, byMode_heights_apply _ _ hg]
  rfl

/-- An array of arrays. -/
theorem multiArray_heights (dimensions : UInt8) (T : TypeTable) :
    multiArray descriptor dimensions g T =
      ((.ok (), g.grow (.ofInt (1 - (dimensions.toNat : Int)))), T) := by
  unfold multiArray
  rw [whenReached_heights hg hcurrent]
  rfl

end Shapes

/-- It is taken wherever control gets to. -/
theorem step_simple_heights (hg : g.mode = .maxStack) {op : Opcode} {u : StackUse}
    (hu : op.stackUse? = some u) (start stop : Nat) (around : Bool) (T : TypeTable) :
    ∃ g', step start stop around (.simple op) g T = ((.ok (), g'), T) := by
  cases hcurrent : g.current with
  | none => exact ⟨g, step_unreached hcurrent start stop around _ T⟩
  | some i =>
    obtain ⟨change, -, hplain⟩ := plain_heights hg (by rw [hcurrent]; rfl) hu stop T
    exact ⟨_, hplain⟩

/-- A switch is taken wherever control gets to. -/
theorem step_tableSwitch_heights (hg : g.mode = .maxStack) (low high : Int32) (default : Label)
    (targets : List Label) (start stop : Nat) (around : Bool) (T : TypeTable) :
    ∃ g', step start stop around (.tableSwitch low high default targets) g T = ((.ok (), g'), T) := by
  cases hcurrent : g.current with
  | none => exact ⟨g, step_unreached hcurrent start stop around _ T⟩
  | some i => exact ⟨_, switch_heights hg (by rw [hcurrent]; rfl) (default :: targets) stop T⟩

/-- A load or store of a local is taken wherever control gets to. -/
theorem step_var_heights (hg : g.mode = .maxStack) {op : Opcode} {u : StackUse}
    (hu : Instruction.localUse? op = some u) (index : UInt16) (start stop : Nat) (around : Bool)
    (T : TypeTable) : ∃ g', step start stop around (.var op index) g T = ((.ok (), g'), T) := by
  cases hcurrent : g.current with
  | none => exact ⟨g, step_unreached hcurrent start stop around _ T⟩
  | some i => exact ⟨_, localOperand_heights hg (by rw [hcurrent]; rfl) hu index stop T⟩

/-- A jump is taken wherever control gets to. -/
theorem step_jump_heights (hg : g.mode = .maxStack) {op : Opcode} {slots : Int}
    (hop : op.stackDelta? = some slots) (goal : Label) (start stop : Nat) (around : Bool) (T : TypeTable) :
    ∃ g', step start stop around (.jump op goal) g T = ((.ok (), g'), T) := by
  cases hcurrent : g.current with
  | none => exact ⟨g, step_unreached hcurrent start stop around _ T⟩
  | some i => exact ⟨_, jump_heights hg (by rw [hcurrent]; rfl) hop goal stop around T⟩

/-- **One instruction** that control gets to. -/
theorem step_heights (hg : g.Frameless) (hcurrent : g.current.isSome = true)
    {o : Instruction Label} {u : StackUse} (hu : o.stackUse? = some u) {start stop : Nat}
    {around : Bool} (hrun : step start stop around (CodeWriter.reported o) g T = ((.ok (), g'), T')) :
    ∃ change peak, StepsTo g g' o u stop change peak := by
  cases o
  case simple op =>
    rw [Instruction.stackUse?] at hu
    split_ifs at hu with hshape
    obtain ⟨change, hchange, hplain⟩ := plain_heights hg.mode hcurrent hu stop T
    rw [← Opcode.isTerminal_of_stackUse? hu hshape] at hplain
    cases hplain.symm.trans hrun
    have hfalls : (Instruction.simple op : Instruction Label).fallsThrough = !op.isTerminal := rfl
    refine ⟨change, _, .ofGrow rfl ?_ ?_⟩
    · rcases hchange with hnet | ⟨rfl, rfl, hnet⟩
      · exact .inl hnet
      · exact .inr ⟨by decide, by omega, by omega⟩
    · rw [hfalls]
      cases op.isTerminal <;> rfl
  case int op operand =>
    cases (number_heights hg.mode hcurrent operand T).symm.trans hrun
    rw [Instruction.stackUse?] at hu
    split_ifs at hu with hpush hnew <;> cases hu
    · rw [if_pos (by rcases hpush with rfl | rfl <;> decide)]
      exact ⟨_, _, .grow rfl rfl rfl⟩
    · rw [if_neg (not_not_intro hnew)]
      exact ⟨_, _, .idle rfl rfl rfl⟩
  case var op index =>
    cases (localOperand_heights hg.mode hcurrent hu index stop T).symm.trans hrun
    exact ⟨_, _, .grow rfl rfl rfl⟩
  case type op name =>
    cases (typeOperand_heights hg.mode hcurrent start name T).symm.trans hrun
    rw [Instruction.stackUse?] at hu
    split_ifs at hu with hnew hother <;> cases hu
    · rw [if_pos hnew]
      exact ⟨_, _, .grow rfl rfl rfl⟩
    · rw [if_neg hnew]
      exact ⟨_, _, .idle rfl rfl rfl⟩
  case field op owner name descriptor =>
    rw [Instruction.stackUse?] at hu
    obtain ⟨t, ht, hu⟩ := Option.bind_eq_some_iff.1 hu
    cases (field_heights hg.mode hcurrent (ok_of_toOption ht) hu name T).symm.trans hrun
    exact ⟨_, _, .grow rfl rfl rfl⟩
  case method op owner name descriptor interface =>
    rw [Instruction.stackUse?] at hu
    split_ifs at hu with hdynamic
    obtain ⟨⟨arguments, result⟩, hslots, hu⟩ := Option.bind_eq_some_iff.1 hu
    cases (call_heights hg.mode hcurrent (ok_of_toOption hslots) hu name T).symm.trans hrun
    exact ⟨_, _, .grow rfl rfl rfl⟩
  case invokeDynamic name descriptor bootstrap arguments =>
    rw [Instruction.stackUse?] at hu
    obtain ⟨⟨arguments, result⟩, hslots, hu⟩ := Option.bind_eq_some_iff.1 hu
    cases (call_heights hg.mode hcurrent (ok_of_toOption hslots) hu name T).symm.trans hrun
    exact ⟨_, _, .grow rfl rfl rfl⟩
  case constant value =>
    obtain rfl := Instruction.stackUse?_constant hu
    cases (constant_heights hg.mode hcurrent value T).symm.trans hrun
    refine ⟨_, _, .grow rfl rfl ?_⟩
    cases value.isWide <;> rfl
  case increment index amount =>
    cases hu
    cases (onFrame_frameless hg (Frame.increment index) T).symm.trans hrun
    exact ⟨_, _, .idle rfl rfl rfl⟩
  case multiArray descriptor dimensions =>
    cases (multiArray_heights hg.mode hcurrent dimensions T).symm.trans hrun
    rw [Instruction.stackUse?] at hu
    obtain ⟨t, -, hu⟩ := Option.bind_eq_some_iff.1 hu
    split_ifs at hu
    cases hu
    exact ⟨_, _, .grow rfl rfl rfl⟩
  case jump op goal =>
    rw [Instruction.stackUse?] at hu
    split_ifs at hu with hjump
    obtain ⟨hd, hle, hterminal⟩ := Opcode.jump_of_stackUse? hu hjump
    change jump (Assembler.shortForm op).1 goal stop around g T = _ at hrun
    rw [jump_heights hg.mode hcurrent hd, hterminal] at hrun
    cases hrun
    have hfalls : (Instruction.jump op goal : Instruction Label).fallsThrough = !op.isTerminal := rfl
    refine ⟨_, _, .ofShift hle ?_⟩
    rw [hfalls]
    cases op.isTerminal <;> rfl
  case tableSwitch low high default targets =>
    cases hu
    cases (switch_heights hg.mode hcurrent (default :: targets) stop T).symm.trans hrun
    exact ⟨_, _, .switch rfl rfl⟩
  case lookupSwitch default keys targets =>
    cases hu
    cases (switch_heights hg.mode hcurrent (default :: targets) stop T).symm.trans hrun
    exact ⟨_, _, .switch rfl rfl⟩

end BlockGraph

end ClassFile
