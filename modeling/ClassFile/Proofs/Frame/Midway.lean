/-
# Types in the middle of a block

A handler is entered with the locals of any place in the blocks that it protects, but only those at
their ends are merged into its entry.  That is enough because of what instructions do to locals.

* An instruction stores a local, adds to one, or leaves all of them as they are (`spares_frameStep`).  A
  block of protected code ends behind each store, so in front of an instruction only such locals have
  been set as were an `int` before and still are (`SetsInts`).
* Constructors have run in front of an instruction on some of what they have run on at the end of the
  block (`prolongs_frameStep`).

So a local in the middle of a block has its type on entry, except for what a constructor has run on
there.  Then its type at the end of the block is another one than on entry as well, and only `top`
covers both (`covered_midway`).
-/
import ClassFile.Proofs.BlockGraph.Build
import ClassFile.Proofs.Frame.Relative

namespace ClassFile

namespace Frame

variable {f f' : Frame}

/-! ## 1. What instructions do to locals -/

/-- Constructors have run on the same as before, and perhaps on more. -/
def Prolongs (f f' : Frame) : Prop := f.constructed.toList <+: f'.constructed.toList

instance : IsPreorder Frame Prolongs where
  refl _ := List.prefix_rfl
  trans _ _ _ := List.IsPrefix.trans

/-- No local has been set since then. -/
structure Spares (f f' : Frame) : Prop where
  locals : f'.locals = f.locals
  prolongs : f.Prolongs f'

instance : IsPreorder Frame Spares where
  refl _ := ⟨rfl, List.prefix_rfl⟩
  trans _ _ _ h h' := ⟨h'.locals.trans h.locals, h.prolongs.trans h'.prolongs⟩

theorem Spares.trans {f'' : Frame} (h : f.Spares f') (h' : f'.Spares f'') : f.Spares f'' :=
  IsTrans.trans _ _ _ h h'

theorem spares_push (t : SlotType) (f : Frame) : f.Spares (f.push t) := ⟨rfl, List.prefix_rfl⟩

theorem spares_drop (count : Nat) (f : Frame) : f.Spares (f.drop count) := ⟨rfl, List.prefix_rfl⟩

theorem spares_pop (f : Frame) : f.Spares f.pop.2 := by
  obtain ⟨entry, locals, stack, taken, peak, constructed⟩ := f
  cases hb : stack.back? with
  | none =>
    simp only [pop, hb]
    exact ⟨rfl, List.prefix_rfl⟩
  | some t =>
    simp only [pop, hb]
    exact ⟨rfl, List.prefix_rfl⟩

theorem spares_pushAll (ts : List SlotType) (f : Frame) : f.Spares (f.pushAll ts) := by
  induction ts generalizing f with
  | nil => exact ⟨rfl, List.prefix_rfl⟩
  | cons t ts ih => exact (spares_push t f).trans (ih (f.push t))

theorem spares_pushValue (t : SlotType) (f : Frame) : f.Spares (f.pushValue t) := by
  unfold pushValue
  split
  · exact (spares_push t f).trans (spares_push .top _)
  · exact spares_push t f

theorem spares_popAll (count : Nat) (f : Frame) : f.Spares (f.popAll count).2 := by
  induction count generalizing f with
  | zero => exact ⟨rfl, List.prefix_rfl⟩
  | succ count ih => exact (spares_pop f).trans (ih f.pop.2)

theorem spares_takeReceiver (construction : Bool) (f : Frame) :
    f.Spares (f.takeReceiver construction) := by
  obtain ⟨hlocals, hprolongs⟩ := spares_pop f
  cases construction with
  | false => exact ⟨hlocals, hprolongs⟩
  | true =>
    refine ⟨hlocals, hprolongs.trans ?_⟩
    show f.pop.2.constructed.toList <+: (f.pop.2.constructed.push f.pop.1).toList
    rw [Array.toList_push]
    exact List.prefix_append _ _

theorem spares_plain? {op : Opcode} {change : Frame → Frame} (hop : plain? op = some change)
    (f : Frame) : f.Spares (change f) := by
  unfold plain? at hop
  split at hop
  · rename_i e _ _
    cases hop
    unfold applyEffect
    split
    · exact (spares_drop _ f).trans (spares_pushValue _ _)
    · exact spares_drop _ f
  · cases hop
    exact (spares_popAll _ f).trans (spares_pushAll _ _)
  · split at hop
    · cases hop
      exact ((spares_drop 1 f).trans (spares_pop _)).trans (spares_push _ _)
    · exact nomatch hop

theorem prolongs_setLocal (index : UInt16) (t : SlotType) (f : Frame) :
    f.Prolongs (f.setLocal index t) := List.prefix_rfl

theorem prolongs_halveBefore (index : UInt16) (f : Frame) : f.Prolongs (f.halveBefore index) := by
  unfold halveBefore
  split
  · exact List.prefix_rfl
  · exact prolongs_setLocal _ _ f

theorem prolongs_store (index : UInt16) (f : Frame) : f.Prolongs (f.store index) := by
  unfold store
  exact ((spares_pop f).prolongs.trans (prolongs_setLocal index _ _)).trans
    (prolongs_halveBefore index _)

theorem prolongs_storeWide (index : UInt16) (f : Frame) : f.Prolongs (f.storeWide index) := by
  have hpop := (spares_drop 1 f).trans (spares_pop _)
  unfold storeWide
  exact ((hpop.prolongs.trans (prolongs_setLocal index _ _)).trans (prolongs_setLocal _ .top _)).trans
    (prolongs_halveBefore index _)

/-! ## 2. Instructions -/

theorem spares_onTypes {α : Type} (m : TypeM α) : Leads₂ Spares (onTypes m) := by
  intro f T a f' T' h
  have hf : f = f' := congrArg (fun r => r.1.2) h
  exact hf ▸ ⟨rfl, List.prefix_rfl⟩

theorem spares_plain (op : Opcode) : Leads₂ Spares (plain op) := by
  unfold plain
  split
  · rename_i change hop
    exact .modify (spares_plain? hop)
  · split <;> exact .throw _

theorem spares_number (op : Opcode) (operand : Int32) : Leads₂ Spares (number op operand) := by
  unfold number
  split
  · exact .modify (spares_push _)
  · split
    · exact .modify fun f => (spares_drop 1 f).trans (spares_push _ _)
    · exact .throw _

theorem spares_base (b : BaseType) :
    Leads₂ Spares (modify (pushValue (.scalar (.base b))) : FrameM Unit) :=
  .modify (spares_pushValue _)

/-- A local is loaded, or the opcode is that of a store. -/
theorem spares_localOperand (op : Opcode) (index : UInt16) :
    Leads₂ Spares (localOperand op index) ∨
      CodeWriter.isStore op = true ∧ Leads₂ Prolongs (localOperand op index) := by
  unfold localOperand
  split
  · exact .inl (spares_base _)
  split
  · exact .inl (spares_base _)
  split
  · exact .inl (spares_base _)
  split
  · exact .inl (spares_base _)
  split
  · exact .inl (.modify fun f => spares_push _ f)
  split
  · rename_i hop
    exact .inr ⟨by rcases hop with rfl | rfl | rfl <;> rfl, .modify (prolongs_store index)⟩
  split
  · rename_i hop
    exact .inr ⟨by rcases hop with rfl | rfl <;> rfl, .modify (prolongs_storeWide index)⟩
  · left
    split <;> exact .throw _

theorem spares_pushDescriptor (descriptor : String) : Leads₂ Spares (pushDescriptor descriptor) := by
  refine (spares_onTypes _).bind fun t => ?_
  split
  · exact .modify (spares_pushValue _)
  · exact .pure _

theorem spares_popDescriptor (descriptor : String) : Leads₂ Spares (popDescriptor descriptor) := by
  unfold popDescriptor
  split
  · exact (Leads₂.lift _).bind fun _ => .modify (spares_drop _)
  · exact (Leads₂.lift _).bind fun _ => .modify (spares_drop _)

theorem spares_pushType {α : Type} (m : TypeM α) (g : α → SlotType) :
    Leads₂ Spares (do
      let a ← onTypes m
      modify (push (g a)) : FrameM Unit) :=
  (spares_onTypes m).bind fun _ => .modify (spares_push _)

theorem spares_typeOperand (op : Opcode) (offset : Nat) (name : String) :
    Leads₂ Spares (typeOperand op offset name) := by
  have hdrop : Leads₂ Spares (modify (drop 1) : FrameM Unit) := .modify (spares_drop 1)
  unfold typeOperand
  split
  · exact spares_pushType _ _
  split
  · refine hdrop.bind fun _ => ?_
    split
    · exact spares_pushDescriptor _
    · exact spares_pushType _ _
  split
  · refine hdrop.bind fun _ => ?_
    split
    · exact spares_pushDescriptor _
    · exact spares_pushType _ id
  split
  · exact .modify fun f => (spares_drop 1 f).trans (spares_push _ _)
  · exact .throw _

theorem spares_member (op : Opcode) (name descriptor : String) :
    Leads₂ Spares (member op name descriptor) := by
  have hdrop : Leads₂ Spares (modify (drop 1) : FrameM Unit) := .modify (spares_drop 1)
  unfold member
  split
  · exact spares_pushDescriptor _
  split
  · exact spares_popDescriptor _
  split
  · exact hdrop.bind fun _ => spares_pushDescriptor _
  split
  · exact (spares_popDescriptor _).bind fun _ => hdrop
  split
  · exact (spares_popDescriptor _).bind fun _ => spares_pushDescriptor _
  split
  · exact (spares_popDescriptor _).bind fun _ =>
      (Leads₂.modify (spares_takeReceiver _)).bind fun _ => spares_pushDescriptor _
  · exact .throw _

theorem spares_dynamicCall (descriptor : String) : Leads₂ Spares (dynamicCall descriptor) :=
  (spares_popDescriptor _).bind fun _ => spares_pushDescriptor _

theorem spares_constant (value : Loadable) : Leads₂ Spares (constant value) := by
  cases value
  case integer | float | long | double => exact spares_base _
  case string | type | methodType | handle => exact spares_pushType _ id
  case dynamic => exact spares_pushDescriptor _

theorem spares_multiArray (descriptor : String) (dimensions : UInt8) :
    Leads₂ Spares (multiArray descriptor dimensions) :=
  (Leads₂.modify (spares_drop _)).bind fun _ => spares_pushDescriptor _

/-- **What an instruction does to the locals**: it sets none, or adds to one, or stores one. -/
theorem spares_frameStep (start : Nat) (i : Instruction Label) :
    Leads₂ Spares (BlockGraph.frameStep start i) ∨
      (∃ index amount, i = .increment index amount) ∨
      ∃ op index, i = .var op index ∧ CodeWriter.isStore op = true ∧
        Leads₂ Prolongs (BlockGraph.frameStep start i) := by
  cases i
  case var op index =>
    rcases spares_localOperand op index with hloads | ⟨hop, hstores⟩
    · exact .inl hloads
    · exact .inr (.inr ⟨op, index, rfl, hop, hstores⟩)
  case increment index amount => exact .inr (.inl ⟨index, amount, rfl⟩)
  all_goals left
  case simple | jump => exact spares_plain _
  case tableSwitch => exact spares_plain Opcode.tableswitch
  case lookupSwitch => exact spares_plain Opcode.lookupswitch
  case int => exact spares_number _ _
  case type => exact spares_typeOperand _ _ _
  case field => exact spares_member _ _ _
  case method op owner name descriptor interface =>
    unfold BlockGraph.frameStep
    dsimp only
    split
    · exact spares_dynamicCall _
    · exact spares_member _ _ _
  case invokeDynamic => exact spares_dynamicCall _
  case constant => exact spares_constant _
  case multiArray => exact spares_multiArray _ _

/-- **No instruction forgets what constructors have run on.** -/
theorem prolongs_frameStep (start : Nat) (i : Instruction Label) :
    Leads₂ Prolongs (BlockGraph.frameStep start i) := by
  rcases spares_frameStep start i with hspares | ⟨index, amount, rfl⟩ | ⟨-, -, -, -, hstores⟩
  · exact hspares.mono fun _ _ h => h.prolongs
  · exact .modify (prolongs_setLocal index .int)
  · exact hstores

/-! ## 3. Locals in front of an instruction -/

variable {h : Hierarchy} {T T' : TypeTable} {className : String} {entry : Array SlotType}

/-- All locals that have been set hold an `int`, now and on entry. -/
def SetsInts (entry : Array SlotType) (f : Frame) : Prop :=
  ∀ (i : Nat) (t : SlotType), f.locals[i]?.join = some t → t = .int ∧ entry[i]? = some .int

theorem setsInts_empty : empty.SetsInts entry := fun i t ht => by simp [empty] at ht

theorem SetsInts.spares (hf : f.SetsInts entry) (hs : f.Spares f') : f'.SetsInts entry :=
  fun i t ht => hf i t (hs.locals ▸ ht)

/-- Adding to a local that holds an `int`. -/
theorem SetsInts.setLocal (hf : f.SetsInts entry) {index : UInt16}
    (hi : entry[index.toNat]? = some .int) : (f.setLocal index .int).SetsInts entry := by
  intro i t ht
  have ht' : (setAt f.locals index.toNat .int)[i]?.join = some t := ht
  rw [join_getElem?_setAt] at ht'
  split at ht'
  · rename_i heq
    exact ⟨(Option.some.inj ht').symm, heq ▸ hi⟩
  · exact hf i t ht'

/-- The locals are those on entry. -/
theorem SetsInts.held_eq (hf : f.SetsInts f.entrySlots.locals) :
    f.held = f.entrySlots.locals.toList := by
  refine List.ext_getElem? fun i => ?_
  rw [held, List.getElem?_mapIdx]
  cases hl : f.locals[i]?.join with
  | none => simp
  | some t =>
    obtain ⟨rfl, hi⟩ := hf i t hl
    rw [Array.getElem?_toList, hi]
    rfl

end Frame

/-! ## 4. What covers the locals of a whole block -/

/-- What constructors change is what one has run on. -/
theorem Designation.of_finished_ne {className : String} {made : List Designation}
    {d : Designation} (hd : d.finished className made ≠ d) :
    ∃ o, d.initialized? className = some o ∧ d ∈ made := by
  unfold finished at hd
  split at hd
  · rename_i hmem
    cases hi : d.initialized? className with
    | none => exact absurd (by rw [hi, Option.getD_none]) hd
    | some o => exact ⟨o, rfl, hmem⟩
  · exact absurd rfl hd

/-- What a constructor has run on is no longer there. -/
theorem Designation.finished_ne {className : String} {made : List Designation}
    {c d o : Designation} (hd : d.initialized? className = some o) (hmem : d ∈ made) :
    c.finished className made ≠ d := by
  intro hcd
  unfold finished at hcd
  split at hcd
  · cases hc : c.initialized? className with
    | none =>
      rw [hc, Option.getD_none] at hcd
      rw [hcd, hd] at hc
      exact nomatch hc
    | some o' =>
      rw [hc, Option.getD_some] at hcd
      rw [hcd] at hc
      exact nomatch hd.symm.trans (initialized?_of_initialized? hc)
  · rename_i hc
    exact hc (hcd ▸ hmem)

/-- What a constructor leaves is an object. -/
theorem Designation.eq_of_finished {className : String} {made : List Designation}
    {d o : Designation} (hd : d.finished className made = o) (ho : o.kind ≠ .object 0) : d = o := by
  by_contra hne
  obtain ⟨o', hi, hmem⟩ := of_finished_ne (fun heq => hne (heq.symm.trans hd))
  rw [finished, if_pos hmem, hi, Option.getD_some] at hd
  subst hd
  unfold initialized? at hi
  split at hi
  · split at hi <;> cases hi <;> exact ho rfl
  · cases hi

/-- Only `top` covers what a constructor can run on together with something else. -/
theorem SlotType.Below.eq_top {h : Hierarchy} {T : TypeTable} {className : String}
    {x y z : SlotType} {o : Designation} (hx : (x.designated T).initialized? className = some o)
    (hzx : z ≠ x) (hxy : x.Below h T y) (hzy : z.Below h T y) : y = .top := by
  obtain ⟨d, k⟩ := x
  obtain rfl : d = 0 := by
    by_contra hd
    have hnone : (designated T ⟨d, k⟩).initialized? className = none :=
      if_neg (by cases k <;> exact hd)
    exact nomatch hnone.symm.trans hx
  -- the type is not that of a reference, so nothing but itself and `top` covers it
  have hkind : k = .uninitializedThis ∨ ∃ i, k = .uninitialized i := by
    cases k <;> first | exact .inl rfl | exact .inr ⟨_, rfl⟩ | exact nomatch hx
  rcases hkind with rfl | ⟨i, rfl⟩
  all_goals
    cases hxy with
    | top => rfl
    | root href => exact nomatch href
    | refl =>
      cases hzy with
      | refl => exact absurd rfl hzx
      | null href => exact nomatch href

namespace Frame

variable {h : Hierarchy} {T T' : TypeTable} {className : String} {f F : Frame}

theorem Prolongs.constructedTypes (hF : F.Prolongs f) (hentry : F.entry = f.entry) :
    F.constructedTypes ⊆ f.constructedTypes := by
  unfold Frame.constructedTypes entrySlots
  rw [hentry]
  exact List.map_subset _ hF.subset

/-- A local that holds an `int` in front of an instruction holds one on entry. -/
theorem SetsInts.entry_eq_int (hT : T.Sound h) (hf : f.Entered T)
    (hints : f.SetsInts f.entrySlots.locals) {locals : List SlotType}
    (hret : Returns (f.exitLocals className) T locals T') {k : Nat} (hk : locals[k]? = some .int) :
    f.entrySlots.locals[k]? = some .int := by
  obtain ⟨locals', T'', hret', -, -, -, hd⟩ := atExit_returns className hT hf hf.meaningful_locals
  obtain ⟨rfl, rfl⟩ : locals = locals' ∧ T' = T'' := by
    cases hret.symm.trans hret'
    exact ⟨rfl, rfl⟩
  replace hd : locals.map (SlotType.designated T') = f.held.map (f.leaves className T) := hd
  rw [hints.held_eq] at hd
  have hk' := congrArg (·[k]?) hd
  simp only [List.getElem?_map, hk, Option.map_some] at hk'
  obtain ⟨u, hu, hleaves⟩ := Option.map_eq_some_iff.1 hk'.symm
  have huv : u.Valid T := hf.valid.locals u (Array.mem_toList_iff.1 (List.mem_of_getElem? hu))
  unfold leaves at hleaves
  rw [huv.resolve_eq] at hleaves
  have hint := Designation.eq_of_finished hleaves (fun heq => nomatch heq)
  obtain rfl : u = .int := by
    obtain ⟨d, kind⟩ := u
    cases kind <;> cases hint
    rfl
  rwa [Array.getElem?_toList] at hu

/-- **What covers the locals at both ends of a block covers those in the middle of it**, where only
such locals have been set as hold an `int` all the time. -/
theorem covered_midway (hT : T.Sound h) (hF : F.Entered T) (hf : f.Entered T)
    (hentry : F.entry = f.entry) (hints : F.SetsInts F.entrySlots.locals) (hprolongs : F.Prolongs f)
    {exit : List SlotType} {T₁ : TypeTable} (hexit : Returns (f.exitLocals className) T exit T₁)
    (hvalid : ∀ x ∈ exit, x.Valid T) {slots : Array SlotType}
    (hends : Slots.Covered h T exit slots 0)
    (hbegins : Slots.Covered h T f.entrySlots.locals.toList slots 0) :
    ∃ locals T', Returns (F.exitLocals className) T locals T' ∧ T'.Sound h ∧ T ≤ T' ∧
      (∀ x ∈ locals, x.Valid T') ∧ Slots.Covered h T' locals slots 0 := by
  obtain ⟨locals, T', hret, hs, hle, hv, hd⟩ :=
    atExit_returns className hT hF hF.meaningful_locals
  obtain ⟨exit', T₂, hret₂, -, hle₂, -, hd₂⟩ := atExit_returns className hT hf hf.meaningful_locals
  obtain rfl : exit' = exit := by
    have heq := hret₂.symm.trans hexit
    cases heq
    rfl
  replace hd : locals.map (SlotType.designated T') = F.held.map (F.leaves className T) := hd
  replace hd₂ : exit'.map (SlotType.designated T₂) = f.held.map (f.leaves className T) := hd₂
  refine ⟨locals, T', hret, hs, hle, hv, fun k x y hx hy => ?_⟩
  rw [hints.held_eq] at hd
  -- the local on entry, in front of the instruction and at the end of the block
  obtain ⟨u, hu, hxu⟩ : ∃ u, F.entrySlots.locals.toList[k]? = some u ∧
      F.leaves className T u = x.designated T' := by
    have hk := congrArg (·[k]?) hd
    simp only [List.getElem?_map, hx, Option.map_some] at hk
    exact Option.map_eq_some_iff.1 hk.symm
  have huf : f.entrySlots.locals.toList[k]? = some u := by rw [entrySlots, ← hentry]; exact hu
  have huv : u.Valid T := hF.valid.locals u (Array.mem_toList_iff.1 (List.mem_of_getElem? hu))
  unfold leaves at hxu
  rw [huv.resolve_eq] at hxu
  by_cases hkept : (u.designated T).finished className
      (F.constructedTypes.map (SlotType.designated T)) = u.designated T
  · rw [hkept, ← huv.designated_later hle] at hxu
    obtain rfl := SlotType.Valid.eq_of_designated hs (huv.later hle)
      (hv x (List.mem_of_getElem? hx)) hxu
    exact (hbegins k _ y huf hy).later hle
  · obtain ⟨o, hi, hmade⟩ := Designation.of_finished_ne hkept
    obtain ⟨z, hz⟩ : ∃ z, exit'[k]? = some z := by
      refine ⟨_, List.getElem?_eq_getElem ?_⟩
      have hlength : exit'.length = f.entrySlots.locals.toList.length := by
        simpa [held] using congrArg List.length hd₂
      rw [hlength]
      exact (List.getElem?_eq_some_iff.1 huf).1
    have hzu : z ≠ u := by
      rintro rfl
      have hk := congrArg (·[k]?) hd₂
      simp only [List.getElem?_map, hz, Option.map_some] at hk
      obtain ⟨t, -, ht⟩ := Option.map_eq_some_iff.1 hk.symm
      rw [huv.designated_later hle₂] at ht
      exact Designation.finished_ne hi
        (List.map_subset _ (hprolongs.constructedTypes hentry) hmade) ht
    have htop := SlotType.Below.eq_top hi hzu (hbegins k u y huf hy) (hends k z y hz hy)
    exact htop ▸ .top x

end Frame

end ClassFile
