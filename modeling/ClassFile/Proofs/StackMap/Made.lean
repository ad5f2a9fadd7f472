/-
# Stack maps of known types

When all types of a graph are known, each of them can be written (`BlockGraph.raisesAt_stackMap`): the
constant pool may be full, and a class may have a name that is no descriptor, but no type is missing.
The table of types stays as it is (`ConstantPool.sameTypes_stackMap`).  What is written as uninitialized is
written with the offset where it was made (`BlockGraph.made_of_stackMap`), cut to two bytes.
-/
import ClassFile.Proofs.BlockGraph.Known
import ClassFile.Proofs.ConstantPool.Interning
import ClassFile.Proofs.Content
import ClassFile.Proofs.StackMap.Types

namespace ClassFile

variable {h : Hierarchy} {made : Nat → Prop} {T : TypeTable} {p p' : ConstantPool}

/-! ## 1. No type is missing -/

namespace SlotType

theorem raises_arrayWritten (dimensions : Nat) (element : FieldType) :
    Raises Error.NotAboutTypes (arrayWritten dimensions element) :=
  (ConstantPool.overflows_classRef (fun _ _ _ => nofun) _).bind fun _ => .pure _

/-- A type of the table can be read. -/
theorem raisesAt_typeEntry {E : Error → Prop} {i : TypeIndex} {e : TypeEntry}
    (hi : p.types.entries[i]? = some e) :
    RaisesAt E (ConstantPool.onTypes (TypeTable.entry i)) p :=
  Returns.raisesAt (ConstantPool.returns_onTypes.2 ⟨p.types, TypeTable.returns_entry.2 ⟨hi, rfl⟩, rfl⟩)

theorem raisesAt_scalarWritten {kind : SlotKind} (hk : kind.Known made p.types) :
    RaisesAt Error.NotAboutTypes (scalarWritten kind) p := by
  cases kind with
  | object i =>
    obtain ⟨name, hi⟩ := hk
    refine (raisesAt_typeEntry hi).bind fun e p₁ _ => ?_
    exact ((ConstantPool.overflows_classRef (fun _ _ _ => nofun) _).bind fun _ => .pure _) p₁
  | uninitialized i =>
    obtain ⟨name, offset, hi, -⟩ := hk
    refine (raisesAt_typeEntry hi).bind fun e p₁ hret => ?_
    obtain ⟨rfl, he⟩ := returns_typeEntry hret
    obtain rfl := Option.some.inj (hi.symm.trans he)
    exact Raises.pure _ p
  | _ => exact Raises.pure _ p

/-- **A known type can be written**, as far as types go. -/
theorem raisesAt_verificationType {t : SlotType} (ht : t.Known made p.types) :
    RaisesAt Error.NotAboutTypes (verificationType t) p := by
  unfold verificationType
  split
  · dsimp only
    split
    · rename_i index hkind
      rw [Known, hkind] at ht
      obtain ⟨name, hi⟩ := ht
      refine (raisesAt_typeEntry hi).bind fun e p₁ _ => ?_
      split
      · exact Raises.bind (.lift fun _ => Descriptor.notAboutTypes_orMalformed)
          (fun _ => raises_arrayWritten _ _) p₁
      · exact raises_arrayWritten _ _ p₁
    · exact raises_arrayWritten _ _ p
    · exact Raises.pure _ p
  · exact raisesAt_scalarWritten ht

theorem raisesAt_verificationTypes (hp : p.Sound h) {ts : List SlotType}
    (hts : ∀ t ∈ ts, t.Known made p.types) :
    RaisesAt Error.NotAboutTypes (ts.mapM verificationType) p := by
  induction ts generalizing p with
  | nil => exact Raises.pure _ p
  | cons t ts ih =>
    rw [List.mapM_cons]
    refine (raisesAt_verificationType (hts t List.mem_cons_self)).bind fun v p₁ hret => ?_
    obtain ⟨hs, hle, -⟩ := says_verificationType hp hret
    refine (ih hs fun u hu => (hts u (List.mem_cons_of_mem _ hu)).later hle.types).bind fun vs p₂ _ => ?_
    exact Raises.pure _ p₂

end SlotType

namespace BlockGraph

variable {g : BlockGraph}

theorem raisesAt_writeFrames (hp : p.Sound h) {previous : List VerificationType}
    {position : Option Nat} {done : List MapFrame} {rows : List (Nat × Frame)}
    (hrows : ∀ r ∈ rows, r.2.Known made p.types) :
    RaisesAt Error.NotAboutTypes (writeFrames previous position done rows) p := by
  induction rows generalizing p previous position done with
  | nil => exact Raises.pure _ p
  | cons r rows ih =>
    obtain ⟨place, f⟩ := r
    have hf : f.Known made p.types := hrows _ List.mem_cons_self
    refine (SlotType.raisesAt_verificationTypes hp hf.writtenLocals).bind fun locals p₁ hlocals => ?_
    obtain ⟨hs₁, hle₁, -⟩ := SlotType.verificationTypes_say hp hlocals
    refine (SlotType.raisesAt_verificationTypes hs₁ (hf.later hle₁.types).writtenStack).bind
      fun stack p₂ hstack => ?_
    obtain ⟨hs₂, hle₂, -⟩ := SlotType.verificationTypes_say hs₁ hstack
    exact ih hs₂ fun r hr => ((hrows r (List.mem_cons_of_mem _ hr)).later hle₁.types).later hle₂.types

/-- The rows of a stack map are frames of blocks. -/
theorem AllKnown.writtenFrames (hg : AllKnown made T g.blocks) :
    ∀ r ∈ g.writtenFrames, r.2.Known made T := by
  intro r hr
  obtain ⟨i, -, hr⟩ := List.mem_filterMap.1 hr
  obtain ⟨b, hb, hr⟩ := Option.bind_eq_some_iff.1 hr
  obtain ⟨f, hf, hr⟩ := Option.bind_eq_some_iff.1 hr
  split at hr
  · exact Option.some.inj hr ▸ (hg b (Array.mem_of_getElem? hb)).frame f hf
  · exact nomatch hr

/-- **Writing the stack map of known types** does not ask for a type that is not there. -/
theorem raisesAt_stackMap (hp : p.Sound h) {entry : List SlotType}
    (hentry : ∀ t ∈ entry, t.Known made p.types) (hg : AllKnown made p.types g.blocks) :
    RaisesAt Error.NotAboutTypes (g.stackMap entry) p := by
  refine (SlotType.raisesAt_verificationTypes hp hentry).bind fun previous p₁ hret => ?_
  obtain ⟨hs₁, hle₁, -⟩ := SlotType.verificationTypes_say hp hret
  exact raisesAt_writeFrames hs₁ (hg.later hle₁.types).writtenFrames

end BlockGraph

/-! ## 2. What a stack map asks for -/

section Asked

variable {R : ConstantPool → ConstantPool → Prop} [IsPreorder ConstantPool R]

namespace SlotType

theorem leads_arrayWritten (hask : ∀ name, Leads R (ConstantPool.classRef name)) (dimensions : Nat)
    (element : FieldType) : Leads R (arrayWritten dimensions element) :=
  (hask _).bind fun _ => .pure _

theorem leads_scalarWritten (hask : ∀ name, Leads R (ConstantPool.classRef name))
    (hentry : ∀ i, Leads R (ConstantPool.onTypes (TypeTable.entry i))) (kind : SlotKind) :
    Leads R (scalarWritten kind) := by
  cases kind with
  | object i => exact (hentry i).bind fun e => (hask _).bind fun _ => .pure _
  | uninitialized i =>
    refine (hentry i).bind fun e => ?_
    cases e with
    | initialized name => exact .throw _
    | uninitialized name offset => exact .pure _
  | _ => exact .pure _

theorem leads_verificationType (hask : ∀ name, Leads R (ConstantPool.classRef name))
    (hentry : ∀ i, Leads R (ConstantPool.onTypes (TypeTable.entry i))) (t : SlotType) :
    Leads R (verificationType t) := by
  unfold verificationType
  split
  · dsimp only
    split
    · refine (hentry _).bind fun e => ?_
      split
      · exact (Leads.lift _).bind fun _ => leads_arrayWritten hask _ _
      · exact leads_arrayWritten hask _ _
    · exact leads_arrayWritten hask _ _
    · exact .pure _
  · exact leads_scalarWritten hask hentry _

end SlotType

namespace BlockGraph

theorem leads_writeFrames (hask : ∀ name, Leads R (ConstantPool.classRef name))
    (hentry : ∀ i, Leads R (ConstantPool.onTypes (TypeTable.entry i)))
    {previous : List VerificationType} {position : Option Nat} {done : List MapFrame}
    (rows : List (Nat × Frame)) : Leads R (writeFrames previous position done rows) := by
  induction rows generalizing previous position done with
  | nil => exact .pure _
  | cons r rows ih =>
    exact (Leads.mapM (SlotType.leads_verificationType hask hentry) _).bind fun _ =>
      (Leads.mapM (SlotType.leads_verificationType hask hentry) _).bind fun _ => ih

/-- **Writing a stack map** asks for records of classes, and looks types up. -/
theorem leads_stackMap (hask : ∀ name, Leads R (ConstantPool.classRef name))
    (hentry : ∀ i, Leads R (ConstantPool.onTypes (TypeTable.entry i))) (g : BlockGraph)
    (entry : List SlotType) : Leads R (g.stackMap entry) :=
  (Leads.mapM (SlotType.leads_verificationType hask hentry) _).bind fun _ =>
    leads_writeFrames hask hentry _

end BlockGraph

end Asked

namespace ConstantPool

/-- So it changes no type. -/
theorem sameTypes_stackMap (g : BlockGraph) (entry : List SlotType) :
    Leads SameTypes (g.stackMap entry) := by
  refine BlockGraph.leads_stackMap (fun name => (interning_classRef name).sameTypes) (fun i => ?_) g entry
  intro p e p' hret
  obtain ⟨rfl, -⟩ := SlotType.returns_typeEntry hret
  exact refl p

end ConstantPool

/-! ## 3. Where things were made -/

/-- The types that a frame has, apart from those of the frame before it. -/
def MapFrame.types : MapFrame → List VerificationType
  | same _ | chop _ _ => []
  | sameOneStack _ t => [t]
  | append _ locals => locals
  | full _ locals stack => locals ++ stack

theorem MapFrame.mem_types_between {previous locals stack : List VerificationType} {delta : UInt16}
    {v : VerificationType} (hv : v ∈ (between previous locals stack delta).types) :
    v ∈ locals ++ stack := by
  unfold between at hv
  dsimp only at hv
  split at hv
  · split_ifs at hv
    · exact absurd hv List.not_mem_nil
    · exact absurd hv List.not_mem_nil
    · exact List.mem_append_left _ (List.mem_of_mem_drop hv)
    · exact hv
  · split at hv
    · exact List.mem_append_right _ hv
    · exact hv
  · exact hv

theorem MapFrame.mem_types_relative {previous : List VerificationType} {position : Option Nat}
    {rows : List MapRow} {f : MapFrame} (hf : f ∈ relative previous position rows)
    {v : VerificationType} (hv : v ∈ f.types) : ∃ r ∈ rows, v ∈ r.locals ++ r.stack := by
  induction rows generalizing previous position with
  | nil => exact absurd hf List.not_mem_nil
  | cons r rows ih =>
    rcases List.mem_cons.1 hf with rfl | hf
    · exact ⟨r, List.mem_cons_self, mem_types_between hv⟩
    · obtain ⟨r', hr', hv⟩ := ih hf
      exact ⟨r', List.mem_cons_of_mem _ hr', hv⟩

/-- The type of a value is not uninitialized. -/
theorem FieldType.mapType?_ne (t : FieldType) (offset : UInt16) :
    t.mapType? ≠ some (.uninitialized offset) := by
  unfold FieldType.mapType?
  split
  case h_7 =>
    rw [ne_eq, Option.map_eq_some_iff]
    exact fun ⟨_, _, h⟩ => nomatch h
  all_goals exact nofun

/-- A known type that says where something was made says where the method has made it. -/
theorem SlotType.Known.made_of_mapType? {t : SlotType} (ht : t.Known made T) {offset : UInt16}
    (hm : t.mapType? T = some (.uninitialized offset)) : ∃ n, made n ∧ offset = UInt16.ofNat n := by
  unfold SlotType.mapType? at hm
  dsimp only at hm
  split at hm
  case h_1 => exact absurd hm (FieldType.mapType?_ne _ _)
  case h_2 =>
    obtain ⟨e, -, hm⟩ := Option.bind_eq_some_iff.1 hm
    exact absurd hm (FieldType.mapType?_ne _ _)
  case h_5 index _ hkind =>
    rw [Known, hkind] at ht
    obtain ⟨name, n, hi, hmade⟩ := ht
    rw [hi] at hm
    cases hm
    exact ⟨n, hmade, rfl⟩
  all_goals cases hm

/-- Of written types that say what known types do. -/
theorem Says.made_of_known {ts : List SlotType} (hts : ∀ t ∈ ts, t.Known made T) {ms : List MapType}
    (hms : ts.mapM (SlotType.mapType? T) = some ms) {classes : ConstantIndex → Option String}
    {vs : List VerificationType} (hs : Says classes vs ms) {offset : UInt16}
    (hv : .uninitialized offset ∈ vs) : ∃ n, made n ∧ offset = UInt16.ofNat n := by
  obtain ⟨m, hm, hsays⟩ := exists_of_forall₂ hs.flip hv
  obtain ⟨t, ht, hmap⟩ := exists_of_forall₂ (mapM_eq_some_iff.1 hms) hm
  cases hsays
  exact (hts t ht).made_of_mapType? hmap

/-- **What is written as uninitialized** is written with an offset where the method has made something. -/
theorem BlockGraph.made_of_stackMap (hp : p.Sound h) {g : BlockGraph} {entry : List SlotType}
    (hg : AllKnown made p.types g.blocks) {frames : List MapFrame}
    (hret : Returns (g.stackMap entry) p frames p') {f : MapFrame} (hf : f ∈ frames) {offset : UInt16}
    (hv : .uninitialized offset ∈ f.types) : ∃ n, made n ∧ offset = UInt16.ofNat n := by
  obtain ⟨-, hle, ps, previous, rows, entries, -, -, rfl, hrows, hentries⟩ := stackMap_rows hp hret
  obtain ⟨r, hr, hv⟩ := MapFrame.mem_types_relative hf hv
  obtain ⟨e, he, hsays⟩ := exists_of_forall₂ hrows.flip hr
  obtain ⟨row, hrow, hentry⟩ := exists_of_forall₂ hentries he
  obtain ⟨-, hlocals, hstack⟩ := Frame.mapEntryOf?_eq_some_iff.1 hentry
  have hknown := (hg.later hle.types).writtenFrames row hrow
  rcases List.mem_append.1 hv with hv | hv
  · exact hsays.locals.made_of_known hknown.writtenLocals hlocals hv
  · exact hsays.stack.made_of_known hknown.writtenStack hstack hv

end ClassFile
