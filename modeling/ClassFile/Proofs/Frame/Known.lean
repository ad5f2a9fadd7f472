/-
# Types that the table has

The type of a slot can be a number of the table of types.  While the entries of blocks are inferred,
relative types are replaced by absolute ones, what constructors have run on is initialized, and types
are merged.  None of that makes up a number: objects stay numbers of what is initialized, and what is
uninitialized was made by the method itself (`Known`).

The one place where another number could come from is what a table remembers of merges, and methods of
one class share it.  In a whole table (`TypeTable.Whole`) each of these is the number of a class.  From a
whole table, an operation is *safe* if it never asks for a type that is not there (`Safe`); merging what
leaves a block into its successor is (`Frame.safe_mergeInto`), whatever the hierarchy is like.
-/
import ClassFile.Proofs.ConstantPool.Coherent
import ClassFile.Proofs.Frame.Merge

namespace ClassFile

/-- Whatever has gone wrong, it is not that a type is missing. -/
def Error.NotAboutTypes (e : Error) : Prop := ∀ i, e ≠ .invalidTypeIndex i

/-- Nor is it where a descriptor is malformed. -/
theorem Descriptor.notAboutTypes_orMalformed {α : Type} {descriptor : String}
    {parsed : Except DescriptorError α} {e : Error} (h : orMalformed descriptor parsed = .error e) :
    e.NotAboutTypes := by
  cases parsed <;> cases h
  exact fun _ => nofun

/-! ## 1. Whole tables -/

namespace TypeTable

variable {h : Hierarchy} {T T' : TypeTable}

/-- Each merge that is remembered has given a class. -/
def Joined (T : TypeTable) : Prop :=
  ∀ pair i, T.merges.get? pair = some i → ∃ name, T.entries[i]? = some (.initialized name)

theorem joined_empty : empty.Joined := by
  intro pair i hi
  rw [show empty.merges.get? pair = none from InternTable.get?_empty pair] at hi
  exact nomatch hi

/-- If merges follow a hierarchy in which classes do not go round in a cycle, nothing else needs to be
asked. -/
theorem Sound.joined (hr : h.Rooted) (hT : T.Sound h) : T.Joined := by
  intro pair i hi
  obtain ⟨x, y, -, -, hentry⟩ :=
    hT.merged_entry hr _ _ _ (hT.merges_linked.get?_eq_some_iff.1 hi)
  exact ⟨_, hentry⟩

/-- A table that has grown, and in which nothing has been merged since. -/
theorem Joined.later (hT : T.Joined) (hle : T ≤ T') (hmerges : T'.merges = T.merges) : T'.Joined := by
  intro pair i hi
  obtain ⟨name, hname⟩ := hT pair i (hmerges ▸ hi)
  exact ⟨name, hle _ _ hname⟩

/-- A table that has been used for merges that follow a hierarchy. -/
structure Whole (h : Hierarchy) (T : TypeTable) : Prop where
  sound : T.Sound h
  joined : T.Joined

end TypeTable

/-! ## 2. Safe operations -/

/-- **From a whole table, an operation does not ask for a type that is not there**: it gives an answer
with a property, or fails for another reason. -/
def Safe {α : Type} (h : Hierarchy) (T : TypeTable) (m : TypeM α) (Q : α → TypeTable → Prop) : Prop :=
  T.Whole h → match (m T : Except Error α × TypeTable) with
    | (.ok a, T') => T'.Whole h ∧ T ≤ T' ∧ Q a T'
    | (.error e, _) => e.NotAboutTypes

namespace Safe

variable {α β : Type} {h : Hierarchy} {T : TypeTable} {m : TypeM α} {Q : α → TypeTable → Prop}

theorem pure {a : α} (hQ : Q a T) : Safe h T (pure a) Q := fun hT => ⟨hT, TypeTable.le_refl T, hQ⟩

theorem throw {e : Error} (he : e.NotAboutTypes) : Safe h T (throw e) Q := fun _ => he

theorem lift {x : Except Error α} (hx : ∀ e, x = .error e → e.NotAboutTypes) :
    Safe h T (liftM x) (fun _ _ => True) := by
  cases x with
  | error e => exact throw (hx e rfl)
  | ok a => exact pure trivial

theorem bind {k : α → TypeM β} {Q' : β → TypeTable → Prop} (hm : Safe h T m Q)
    (hk : ∀ a T', T ≤ T' → Q a T' → Safe h T' (k a) Q') : Safe h T (m >>= k) Q' := by
  intro hT
  have hmT := hm hT
  rw [bind_apply]
  rcases hrun : (m T : Except Error α × TypeTable) with ⟨e | a, T₁⟩ <;> simp only [hrun] at hmT ⊢
  · exact hmT
  · obtain ⟨hT₁, hle, hQ⟩ := hmT
    have hkT := hk a T₁ hle hQ hT₁
    rcases hrun' : (k a T₁ : Except Error β × TypeTable) with ⟨e | b, T₂⟩ <;>
      simp only [hrun'] at hkT ⊢
    · exact hkT
    · exact ⟨hkT.1, TypeTable.le_trans hle hkT.2.1, hkT.2.2⟩

/-- An operation on each entry of a list. -/
theorem mapM {f : α → TypeM β} {R : β → TypeTable → Prop} (hR : ∀ b, Lasting (R b)) {l : List α}
    (hf : ∀ a ∈ l, ∀ T', T ≤ T' → Safe h T' (f a) R) :
    Safe h T (l.mapM f) (fun bs T' => ∀ b ∈ bs, R b T') := by
  induction l generalizing T with
  | nil => exact pure (by simp)
  | cons a l ih =>
    rw [List.mapM_cons]
    refine (hf a List.mem_cons_self T (TypeTable.le_refl T)).bind fun b T₁ hle hb => ?_
    refine (ih fun x hx T' hle' =>
      hf x (List.mem_cons_of_mem _ hx) T' (TypeTable.le_trans hle hle')).bind fun bs T₂ hle₂ hbs => ?_
    refine pure fun x hx => ?_
    rcases List.mem_cons.1 hx with rfl | hx
    · exact hR x _ _ hle₂ hb
    · exact hbs x hx

/-- An operation for each entry of a list, one after the other. -/
theorem foldlM {f : β → α → TypeM β} {I : β → TypeTable → Prop} {l : List α} {b : β}
    (hf : ∀ a ∈ l, ∀ b T', T ≤ T' → I b T' → Safe h T' (f b a) I) (hb : I b T) :
    Safe h T (l.foldlM f b) I := by
  induction l generalizing T b with
  | nil => exact pure hb
  | cons a l ih =>
    rw [List.foldlM_cons]
    refine (hf a List.mem_cons_self b T (TypeTable.le_refl T) hb).bind fun b' T₁ hle hb' => ?_
    exact ih (fun x hx b T' hle' =>
      hf x (List.mem_cons_of_mem _ hx) b T' (TypeTable.le_trans hle hle')) hb'

end Safe

namespace TypeTable

variable {h : Hierarchy} {T : TypeTable}

theorem safe_intern (e : TypeEntry) :
    Safe h T (intern e) (fun i T' => T'.entries[i]? = some e) := by
  intro hT
  obtain ⟨i, T', hret, hs, hle, hi⟩ := hT.sound.intern e
  rw [show (intern e T : Except Error TypeIndex × TypeTable) = (.ok i, T') from hret]
  exact ⟨⟨hs, hT.joined.later hle (merges_of_intern hret)⟩, hle, hi⟩

/-- A number that has been given has an entry. -/
theorem safe_entry {i : TypeIndex} {e : TypeEntry} (hi : T.entries[i]? = some e) :
    Safe h T (entry i) (fun _ _ => True) := by
  intro hT
  rw [entry_apply, hi]
  exact ⟨hT, le_refl T, trivial⟩

/-- **A merge gives the number of a class**, be it a new one or one that is remembered. -/
theorem safe_merged {a b : TypeIndex} {x y : TypeEntry} (ha : T.entries[a]? = some x)
    (hb : T.entries[b]? = some y) :
    Safe h T (merged h a b) (fun i T' => ∃ name, T'.entries[i]? = some (.initialized name)) := by
  intro hT
  rw [merged_apply]
  cases hmemo : T.merges.get? (min a b, max a b) with
  | some i => exact ⟨hT, le_refl T, hT.joined _ i hmemo⟩
  | none =>
    rw [ha, hb]
    obtain ⟨i, T', hret, hs, hle, hi⟩ :=
      hT.sound.intern (.initialized ((h.commonSuperclass x.name y.name).getD rootClass))
    have hjoined := hT.joined.later hle (merges_of_intern hret)
    simp only [show (initialized ((h.commonSuperclass x.name y.name).getD rootClass) T :
      Except Error TypeIndex × TypeTable) = (.ok i, T') from hret]
    refine ⟨⟨hs.remember (hle _ _ ha) (hle _ _ hb) hi, fun pair j hj => ?_⟩, hle, _, hi⟩
    rw [hs.merges_linked.get?_insert] at hj
    split at hj
    · rename_i hpair
      rw [merges_of_intern hret, hmemo] at hj
      cases hj
      exact ⟨_, hi⟩
    · exact hjoined pair j hj

end TypeTable

/-! ## 3. Known types -/

/-- What has a number of the table: an object that of something initialized, and what is uninitialized
that of something made at one of these offsets. -/
def SlotKind.Known (made : Nat → Prop) (T : TypeTable) : SlotKind → Prop
  | .object i => ∃ name, T.entries[i]? = some (.initialized name)
  | .uninitialized i =>
    ∃ name offset, T.entries[i]? = some (.uninitialized name offset) ∧ made offset
  | _ => True

namespace SlotType

variable {h : Hierarchy} {made : Nat → Prop} {T T' : TypeTable} {x : SlotType}

/-- The type refers only to types of the table. -/
def Known (made : Nat → Prop) (T : TypeTable) (x : SlotType) : Prop := x.kind.Known made T

theorem Known.later (hx : x.Known made T) (hle : T ≤ T') : x.Known made T' := by
  obtain ⟨d, k⟩ := x
  cases k with
  | object i => exact hx.imp fun _ hi => hle _ _ hi
  | uninitialized i => exact hx.imp fun _ ⟨o, hi, hmade⟩ => ⟨o, hle _ _ hi, hmade⟩
  | _ => trivial

theorem lasting_known (made : Nat → Prop) (x : SlotType) : Lasting (x.Known made ·) :=
  fun _ _ hle hx => hx.later hle

/-- What is meaningful in the table, and also as a method sees it, is known to the method. -/
theorem Meaningful.known {made : Nat → Bool} (hx : x.Meaningful T)
    (hx' : x.Meaningful (T.within made)) : x.Known (fun o => made o = true) T := by
  obtain ⟨d, k⟩ := x
  cases k with
  | object i =>
    rcases hx with ⟨-, -, name, hi⟩ | ⟨hrel, -⟩
    · exact ⟨name, hi⟩
    · exact nomatch hrel
  | uninitialized i =>
    rcases hx' with ⟨-, name, offset, hi⟩ | ⟨hrel, -⟩
    · exact ⟨name, offset, TypeTable.within_uninitialized_iff.1 hi⟩
    · exact nomatch hrel
  | _ => trivial

theorem known_top : top.Known made T := trivial

theorem known_object {i : TypeIndex} {name : String}
    (hi : T.entries[i]? = some (.initialized name)) (d : Int) : Known made T ⟨d, .object i⟩ :=
  ⟨name, hi⟩

theorem known_ofBase (b : BaseType) : (ofBase b).Known made T := by
  cases b <;> trivial

theorem Known.extend (hx : x.Known made T) (extra : Int) : (x.extend extra).Known made T := by
  rcases extend_cases x extra with he | he | ⟨he, -⟩ <;> rw [he]
  · exact hx
  · exact known_top
  · exact hx

theorem safe_object (name : String) : Safe h T (object name) (fun x T' => x.Known made T') :=
  (TypeTable.safe_intern _).bind fun _ _ _ hi => .pure (known_object hi 0)

theorem safe_anyObject (d : Int) : Safe h T (anyObject d) (fun x T' => x.Known made T') :=
  (TypeTable.safe_intern _).bind fun _ _ _ hi => .pure (known_object hi d)

theorem safe_ofFieldType (t : FieldType) :
    Safe h T (ofFieldType t) (fun x T' => x.Known made T') := by
  have hdims : ∀ {kind : SlotKind} {T' : TypeTable}, (∀ d, Known made T' ⟨d, kind⟩) → Safe h T' (do
      if 127 < t.dimensions then throw (.malformedDescriptor t.text)
      return ⟨t.dimensions, kind⟩ : TypeM SlotType) (fun x T' => x.Known made T') := by
    intro kind T' hkind
    split
    · exact Safe.bind (Safe.throw (Q := fun _ _ => False) fun _ => nofun) fun _ _ _ hf => hf.elim
    · exact .pure (hkind _)
  unfold ofFieldType
  split
  · exact .pure (known_ofBase _)
  · dsimp only
    split
    · exact Safe.bind (.pure (Q := fun kind T' => ∀ d, Known made T' ⟨d, kind⟩) fun _ => trivial)
        fun _ _ _ hkind => hdims hkind
    · refine (TypeTable.safe_intern _).bind fun _ _ _ hi => ?_
      exact Safe.bind (.pure (Q := fun kind T' => ∀ d, Known made T' ⟨d, kind⟩) (known_object hi))
        fun _ _ _ hkind => hdims hkind

/-- **Merging known types gives a known one.** -/
theorem safe_merge {c : SlotType} (hc : c.Known made T) (hx : x.Known made T) :
    Safe h T (merge h c x) (fun m T' => m.Known made T') := by
  unfold merge
  split
  · exact .pure hc
  split
  · exact .pure hx
  split
  · split
    · exact .pure hc
    split
    · split
      · rename_i a b ha hb
        rw [Known, ha] at hx
        rw [Known, hb] at hc
        exact (TypeTable.safe_merged hx.choose_spec hc.choose_spec).bind fun _ _ _ ⟨_, hi⟩ =>
          .pure (known_object hi _)
      · exact safe_anyObject _
    split
    · exact safe_anyObject _
    · exact .pure known_top
  split
  · exact .pure hx
  · exact .pure known_top

end SlotType

/-! ## 4. Known slots -/

namespace Slots

variable {h : Hierarchy} {made : Nat → Prop} {T T' : TypeTable} {s : Slots}

/-- The types of all slots are known. -/
structure Known (made : Nat → Prop) (T : TypeTable) (s : Slots) : Prop where
  locals : ∀ x ∈ s.locals, x.Known made T
  stack : ∀ x ∈ s.stack, x.Known made T

theorem Known.later (hs : s.Known made T) (hle : T ≤ T') : s.Known made T' :=
  ⟨fun x hx => (hs.locals x hx).later hle, fun x hx => (hs.stack x hx).later hle⟩

theorem known_unset (locals stack : Nat) : (unset locals stack).Known made T :=
  ⟨fun _ hx => (Array.mem_replicate.1 hx).2 ▸ trivial,
    fun _ hx => (Array.mem_replicate.1 hx).2 ▸ trivial⟩

theorem Known.localAt (hs : s.Known made T) (index : UInt16) : (s.localAt index).Known made T := by
  unfold Slots.localAt
  cases hi : s.locals[index.toNat]? with
  | none => exact SlotType.known_top
  | some x => exact hs.locals x (Array.mem_of_getElem? hi)

theorem Known.stackAt (hs : s.Known made T) (index : UInt16) : (s.stackAt index).Known made T := by
  unfold Slots.stackAt
  split
  · cases hi : s.stack[s.stack.size - index.toNat]? with
    | none => exact SlotType.known_top
    | some x => exact hs.stack x (Array.mem_of_getElem? hi)
  · exact SlotType.known_top

/-- **Merging types into slots** keeps all of them known. -/
theorem safe_mergeFrom {slots : Array SlotType} {changed : Bool} {index : Nat}
    {incoming : List SlotType} (hslots : ∀ x ∈ slots, x.Known made T)
    (hincoming : ∀ x ∈ incoming, x.Known made T) :
    Safe h T (mergeFrom h slots changed index incoming)
      (fun r T' => ∀ x ∈ r.2, x.Known made T') := by
  induction incoming generalizing slots changed index T with
  | nil => exact .pure hslots
  | cons x rest ih =>
    rw [mergeFrom]
    split
    · exact .pure hslots
    · rename_i current hcurrent
      refine (SlotType.safe_merge (hslots current (Array.mem_of_getElem? hcurrent))
        (hincoming x List.mem_cons_self)).bind fun m T' hle hm => ?_
      have hslots' : ∀ x ∈ slots, x.Known made T' := fun x hx => (hslots x hx).later hle
      have hrest : ∀ x ∈ rest, x.Known made T' := fun x hx =>
        (hincoming x (List.mem_cons_of_mem _ hx)).later hle
      split
      · exact ih hslots' hrest
      · refine ih (fun y hy => ?_) hrest
        rcases Array.mem_or_eq_of_mem_setIfInBounds hy with hy | rfl
        · exact hslots' y hy
        · exact hm

end Slots

/-- What stands for a slot on entry is known if the slot is. -/
theorem SlotType.Known.resolve {made : Nat → Prop} {T : TypeTable} {x : SlotType} {s : Slots}
    (hx : x.Known made T) (hs : s.Known made T) : (x.resolve s).Known made T := by
  have habsolute : ∀ (found : SlotType) (halved : Bool), found.Known made T →
      (if halved && (found.extend x.dimensions).isWide then SlotType.top
        else found.extend x.dimensions).Known made T := by
    intro found halved hf
    split
    · exact known_top
    · exact hf.extend _
  unfold SlotType.resolve
  split
  · exact habsolute _ _ (hs.localAt _)
  · exact habsolute _ _ (hs.stackAt _)
  · exact hx

/-! ## 5. Known frames -/

/-- All types that leave a block are known. -/
structure Outflow.Known (made : Nat → Prop) (T : TypeTable) (out : Outflow) : Prop where
  locals : ∀ l ∈ out.locals, ∀ t ∈ l, t.Known made T
  stack : ∀ t ∈ out.stack, t.Known made T

namespace Frame

variable {h : Hierarchy} {made : Nat → Prop} {T T' : TypeTable} {f g : Frame}

/-- All types of a frame are known: those on entry, if there are any, and those of the effect. -/
structure Known (made : Nat → Prop) (T : TypeTable) (f : Frame) : Prop where
  entry : ∀ s, f.entry = some s → s.Known made T
  locals : ∀ (i : Nat) (t : SlotType), f.locals[i]? = some (some t) → t.Known made T
  stack : ∀ t ∈ f.stack, t.Known made T
  constructed : ∀ t ∈ f.constructed, t.Known made T

theorem Known.later (hf : f.Known made T) (hle : T ≤ T') : f.Known made T' :=
  ⟨fun s hs => (hf.entry s hs).later hle, fun i t ht => (hf.locals i t ht).later hle,
    fun t ht => (hf.stack t ht).later hle, fun t ht => (hf.constructed t ht).later hle⟩

/-- A frame as it is built. -/
theorem Lawful.known {made : Nat → Bool} (hf : f.Lawful T none) (hf' : f.Lawful (T.within made) none) :
    f.Known (fun o => made o = true) T :=
  ⟨fun _ hs => (nomatch hf.entry_eq.symm.trans hs), fun i t ht => (hf.locals i t ht).known (hf'.locals i t ht),
    fun t ht => (hf.stack t ht).known (hf'.stack t ht),
    fun t ht => (hf.constructed t ht).known (hf'.constructed t ht)⟩

theorem Known.entrySlots (hf : f.Known made T) : f.entrySlots.Known made T := by
  unfold Frame.entrySlots
  cases he : f.entry with
  | none => exact ⟨fun _ hx => absurd hx (Array.not_mem_empty _), fun _ hx => absurd hx (Array.not_mem_empty _)⟩
  | some s => exact hf.entry s he

theorem Known.enteredWith (hf : f.Known made T) {s : Slots} (hs : s.Known made T) :
    (f.enteredWith s).Known made T :=
  ⟨fun _ he => Option.some.inj he ▸ hs, hf.locals, hf.stack, hf.constructed⟩

/-- What is written of slots is in them. -/
theorem mem_gatherReversed {slots : Array SlotType} {t : SlotType} (ht : t ∈ gatherReversed slots) :
    t ∈ slots := by
  have hlist : ∀ (l : List SlotType) (state : Bool × List SlotType),
      t ∈ (l.foldl gatherStep state).2 → t ∈ state.2 ∨ t ∈ l := by
    intro l
    induction l with
    | nil => exact fun _ ht => .inl ht
    | cons u l ih =>
      rintro ⟨skip, done⟩ ht
      rw [List.foldl_cons] at ht
      rcases ih _ ht with ht | ht
      · cases skip with
        | true => exact .inl ht
        | false => exact (List.mem_cons.1 ht).elim (fun h => .inr (h ▸ List.mem_cons_self)) .inl
      · exact .inr (List.mem_cons_of_mem _ ht)
  rw [gatherReversed, ← Array.foldl_toList] at ht
  exact Array.mem_toList_iff.1 ((hlist _ _ ht).resolve_left List.not_mem_nil)

theorem Known.writtenLocals (hf : f.Known made T) : ∀ t ∈ f.writtenLocals, t.Known made T := by
  intro t ht
  have hmem := (List.dropWhile_sublist _).subset (List.mem_reverse.1 ht)
  exact hf.entrySlots.locals t (mem_gatherReversed hmem)

theorem Known.writtenStack (hf : f.Known made T) : ∀ t ∈ f.writtenStack, t.Known made T := fun t ht =>
  hf.entrySlots.stack t (mem_gatherReversed (List.mem_reverse.1 ht))

theorem safe_methodLocals (className : String) (access : UInt16) (name descriptor : String)
    (maxLocals : UInt16) : Safe h T (methodLocals className access name descriptor maxLocals)
      (fun ts T' => ∀ t ∈ ts, t.Known made T') := by
  have harguments : ∀ {receiver : List SlotType} {T' : TypeTable},
      (∀ t ∈ receiver, t.Known made T') → Safe h T' (do
        let arguments ← (← Descriptor.methodType descriptor).parameters.mapM SlotType.ofFieldType
        let locals := receiver ++ spread arguments
        return (locals ++ List.replicate (maxLocals.toNat - locals.length)
          SlotType.top).toArray : TypeM (Array SlotType)) (fun ts T' => ∀ t ∈ ts, t.Known made T') := by
    intro receiver T' hreceiver
    refine (Safe.lift fun e he => Descriptor.notAboutTypes_orMalformed he).bind fun type T₁ hle₁ _ => ?_
    refine (Safe.mapM (SlotType.lasting_known made) fun t _ _ _ => SlotType.safe_ofFieldType t).bind
      fun arguments T₂ hle₂ harguments => .pure fun t ht => ?_
    rw [List.mem_toArray, List.mem_append, List.mem_append] at ht
    rcases ht with (ht | ht) | ht
    · exact (hreceiver t ht).later (TypeTable.le_trans hle₁ hle₂)
    · rcases mem_spread ht with ht | rfl
      · exact harguments t ht
      · exact SlotType.known_top
    · exact List.eq_of_mem_replicate ht ▸ SlotType.known_top
  unfold methodLocals
  dsimp only
  split
  · exact Safe.bind (.pure (Q := fun ts T' => ∀ t ∈ ts, t.Known made T') (by simp))
      fun _ _ _ ht => harguments ht
  split
  · refine Safe.bind (.pure (Q := fun ts T' => ∀ t ∈ ts, t.Known made T') fun t ht => ?_)
      fun _ _ _ ht => harguments ht
    exact List.mem_singleton.1 ht ▸ trivial
  · have hobject : Safe h T (SlotType.object className) (fun t T' => t.Known made T') :=
      SlotType.safe_object className
    refine hobject.bind fun t T₁ _ ht => ?_
    refine Safe.bind (.pure (Q := fun ts T' => ∀ t ∈ ts, t.Known made T') fun u hu => ?_)
      fun _ _ _ ht => harguments ht
    exact List.mem_singleton.1 hu ▸ ht

theorem safe_afterConstruction (className : String) (constructed : List SlotType) {t : SlotType}
    (ht : t.Known made T) :
    Safe h T (afterConstruction className constructed t) (fun u T' => u.Known made T') := by
  unfold afterConstruction
  split
  · split
    · exact SlotType.safe_object _
    · rename_i index hkind
      rw [SlotType.Known, hkind] at ht
      obtain ⟨name, offset, hi, -⟩ := ht
      exact (TypeTable.safe_entry hi).bind fun e _ _ _ => SlotType.safe_object _
    · exact .pure ht
  · exact .pure ht

theorem safe_atExit (className : String) (hf : f.Known made T) {ts : List SlotType}
    (hts : ∀ t ∈ ts, t.Known made T) :
    Safe h T (f.atExit className ts) (fun us T' => ∀ u ∈ us, u.Known made T') :=
  Safe.mapM (SlotType.lasting_known made) fun t ht _ hle =>
    safe_afterConstruction _ _ (((hts t ht).resolve hf.entrySlots).later hle)

/-- Where there are not so many slots as are left, no index of a type is to blame. -/
theorem safe_exitStack (className : String) (hf : f.Known made T) :
    Safe h T (f.exitStack className) (fun us T' => ∀ u ∈ us, u.Known made T') := by
  unfold exitStack
  dsimp only
  split
  · exact (safe_atExit className hf fun t ht => hf.entrySlots.stack t
      (Array.mem_toList_iff.1 ht)).bind fun _ _ _ _ => .throw nofun
  · refine safe_atExit className hf fun t ht => ?_
    rcases List.mem_append.1 ht with ht | ht
    · exact hf.entrySlots.stack t (Array.mem_toList_iff.1 (List.mem_of_mem_take ht))
    · exact hf.stack t (Array.mem_toList_iff.1 ht)

theorem safe_outflow (className : String) {caught : Option SlotType} (hf : f.Known made T)
    (hcaught : ∀ t, caught = some t → t.Known made T) :
    Safe h T (f.outflow className caught) (fun out T' => out.Known made T') := by
  have hlocals : ∀ t ∈ f.entrySlots.locals.toList.mapIdx fun i t => f.locals[i]?.join.getD t,
      t.Known made T := by
    intro t ht
    obtain ⟨i, hi, rfl⟩ := List.mem_mapIdx.1 ht
    rcases hl : f.locals[i]? with _ | _ | u
    · exact hf.entrySlots.locals _ (by simp)
    · exact hf.entrySlots.locals _ (by simp)
    · exact hf.locals i u hl
  refine (safe_atExit className hf hlocals).bind fun locals T₁ hle hlocals => ?_
  split
  · rename_i t
    refine .pure ⟨fun l hl x hx => ?_, fun x hx => ?_⟩
    · rcases List.mem_pair.1 hl with rfl | rfl
      · exact hlocals x hx
      · exact (hf.entrySlots.locals x (Array.mem_toList_iff.1 hx)).later hle
    · exact List.mem_singleton.1 hx ▸ (hcaught t rfl).later hle
  · refine (safe_exitStack className (hf.later hle)).bind
      fun stack T₂ hle₂ hstack => .pure ⟨fun l hl x hx => ?_, hstack⟩
    obtain rfl := List.mem_singleton.1 hl
    exact (hlocals x hx).later hle₂

/-- **What leaves a block is merged into the entry of its successor**, of which all types are known
again. -/
theorem safe_mergeInto (className : String) {caught : Option SlotType} (hf : f.Known made T)
    (hg : g.Known made T) (hcaught : ∀ t, caught = some t → t.Known made T) :
    Safe h T (f.mergeInto h className caught g) (fun r T' => r.2.Known made T') := by
  refine (safe_outflow className hf hcaught).bind fun out T₁ hle₁ hout => ?_
  have hg₁ := hg.later hle₁
  have hentry : (g.entry.getD (Slots.unset f.entrySlots.locals.size out.stack.length)).Known made T₁ := by
    cases he : g.entry with
    | none => exact Slots.known_unset _ _
    | some s => exact hg₁.entry s he
  refine (Safe.foldlM (I := fun r T' => ∀ x ∈ r.2, x.Known made T') (fun l hl r T' hle hr =>
    Slots.safe_mergeFrom hr fun x hx => (hout.locals l hl x hx).later hle) hentry.locals).bind
    fun r T₂ hle₂ hr => ?_
  refine (Slots.safe_mergeFrom (fun x hx => (hentry.stack x hx).later hle₂)
    fun x hx => (hout.stack x hx).later hle₂).bind fun r' T₃ hle₃ hr' => ?_
  refine .pure ((hg₁.later (TypeTable.le_trans hle₂ hle₃)).enteredWith ⟨fun x hx => ?_, hr'⟩)
  exact (hr x hx).later hle₃

end Frame

end ClassFile
