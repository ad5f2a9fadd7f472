/-
# The types that instructions leave behind

What a block does to its slots is recorded while nothing is known about its entry: the types are
absolute, with a number of the table, or stand for a slot on entry, under at most as many dimensions
as that has (`Meaningful`).  Every instruction keeps that (`keeps_effectOf`), also one that fails,
and none looks at the entry or changes it.

So when an entry is known whose slots are valid, all types on exit are (`Valid.resolve`).
-/
import ClassFile.BlockGraph.Step
import ClassFile.Proofs.Frame.Order

namespace ClassFile

/-! ## 1. Meaningful types -/

namespace SlotType

variable {h : Hierarchy} {T T' : TypeTable} {x : SlotType}

/-- An absolute type of the table, or what stands for a slot on entry or for the entries of an
array there. -/
def Meaningful (T : TypeTable) (x : SlotType) : Prop :=
  x.Valid T ∨ x.kind.isRelative = true ∧ -128 ≤ x.dimensions ∧ x.dimensions ≤ 0

theorem Meaningful.later (hx : x.Meaningful T) (hle : T ≤ T') : x.Meaningful T' :=
  hx.imp_left (Valid.later · hle)

theorem meaningful_top : top.Meaningful T := .inl valid_top

theorem valid_base (b : BaseType) : (scalar (.base b)).Valid T := by
  show (0 : Int) ≤ 0 ∧ (0 : Int) ≤ 127
  omega

theorem valid_object {i : TypeIndex} {name : String}
    (hi : T.entries[i]? = some (.initialized name)) : (scalar (.object i)).Valid T :=
  ⟨Int.le_refl 0, by show (0 : Int) ≤ 127; omega, name, hi⟩

theorem valid_ofBase (b : BaseType) : (ofBase b).Valid T := by
  cases b <;> exact valid_base _

theorem meaningful_onEntryLocal (index : UInt16) :
    (scalar (.onEntryLocal index false)).Meaningful T :=
  .inr ⟨rfl, by show (-128 : Int) ≤ 0; omega, Int.le_refl 0⟩

theorem meaningful_onEntryStack (index : UInt16) :
    (scalar (.onEntryStack index false)).Meaningful T :=
  .inr ⟨rfl, by show (-128 : Int) ≤ 0; omega, Int.le_refl 0⟩

theorem extend_cases (x : SlotType) (extra : Int) :
    x.extend extra = x ∨ x.extend extra = top ∨
      x.extend extra = ⟨x.dimensions + extra, x.kind⟩ ∧ x.dimensions + extra ≤ 127 ∧
        (if x.kind.isRelative then -128 else 0) ≤ x.dimensions + extra := by
  unfold SlotType.extend
  by_cases hsame : extra = 0 ∨ x.kind = .null
  · exact .inl (if_pos hsame)
  · rw [if_neg hsame]
    by_cases hd : (if x.kind.isRelative then -128 else 0) ≤ x.dimensions + extra ∧
        x.dimensions + extra ≤ 127
    · exact .inr (.inr ⟨if_pos hd, hd.2, hd.1⟩)
    · exact .inr (.inl (if_neg hd))

/-- A valid type under fewer dimensions. -/
theorem Valid.extend (hx : x.Valid T) {extra : Int} (hextra : extra ≤ 0) :
    (x.extend extra).Valid T := by
  rcases extend_cases x extra with he | he | ⟨he, hd, hd'⟩ <;> rw [he]
  · exact hx
  · exact valid_top
  · obtain ⟨d, k⟩ := x
    cases k <;> simp only [Valid, SlotKind.isRelative, Bool.false_eq_true, if_false] at hx hd' ⊢
      <;> try omega
    · exact ⟨hd', hd, hx.2.2⟩
    · exact ⟨by omega, hx.2⟩

theorem Meaningful.entry (hx : x.Meaningful T) : x.entry.Meaningful T := by
  rcases hx with hx | ⟨hrel, hd, hd'⟩
  · exact .inl (hx.extend (by omega))
  · rcases extend_cases x (-1) with he | he | ⟨he, -, hd''⟩ <;> rw [SlotType.entry, he]
    · exact .inr ⟨hrel, hd, hd'⟩
    · exact meaningful_top
    · rw [if_pos hrel] at hd''
      exact .inr ⟨hrel, hd'', by show x.dimensions + -1 ≤ 0; omega⟩

theorem Meaningful.halve (hx : x.Meaningful T) : x.halve.Meaningful T := by
  unfold SlotType.halve
  split
  · exact meaningful_top
  · split
    · rename_i hk
      rcases hx with hx | ⟨-, hd⟩
      · simp only [Valid, hk] at hx
      · exact .inr ⟨rfl, hd⟩
    · rename_i hk
      rcases hx with hx | ⟨-, hd⟩
      · simp only [Valid, hk] at hx
      · exact .inr ⟨rfl, hd⟩
    · exact hx

end SlotType

namespace Slots

variable {T T' : TypeTable} {s : Slots}

/-- All slots have valid types. -/
structure AllValid (T : TypeTable) (s : Slots) : Prop where
  locals : ∀ x ∈ s.locals, x.Valid T
  stack : ∀ x ∈ s.stack, x.Valid T

theorem AllValid.later (hs : s.AllValid T) (hle : T ≤ T') : s.AllValid T' :=
  ⟨fun x hx => (hs.locals x hx).later hle, fun x hx => (hs.stack x hx).later hle⟩

theorem AllValid.localAt (hs : s.AllValid T) (index : UInt16) : (s.localAt index).Valid T := by
  unfold Slots.localAt
  cases hi : s.locals[index.toNat]? with
  | none => exact SlotType.valid_top
  | some x => exact hs.locals x (Array.mem_of_getElem? hi)

theorem AllValid.stackAt (hs : s.AllValid T) (index : UInt16) : (s.stackAt index).Valid T := by
  unfold Slots.stackAt
  split
  · cases hi : s.stack[s.stack.size - index.toNat]? with
    | none => exact SlotType.valid_top
    | some x => exact hs.stack x (Array.mem_of_getElem? hi)
  · exact SlotType.valid_top

end Slots

/-- **A meaningful type stands for a valid one**, in a block whose slots on entry are valid. -/
theorem SlotType.Meaningful.resolve {T : TypeTable} {x : SlotType} {s : Slots}
    (hx : x.Meaningful T) (hs : s.AllValid T) : (x.resolve s).Valid T := by
  rcases hx with hx | ⟨hrel, -, hd⟩
  · obtain ⟨d, k⟩ := x
    cases k <;> first | exact hx | exact hx.elim
  · have habs : ∀ (found : SlotType) (halved : Bool), found.Valid T →
        (if halved && (found.extend x.dimensions).isWide then SlotType.top
          else found.extend x.dimensions).Valid T := by
      intro found halved hf
      split
      · exact SlotType.valid_top
      · exact hf.extend hd
    obtain ⟨d, k⟩ := x
    cases k <;> try cases hrel
    · exact habs _ _ (hs.localAt _)
    · exact habs _ _ (hs.stackAt _)

/-! ## 2. Frames of meaningful types -/

namespace Frame

variable {h : Hierarchy} {T T' : TypeTable} {e : Option Slots} {f : Frame}

/-- All types of the effect are meaningful, and the entry is this one. -/
structure Lawful (T : TypeTable) (e : Option Slots) (f : Frame) : Prop where
  locals : ∀ (i : Nat) (t : SlotType), f.locals[i]? = some (some t) → t.Meaningful T
  stack : ∀ t ∈ f.stack, t.Meaningful T
  constructed : ∀ t ∈ f.constructed, t.Meaningful T
  entry_eq : f.entry = e

theorem Lawful.later (hf : f.Lawful T e) (hle : T ≤ T') : f.Lawful T' e :=
  ⟨fun i t ht => (hf.locals i t ht).later hle, fun t ht => (hf.stack t ht).later hle,
    fun t ht => (hf.constructed t ht).later hle, hf.entry_eq⟩

theorem lawful_empty : Frame.empty.Lawful T none := by
  refine ⟨?_, ?_, ?_, rfl⟩ <;> simp [Frame.empty]

theorem Lawful.localAt (hf : f.Lawful T e) (index : UInt16) : (f.localAt index).Meaningful T := by
  unfold Frame.localAt
  cases hi : f.locals[index.toNat]? with
  | none => exact SlotType.meaningful_onEntryLocal index
  | some o =>
    cases o with
    | none => exact SlotType.meaningful_onEntryLocal index
    | some t => exact hf.locals _ _ hi

theorem getElem?_setAt {table : Array (Option SlotType)} {index : Nat} {t : SlotType} {i : Nat}
    {x : SlotType} (hx : (setAt table index t)[i]? = some (some x)) :
    x = t ∨ table[i]? = some (some x) := by
  simp only [setAt] at hx
  by_cases hi : index = i
  · left
    rw [hi, Array.getElem?_setIfInBounds_self] at hx
    exact (Option.some.inj (Option.some.inj (Option.ite_none_right_eq_some.1 hx).2)).symm
  · right
    rw [Array.getElem?_setIfInBounds_ne hi] at hx
    split at hx
    · exact hx
    · rw [Array.getElem?_append] at hx
      split at hx
      · exact hx
      · rw [Array.getElem?_replicate] at hx
        split at hx <;> cases hx

theorem Lawful.setLocal (hf : f.Lawful T e) (index : UInt16) {t : SlotType}
    (ht : t.Meaningful T) : (f.setLocal index t).Lawful T e := by
  refine ⟨fun i x hx => ?_, hf.stack, hf.constructed, hf.entry_eq⟩
  rcases getElem?_setAt hx with rfl | hx
  · exact ht
  · exact hf.locals i x hx

theorem Lawful.push (hf : f.Lawful T e) {t : SlotType} (ht : t.Meaningful T) :
    (f.push t).Lawful T e := by
  refine ⟨hf.locals, fun x hx => ?_, hf.constructed, hf.entry_eq⟩
  rcases Array.mem_push.1 hx with hx | rfl
  · exact hf.stack x hx
  · exact ht

theorem Lawful.pushAll {ts : List SlotType} (hf : f.Lawful T e) (ht : ∀ t ∈ ts, t.Meaningful T) :
    (f.pushAll ts).Lawful T e := by
  induction ts generalizing f with
  | nil => exact hf
  | cons t ts ih => exact ih (hf.push (ht t (by simp))) fun x hx => ht x (by simp [hx])

theorem Lawful.pushValue (hf : f.Lawful T e) {t : SlotType} (ht : t.Meaningful T) :
    (f.pushValue t).Lawful T e := by
  unfold Frame.pushValue
  split
  · exact (hf.push ht).push SlotType.meaningful_top
  · exact hf.push ht

theorem Lawful.pop (hf : f.Lawful T e) : f.pop.1.Meaningful T ∧ f.pop.2.Lawful T e := by
  obtain ⟨entry, locals, stack, taken, peak, constructed⟩ := f
  have hpop : ∀ x ∈ stack.pop, x.Meaningful T := by
    intro x hx
    rw [← Array.mem_toList_iff, Array.toList_pop] at hx
    exact hf.stack x (Array.mem_toList_iff.1 (List.dropLast_subset _ hx))
  cases hb : stack.back? with
  | none =>
    simp only [Frame.pop, hb]
    exact ⟨SlotType.meaningful_onEntryStack _, hf.locals, hf.stack, hf.constructed, hf.entry_eq⟩
  | some t =>
    simp only [Frame.pop, hb]
    exact ⟨hf.stack t (Array.mem_of_back? hb), hf.locals, hpop, hf.constructed, hf.entry_eq⟩

theorem Lawful.popAll (count : Nat) (hf : f.Lawful T e) :
    (∀ t ∈ (f.popAll count).1, t.Meaningful T) ∧ (f.popAll count).2.Lawful T e := by
  induction count generalizing f with
  | zero => exact ⟨by simp [Frame.popAll], hf⟩
  | succ count ih =>
    obtain ⟨ht, hf'⟩ := hf.pop
    obtain ⟨hts, hf''⟩ := ih hf'
    refine ⟨fun x hx => ?_, hf''⟩
    rcases List.mem_cons.1 hx with rfl | hx
    · exact ht
    · exact hts x hx

theorem Lawful.drop (count : Nat) (hf : f.Lawful T e) : (f.drop count).Lawful T e := by
  refine ⟨hf.locals, fun x hx => hf.stack x ?_, hf.constructed, hf.entry_eq⟩
  obtain ⟨i, hi, hx⟩ := Array.getElem_of_mem hx
  rw [← hx]
  simp only [Frame.drop, Array.getElem_shrink]
  exact Array.getElem_mem _

theorem Lawful.construct (hf : f.Lawful T e) {t : SlotType} (ht : t.Meaningful T) :
    (f.construct t).Lawful T e := by
  refine ⟨hf.locals, hf.stack, fun x hx => ?_, hf.entry_eq⟩
  rcases Array.mem_push.1 hx with hx | rfl
  · exact hf.constructed x hx
  · exact ht

theorem Lawful.halveBefore (index : UInt16) (hf : f.Lawful T e) :
    (f.halveBefore index).Lawful T e := by
  unfold Frame.halveBefore
  split
  · exact hf
  · exact hf.setLocal _ (hf.localAt _).halve

/-- Spreading values over their slots adds nothing but `top`. -/
theorem mem_spread {ts : List SlotType} {t : SlotType} (ht : t ∈ spread ts) : t ∈ ts ∨ t = .top := by
  obtain ⟨u, hu, ht⟩ := List.mem_flatMap.1 ht
  split at ht
  · rcases List.mem_pair.1 ht with rfl | rfl
    · exact .inl hu
    · exact .inr rfl
  · exact .inl (List.mem_singleton.1 ht ▸ hu)

/-! ## 3. What instructions do without looking at the table -/

/-- Instructions that look at nothing leave `null` or a primitive value. -/
theorem left_of_stackEffect? {op : Opcode} {effect : StackEffect} {t : SlotType}
    (he : op.stackEffect? = some effect) (ht : effect.left = some t) :
    t = .null ∨ ∃ b, t = SlotType.ofBase b := by
  have hrows : ∀ row ∈ Opcode.producers, row.2.2 ∈ [SlotType.null, SlotType.ofBase .int,
      SlotType.ofBase .long, SlotType.ofBase .float, SlotType.ofBase .double] := by decide
  unfold Opcode.stackEffect? at he
  split at he
  · cases he
    cases ht
  · split at he
    · rename_i hfind
      cases he
      cases ht
      have hmem := hrows _ (List.mem_of_find?_eq_some hfind)
      rcases List.mem_cons.1 hmem with hnull | hbase
      · exact .inl hnull
      · right
        simp only [List.mem_cons, List.not_mem_nil, or_false] at hbase
        rcases hbase with hb | hb | hb | hb <;> exact ⟨_, hb⟩
    · cases he

theorem Lawful.applyEffect (hf : f.Lawful T e) {op : Opcode} {effect : StackEffect}
    (he : op.stackEffect? = some effect) : (f.applyEffect effect).Lawful T e := by
  unfold Frame.applyEffect
  split
  · rename_i t ht
    refine (hf.drop _).pushValue (.inl ?_)
    rcases left_of_stackEffect? he ht with rfl | ⟨b, rfl⟩
    · exact SlotType.valid_null
    · exact SlotType.valid_ofBase b
  · exact hf.drop _

theorem Lawful.applyShuffle (count : Nat) (order : List Nat) (hf : f.Lawful T e) :
    (f.applyShuffle count order).Lawful T e := by
  obtain ⟨hts, hf'⟩ := hf.popAll count
  refine hf'.pushAll fun t ht => ?_
  obtain ⟨i, -, rfl⟩ := List.mem_map.1 ht
  rw [List.getD_eq_getElem?_getD]
  cases hi : (f.popAll count).1[i]? with
  | none => exact SlotType.meaningful_top
  | some t => exact hts t (List.mem_of_getElem? hi)

theorem Lawful.loadEntry (hf : f.Lawful T e) : f.loadEntry.Lawful T e := by
  obtain ⟨ht, hf'⟩ := (hf.drop 1).pop
  exact hf'.push ht.entry

theorem Lawful.plain? {op : Opcode} {change : Frame → Frame} (hop : plain? op = some change)
    (hf : f.Lawful T e) : (change f).Lawful T e := by
  unfold Frame.plain? at hop
  split at hop
  · rename_i he
    cases hop
    exact hf.applyEffect he
  · cases hop
    exact hf.applyShuffle _ _
  · split at hop
    · cases hop
      exact hf.loadEntry
    · cases hop

theorem Lawful.store (index : UInt16) (hf : f.Lawful T e) : (f.store index).Lawful T e := by
  obtain ⟨ht, hf'⟩ := hf.pop
  exact (hf'.setLocal _ ht).halveBefore _

theorem Lawful.storeWide (index : UInt16) (hf : f.Lawful T e) :
    (f.storeWide index).Lawful T e := by
  obtain ⟨ht, hf'⟩ := (hf.drop 1).pop
  exact ((hf'.setLocal _ ht).setLocal _ SlotType.meaningful_top).halveBefore _

theorem Lawful.takeReceiver (construction : Bool) (hf : f.Lawful T e) :
    (f.takeReceiver construction).Lawful T e := by
  obtain ⟨ht, hf'⟩ := hf.pop
  cases construction
  · exact hf'
  · exact hf'.construct ht

end Frame

/-! ## 4. Where things are made -/

/-- Does an instruction make an object, whose constructor is still to run? -/
def Instruction.makesObject {τ : Type} : Instruction τ → Bool
  | .type op _ => op == Opcode.new
  | _ => false

/-- An entry as a method sees it in which `new` instructions are at the offsets `made`: what has been
made elsewhere is like a class. -/
def TypeEntry.within (made : Nat → Bool) : TypeEntry → TypeEntry
  | initialized name => initialized name
  | uninitialized name offset =>
    if made offset then uninitialized name offset else initialized name

namespace TypeTable

variable {T T' : TypeTable} {made : Nat → Bool} {i : TypeIndex} {name : String} {offset : Nat}

/-- The table as such a method sees it. -/
def within (made : Nat → Bool) (T : TypeTable) : TypeTable :=
  ⟨T.entries.map (TypeEntry.within made), T.lookup, T.merges⟩

theorem getElem?_within (i : TypeIndex) :
    (T.within made).entries[i]? = T.entries[i]?.map (TypeEntry.within made) := Array.getElem?_map

/-- A method that could have made everything sees the table as it is. -/
@[simp] theorem within_all (T : TypeTable) : T.within (fun _ => true) = T := by
  have hentry : TypeEntry.within (fun _ => true) = id := by
    funext e
    cases e <;> rfl
  rw [within, hentry, Array.map_id]

theorem within_mono (made : Nat → Bool) (hle : T ≤ T') : T.within made ≤ T'.within made := by
  intro i e he
  rw [getElem?_within] at he ⊢
  obtain ⟨e', he', rfl⟩ := Option.map_eq_some_iff.1 he
  rw [hle i e' he', Option.map_some]

/-- Every method sees what is initialized. -/
theorem within_initialized (hi : T.entries[i]? = some (.initialized name)) :
    (T.within made).entries[i]? = some (.initialized name) := by
  rw [getElem?_within, hi]
  rfl

/-- It sees as uninitialized just what it has made. -/
theorem within_uninitialized_iff :
    (T.within made).entries[i]? = some (.uninitialized name offset) ↔
      T.entries[i]? = some (.uninitialized name offset) ∧ made offset = true := by
  rw [getElem?_within, Option.map_eq_some_iff]
  constructor
  · rintro ⟨e, he, hsame⟩
    cases e with
    | initialized => cases hsame
    | uninitialized name' offset' =>
      rw [TypeEntry.within] at hsame
      split at hsame
      · rename_i hmade
        cases hsame
        exact ⟨he, hmade⟩
      · cases hsame
  · rintro ⟨he, hmade⟩
    exact ⟨_, he, if_pos hmade⟩

end TypeTable

/-! ## 5. What instructions do -/

namespace SlotType

variable {h : Hierarchy} {T : TypeTable} {made : Nat → Bool}

theorem tame_object (name : String) :
    Tame h (fun _ => True) (object name)
      (fun t T => ∃ i, t = scalar (.object i) ∧ T.entries[i]? = some (.initialized name)) :=
  (TypeTable.tame_intern _).bind fun i => Tame.pure _ fun _ hi => ⟨i, rfl, hi⟩

theorem mergesNothing_object (name : String) : TypeTable.MergesNothing (object name) :=
  (TypeTable.mergesNothing_intern _).bind fun _ => TypeTable.mergesNothing_pure _

/-- An array of objects of a class, under so many dimensions. -/
theorem valid_within {i : TypeIndex} {name : String} (hi : T.entries[i]? = some (.initialized name))
    {d : Int} (hd : 0 ≤ d) (hmost : d ≤ 127) : Valid (T.within made) ⟨d, .object i⟩ :=
  ⟨hd, hmost, name, TypeTable.within_initialized hi⟩

/-- **The type of a value** is one that every method sees. -/
theorem tame_ofFieldType_within (made : Nat → Bool) (t : FieldType) :
    Tame h (fun _ => True) (ofFieldType t) (fun t T => t.Valid (T.within made)) := by
  have hdims : ∀ kind,
      Tame h (fun T => ∀ d : Int, 0 ≤ d → d ≤ 127 → Valid (T.within made) ⟨d, kind⟩) (do
        if 127 < t.dimensions then throw (.malformedDescriptor t.text)
        return ⟨t.dimensions, kind⟩ : TypeM SlotType) (fun t T => t.Valid (T.within made)) := by
    intro kind
    split
    · exact (Tame.throw (Q := fun _ _ => False) _).bind fun _ _ _ hf => hf.elim
    · exact Tame.pure _ fun T hT => hT _ (by omega) (by omega)
  unfold ofFieldType
  split
  · exact Tame.pure _ fun T _ => valid_ofBase _
  · dsimp only
    split
    · exact (Tame.pure _ fun T _ d h0 h127 => ⟨h0, h127⟩).bind hdims
    · rename_i name _
      refine (TypeTable.tame_intern (.initialized name)).bind fun i => ?_
      exact (Tame.pure _ fun T hi d h0 h127 => valid_within hi h0 h127).bind hdims

theorem tame_ofFieldType (t : FieldType) :
    Tame h (fun _ => True) (ofFieldType t) (fun t T => t.Valid T) :=
  (tame_ofFieldType_within (fun _ => true) t).mono (fun _ => id) fun _ T ht =>
    T.within_all ▸ ht

theorem mergesNothing_ofFieldType (t : FieldType) : TypeTable.MergesNothing (ofFieldType t) := by
  have hdims : ∀ kind, TypeTable.MergesNothing (do
      if 127 < t.dimensions then throw (.malformedDescriptor t.text)
      return ⟨t.dimensions, kind⟩ : TypeM SlotType) := by
    intro kind
    split
    · exact (TypeTable.mergesNothing_throw _).bind fun _ => TypeTable.mergesNothing_pure _
    · exact TypeTable.mergesNothing_pure _
  unfold ofFieldType
  split
  · exact TypeTable.mergesNothing_pure _
  · dsimp only
    split
    · exact (TypeTable.mergesNothing_pure _).bind hdims
    · exact (TypeTable.mergesNothing_intern _).bind fun _ =>
        (TypeTable.mergesNothing_pure _).bind hdims

theorem tame_ofDescriptor (made : Nat → Bool) (descriptor : String) :
    Tame h (fun _ => True) (ofDescriptor descriptor)
      (fun t T => ∀ x, t = some x → x.Valid (T.within made)) := by
  have hvalue : ∀ t, Tame h (fun _ => True) (do return some (← ofFieldType t) : TypeM _)
      (fun t T => ∀ x, t = some x → x.Valid (T.within made)) := fun t =>
    (tame_ofFieldType_within made t).bind fun x => Tame.pure _ fun T hx y hy => by cases hy; exact hx
  have hnone : Tame h (fun _ => True) (return none : TypeM (Option SlotType))
      (fun t T => ∀ x, t = some x → x.Valid (T.within made)) := Tame.pure _ fun T _ x hx => by cases hx
  unfold ofDescriptor
  split
  · refine (Tame.lift (Q := fun _ _ => True) _ fun _ _ _ _ => trivial).bind fun type => ?_
    split
    · exact hvalue _
    · exact hnone
  · split
    · exact hnone
    · exact (Tame.lift (Q := fun _ _ => True) _ fun _ _ _ _ => trivial).bind fun type => hvalue _

theorem mergesNothing_ofDescriptor (descriptor : String) :
    TypeTable.MergesNothing (ofDescriptor descriptor) := by
  have hvalue : ∀ t, TypeTable.MergesNothing (do return some (← ofFieldType t) : TypeM _) := fun t =>
    (mergesNothing_ofFieldType t).bind fun _ => TypeTable.mergesNothing_pure _
  unfold ofDescriptor
  split
  · refine (TypeTable.mergesNothing_lift _).bind fun type => ?_
    split
    · exact hvalue _
    · exact TypeTable.mergesNothing_pure _
  · split
    · exact TypeTable.mergesNothing_pure _
    · exact (TypeTable.mergesNothing_lift _).bind fun type => hvalue _

end SlotType

namespace Frame

variable {α β : Type} {h : Hierarchy} {P : TypeTable → Prop} {made : Nat → Bool}

/-- Before and after an operation on a frame: the table is sound and has grown, and the effect is
lawful. -/
structure InStep (h : Hierarchy) (T₀ : TypeTable) (e : Option Slots) (f : Frame)
    (T : TypeTable) : Prop where
  sound : T.Sound h
  grown : T₀ ≤ T
  lawful : f.Lawful T e

/-- **An operation that keeps a frame lawful**, whether or not it fails. -/
def Keeps (h : Hierarchy) (P : TypeTable → Prop) (m : FrameM α) (Q : α → TypeTable → Prop) : Prop :=
  ∀ T₀ e, Holds₂ (fun f T => InStep h T₀ e f T ∧ P T) m
    (fun a f T => InStep h T₀ e f T ∧ Q a T) (InStep h T₀ e)

/-- In a method in which `new` instructions are at the offsets `made`, nothing has been merged either,
and the effect is lawful as the method sees the table. -/
structure InMethod (h : Hierarchy) (made : Nat → Bool) (T₀ : TypeTable) (e : Option Slots) (f : Frame)
    (T : TypeTable) : Prop where
  sound : T.Sound h
  grown : T₀ ≤ T
  merges_eq : T.merges = T₀.merges
  lawful : f.Lawful (T.within made) e

/-- **An operation that makes nothing at other offsets**, whether or not it fails. -/
def Heeds (h : Hierarchy) (made : Nat → Bool) (P : TypeTable → Prop) (m : FrameM α)
    (Q : α → TypeTable → Prop) : Prop :=
  ∀ T₀ e, Holds₂ (fun f T => InMethod h made T₀ e f T ∧ P T) m
    (fun a f T => InMethod h made T₀ e f T ∧ Q a T) (InMethod h made T₀ e)

theorem Heeds.bind {m : FrameM α} {g : α → FrameM β} {R : α → TypeTable → Prop}
    {Q : β → TypeTable → Prop} (hm : Heeds h made P m R) (hg : ∀ a, Heeds h made (R a) (g a) Q) :
    Heeds h made P (m >>= g) Q :=
  fun T₀ e => (hm T₀ e).bind fun a => hg a T₀ e

theorem heeds_modify {g : Frame → Frame}
    (hg : ∀ T e f, P T → f.Lawful (T.within made) e → (g f).Lawful (T.within made) e) :
    Heeds h made P (modify g) (fun _ _ => True) :=
  fun _ e f T hf =>
    ⟨⟨hf.1.sound, hf.1.grown, hf.1.merges_eq, hg T e f hf.2 hf.1.lawful⟩, trivial⟩

theorem heeds_throw {Q : α → TypeTable → Prop} (err : Error) : Heeds h made P (throw err) Q :=
  fun _ _ _ _ hf => hf.1

theorem heeds_return {Q : α → TypeTable → Prop} (a : α) (hQ : ∀ T, P T → Q a T) :
    Heeds h made P (pure a) Q :=
  fun _ _ _ T hf => ⟨hf.1, hQ T hf.2⟩

theorem heeds_lift (x : Except Error α) :
    Heeds h made P (liftM x : FrameM α) (fun _ => P) := by
  intro T₀ e f T hf
  cases x with
  | error err => exact hf.1
  | ok a => exact hf

theorem heeds_onTypes {m : TypeM α} {Q : α → TypeTable → Prop} (hm : Tame h P m Q)
    (hmerges : TypeTable.MergesNothing m) : Heeds h made P (onTypes m) Q := by
  rintro T₀ e f T ⟨⟨hs, hgrown, heq, hf⟩, hP⟩
  have hmerged := hmerges T
  rcases hrun : (m T : Except Error α × TypeTable) with ⟨r, T'⟩
  rw [hrun] at hmerged
  obtain ⟨hs', hle, hans⟩ := hm T hs hP r T' hrun
  have hstep : InMethod h made T₀ e f T' := ⟨hs', TypeTable.le_trans hgrown hle, hmerged.trans heq,
    hf.later (TypeTable.within_mono made hle)⟩
  simp only [onTypes, hrun]
  cases r with
  | error err => exact hstep
  | ok a => exact ⟨hstep, (hans a rfl).1⟩

theorem heeds_plain (op : Opcode) : Heeds h made P (plain op) (fun _ _ => True) := by
  unfold plain
  split
  · rename_i change hop
    exact heeds_modify fun T e f _ hf => hf.plain? hop
  · split <;> exact heeds_throw _

theorem heeds_number (op : Opcode) (operand : Int32) :
    Heeds h made P (number op operand) (fun _ _ => True) := by
  unfold number
  split
  · exact heeds_modify fun T e f _ hf => hf.push (.inl (SlotType.valid_base _))
  · split
    · refine heeds_modify fun T e f _ hf => (hf.drop 1).push (.inl ?_)
      show (0 : Int) ≤ 1 ∧ (1 : Int) ≤ 127
      omega
    · exact heeds_throw _

theorem heeds_pushValue {t : SlotType} (ht : ∀ T, P T → t.Meaningful (T.within made)) :
    Heeds h made P (modify (pushValue t)) (fun _ _ => True) :=
  heeds_modify fun T _ _ hT hf => hf.pushValue (ht T hT)

theorem heeds_drop (count : Nat) : Heeds h made P (modify (drop count)) (fun _ _ => True) :=
  heeds_modify fun _ _ _ _ hf => hf.drop count

theorem heeds_localOperand (op : Opcode) (index : UInt16) :
    Heeds h made P (localOperand op index) (fun _ _ => True) := by
  have hbase : ∀ b, Heeds h made P (modify (pushValue (SlotType.scalar (.base b)))) (fun _ _ => True) :=
    fun b => heeds_pushValue fun T _ => .inl (SlotType.valid_base b)
  unfold localOperand
  split
  · exact hbase _
  split
  · exact hbase _
  split
  · exact hbase _
  split
  · exact hbase _
  split
  · exact heeds_modify fun _ _ _ _ hf => hf.push (hf.localAt index)
  split
  · exact heeds_modify fun _ _ _ _ hf => hf.store index
  split
  · exact heeds_modify fun _ _ _ _ hf => hf.storeWide index
  · split <;> exact heeds_throw _

theorem heeds_increment (index : UInt16) : Heeds h made P (increment index) (fun _ _ => True) :=
  heeds_modify fun _ _ _ _ hf => hf.setLocal index (.inl (SlotType.valid_base _))

theorem Heeds.weaken {m : FrameM α} {P' : TypeTable → Prop} {Q : α → TypeTable → Prop}
    (hm : Heeds h made P m Q) (hP : ∀ T, P' T → P T) : Heeds h made P' m Q :=
  fun T₀ e => (hm T₀ e).mono (fun _ _ hf => ⟨hf.1, hP _ hf.2⟩) (fun _ _ _ => id) fun _ _ => id

theorem heeds_pushDescriptor (descriptor : String) :
    Heeds h made P (pushDescriptor descriptor) (fun _ _ => True) := by
  refine ((heeds_onTypes (SlotType.tame_ofDescriptor made descriptor)
    (SlotType.mergesNothing_ofDescriptor descriptor)).weaken fun _ _ => trivial).bind fun t => ?_
  split
  · exact heeds_pushValue fun T hT => .inl (hT _ rfl)
  · exact heeds_return _ fun _ _ => trivial

theorem heeds_popDescriptor (descriptor : String) :
    Heeds h made P (popDescriptor descriptor) (fun _ _ => True) := by
  unfold popDescriptor
  split
  · exact (heeds_lift _).bind fun _ => heeds_drop _
  · exact (heeds_lift _).bind fun _ => heeds_drop _

theorem heeds_object (name : String) :
    Heeds h made P (onTypes (SlotType.object name))
      (fun t T => ∃ i, t = .scalar (.object i) ∧ T.entries[i]? = some (.initialized name)) :=
  (heeds_onTypes (SlotType.tame_object name) (SlotType.mergesNothing_object name)).weaken
    fun _ _ => trivial

theorem heeds_pushObject (name : String) :
    Heeds h made P (do
      let t ← onTypes (SlotType.object name)
      modify (push t)) (fun _ _ => True) := by
  refine (heeds_object name).bind fun t => heeds_modify fun T e f ht hf => hf.push (.inl ?_)
  obtain ⟨i, rfl, hi⟩ := ht
  exact SlotType.valid_object (TypeTable.within_initialized hi)

/-- Only `new` makes something. -/
theorem heeds_typeOperand {op : Opcode} {offset : Nat}
    (hnew : op = Opcode.new → made offset = true) (name : String) :
    Heeds h made P (typeOperand op offset name) (fun _ _ => True) := by
  unfold typeOperand
  split
  · rename_i hop
    refine ((heeds_onTypes (TypeTable.tame_intern (.uninitialized name offset))
      (TypeTable.mergesNothing_intern _)).weaken fun _ _ => trivial).bind fun i =>
      heeds_modify fun T e f hi hf => hf.push (.inl ?_)
    exact ⟨rfl, name, offset, TypeTable.within_uninitialized_iff.2 ⟨hi, hnew hop⟩⟩
  split
  · refine (heeds_drop 1).bind fun _ => ?_
    split
    · exact heeds_pushDescriptor _
    · refine (heeds_object name).bind fun t => heeds_modify fun T e f ht hf => hf.push (.inl ?_)
      obtain ⟨i, rfl, hi⟩ := ht
      exact SlotType.valid_within (d := 1) hi (by omega) (by omega)
  split
  · refine (heeds_drop 1).bind fun _ => ?_
    split
    · exact heeds_pushDescriptor _
    · exact heeds_pushObject name
  split
  · exact heeds_modify fun _ _ _ _ hf => (hf.drop 1).push (.inl (SlotType.valid_base _))
  · exact heeds_throw _

theorem heeds_member (op : Opcode) (name descriptor : String) :
    Heeds h made P (member op name descriptor) (fun _ _ => True) := by
  unfold member
  split
  · exact heeds_pushDescriptor _
  split
  · exact heeds_popDescriptor _
  split
  · exact (heeds_drop 1).bind fun _ => heeds_pushDescriptor _
  split
  · exact (heeds_popDescriptor _).bind fun _ => heeds_drop 1
  split
  · exact (heeds_popDescriptor _).bind fun _ => heeds_pushDescriptor _
  split
  · exact (heeds_popDescriptor _).bind fun _ =>
      (heeds_modify fun _ _ _ _ hf => hf.takeReceiver _).bind fun _ => heeds_pushDescriptor _
  · exact heeds_throw _

theorem heeds_dynamicCall (descriptor : String) :
    Heeds h made P (dynamicCall descriptor) (fun _ _ => True) :=
  (heeds_popDescriptor _).bind fun _ => heeds_pushDescriptor _

theorem heeds_constant (value : Loadable) : Heeds h made P (constant value) (fun _ _ => True) := by
  have hbase : ∀ b, Heeds h made P (modify (pushValue (SlotType.scalar (.base b)))) (fun _ _ => True) :=
    fun b => heeds_pushValue fun T _ => .inl (SlotType.valid_base b)
  cases value
  case integer | float | long | double => exact hbase _
  case string | type | methodType | handle => exact heeds_pushObject _
  case dynamic => exact heeds_pushDescriptor _

theorem heeds_multiArray (descriptor : String) (dimensions : UInt8) :
    Heeds h made P (multiArray descriptor dimensions) (fun _ _ => True) :=
  (heeds_drop _).bind fun _ => heeds_pushDescriptor _

/-- **No instruction takes meaning from a frame**, not even one that fails on the way, and none but `new`
makes something. -/
theorem heeds_step {τ : Type} {offset : Nat} {i : Instruction τ}
    (hnew : i.makesObject = true → made offset = true) :
    Heeds h made P (step offset i) (fun _ _ => True) := by
  cases i
  case simple | jump => exact heeds_plain _
  case tableSwitch => exact heeds_plain Opcode.tableswitch
  case lookupSwitch => exact heeds_plain Opcode.lookupswitch
  case int => exact heeds_number _ _
  case var => exact heeds_localOperand _ _
  case type => exact heeds_typeOperand (fun hop => hnew (beq_iff_eq.2 hop)) _
  case field | method => exact heeds_member _ _ _
  case invokeDynamic => exact heeds_dynamicCall _
  case constant => exact heeds_constant _
  case increment => exact heeds_increment _
  case multiArray => exact heeds_multiArray _ _

/-- In a method that could have made everything, the frame is lawful. -/
theorem Heeds.keeps {m : FrameM α}
    (hm : Heeds h (fun _ => true) (fun _ => True) m (fun _ _ => True)) :
    Keeps h P m (fun _ _ => True) := by
  rintro T₀ e f T ⟨⟨hs, hgrown, hf⟩, -⟩
  have hend : ∀ {f' T'}, InMethod h (fun _ => true) T e f' T' → InStep h T₀ e f' T' := by
    rintro f' T' ⟨hs', hle, -, hf'⟩
    exact ⟨hs', TypeTable.le_trans hgrown hle, T'.within_all ▸ hf'⟩
  exact (hm T e).mono (fun _ _ => id) (fun _ _ _ h => ⟨hend h.1, trivial⟩) (fun _ _ => hend) f T
    ⟨⟨hs, TypeTable.le_refl T, rfl, T.within_all.symm ▸ hf⟩, trivial⟩

theorem keeps_step {τ : Type} (offset : Nat) (i : Instruction τ) :
    Keeps h P (step offset i) (fun _ _ => True) :=
  (heeds_step fun _ => rfl).keeps

end Frame

end ClassFile
