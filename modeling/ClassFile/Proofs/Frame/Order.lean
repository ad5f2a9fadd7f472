/-
# Merging types goes up in an order

`Below h T x y` says that `y` covers `x`: the same type, `top`, a reference above `null`, an
array of the same dimensions over a class that is above in the hierarchy `h`, or
`java/lang/Object` under no more dimensions than `x` has when it is taken for objects.

* `merge_returns`: merging a type into a slot gives a type above both, and the type of the slot
  itself if that was above already.  So a type that has been merged once is absorbed for good,
  whatever is merged into the slot afterwards (`Below.trans`).
* When merging changes a slot, its `rank` goes down, and the rank of a slot is at most
  `slotChangeLimit`.
-/
import ClassFile.BlockGraph.Frames
import ClassFile.Proofs.TypeTable

namespace ClassFile.SlotType

variable {h : Hierarchy} {T T' : TypeTable}

/-! ## 1. Types in a table -/

/-- An absolute type that can stand in a slot on entry of a block; its number is in the table. -/
def Valid (T : TypeTable) (x : SlotType) : Prop :=
  match x.kind with
  | .unset | .onEntryLocal .. | .onEntryStack .. => False
  | .top | .null | .uninitializedThis => x.dimensions = 0
  | .base _ => 0 ≤ x.dimensions ∧ x.dimensions ≤ 127
  | .object i =>
    0 ≤ x.dimensions ∧ x.dimensions ≤ 127 ∧ ∃ name, T.entries[i]? = some (.initialized name)
  | .uninitialized i =>
    x.dimensions = 0 ∧ ∃ name offset, T.entries[i]? = some (.uninitialized name offset)

theorem Valid.later {x : SlotType} (hx : x.Valid T) (hle : T ≤ T') : x.Valid T' := by
  obtain ⟨d, k⟩ := x
  cases k <;> simp only [Valid] at hx ⊢ <;> try exact hx
  · exact ⟨hx.1, hx.2.1, hx.2.2.imp fun _ he => hle _ _ he⟩
  · exact ⟨hx.1, hx.2.imp fun _ he => he.imp fun _ he => hle _ _ he⟩

theorem lasting_valid (x : SlotType) : Lasting (Valid · x) := fun _ _ hle hx => hx.later hle

theorem Valid.dimensions_nonneg {x : SlotType} (hx : x.Valid T) : 0 ≤ x.dimensions := by
  obtain ⟨d, k⟩ := x
  cases k <;> simp only [Valid] at hx ⊢ <;> omega

theorem Valid.ne_unset {x : SlotType} (hx : x.Valid T) : x ≠ unset := by
  rintro rfl
  exact hx

theorem valid_top : top.Valid T := rfl

theorem valid_null : null.Valid T := rfl

/-- A reference is an array of primitive values, or of objects in some dimensions. -/
theorem Valid.of_isReference {x : SlotType} (hx : x.Valid T) (hr : x.isReference = true) :
    (∃ d p, x = ⟨d, .base p⟩ ∧ 0 < d ∧ d ≤ 127) ∨
      ∃ d i name, x = ⟨d, .object i⟩ ∧ 0 ≤ d ∧ d ≤ 127 ∧
        T.entries[i]? = some (.initialized name) := by
  obtain ⟨d, k⟩ := x
  cases k <;> simp only [Valid, isReference, Bool.or_false, decide_eq_true_eq] at hx hr <;>
    try omega
  · exact .inl ⟨d, _, rfl, hr, hx.2⟩
  · obtain ⟨h0, h127, name, hn⟩ := hx
    exact .inr ⟨d, _, name, rfl, h0, h127, hn⟩

@[simp] theorem isReference_object (d : Int) (i : TypeIndex) :
    isReference ⟨d, .object i⟩ = true := by simp [isReference]

@[simp] theorem isReference_null : null.isReference = false := rfl

@[simp] theorem isReference_top : top.isReference = false := rfl

@[simp] theorem objectDimensions_object (d : Int) (i : TypeIndex) :
    objectDimensions ⟨d, .object i⟩ = d := rfl

theorem Valid.objectDimensions_nonneg {x : SlotType} (hx : x.Valid T) : 0 ≤ x.objectDimensions := by
  have h0 := hx.dimensions_nonneg
  unfold objectDimensions
  split
  · exact h0
  · split <;> omega

/-! ## 2. The order -/

/-- **One type covers another one.** -/
inductive Below (h : Hierarchy) (T : TypeTable) : SlotType → SlotType → Prop where
  | refl (x : SlotType) : Below h T x x
  | top (x : SlotType) : Below h T x top
  | null {y : SlotType} : y.isReference = true → Below h T null y
  | object {d : Int} {i j : TypeIndex} {a b : String} : T.entries[i]? = some (.initialized a) →
      T.entries[j]? = some (.initialized b) → h.Under a b → Below h T ⟨d, .object i⟩ ⟨d, .object j⟩
  | root {x : SlotType} {d : Int} {j : TypeIndex} : x.isReference = true →
      d ≤ x.objectDimensions → T.entries[j]? = some (.initialized rootClass) →
      Below h T x ⟨d, .object j⟩

theorem Below.later {x y : SlotType} (hxy : Below h T x y) (hle : T ≤ T') : Below h T' x y := by
  cases hxy with
  | refl => exact .refl _
  | top => exact .top _
  | null hy => exact .null hy
  | object hi hj hab => exact .object (hle _ _ hi) (hle _ _ hj) hab
  | root hx hd hj => exact .root hx hd (hle _ _ hj)

theorem below_top_left {y : SlotType} (hy : Below h T SlotType.top y) : y = SlotType.top := by
  generalize hx : SlotType.top = x at hy
  cases hy with
  | refl => rfl
  | top => exact hx
  | null => cases hx
  | object => cases hx
  | root hr => rw [← hx] at hr; cases hr

theorem below_unset {x : SlotType} (hx : Below h T x unset) : x = unset := by
  generalize hy : unset = y at hx
  cases hx with
  | refl => rfl
  | top => cases hy
  | null hr => rw [← hy] at hr; cases hr
  | object => cases hy
  | root => cases hy

/-- **What covers a covering type covers the type.** -/
theorem Below.trans (hr : h.Rooted) {x y z : SlotType} (hxy : Below h T x y)
    (hyz : Below h T y z) : Below h T x z := by
  cases hxy with
  | refl => exact hyz
  | top => exact below_top_left hyz ▸ .top _
  | null hy =>
    cases hyz with
    | refl => exact .null hy
    | top => exact .top _
    | null hz => exact .null hz
    | object => exact .null (isReference_object _ _)
    | root => exact .null (isReference_object _ _)
  | object hi hj hab =>
    cases hyz with
    | refl => exact .object hi hj hab
    | top => exact .top _
    | object hj' hk hbc =>
      cases Option.some.inj (hj.symm.trans hj')
      exact .object hi hk (hr.under_trans hab hbc)
    | root _ hd hk => exact .root (isReference_object _ _) hd hk
  | root hx hd hj =>
    cases hyz with
    | refl => exact .root hx hd hj
    | top => exact .top _
    | object hj' hk hbc =>
      cases Option.some.inj (hj.symm.trans hj')
      have hroot : _ = rootClass := hr.under_antisymm (Hierarchy.under_root _) hbc
      exact .root hx hd (hroot ▸ hk)
    | root _ hd' hk => exact .root hx (Int.le_trans hd' hd) hk

/-! ## 3. How often a slot can change -/

/-- **The number of changes that are left to a slot**, at most. -/
noncomputable def rank (h : Hierarchy) (T : TypeTable) (x : SlotType) : Nat :=
  match x.kind with
  | .unset => 128 * (h.depth + 3) + 2
  | .null => 128 * (h.depth + 3) + 1
  | .top | .onEntryLocal .. | .onEntryStack .. => 0
  | .uninitializedThis | .uninitialized _ => 1
  | .base _ => x.dimensions.toNat * (h.depth + 3) + 1
  | .object i =>
    x.dimensions.toNat * (h.depth + 3) +
      ((T.entries[i]?.map fun e => h.climb e.name).getD 0 + 1)

theorem rank_object {d : Int} {i : TypeIndex} {name : String}
    (hi : T.entries[i]? = some (.initialized name)) :
    rank h T ⟨d, .object i⟩ = d.toNat * (h.depth + 3) + (h.climb name + 1) := by
  simp [rank, hi, TypeEntry.name]

theorem Valid.rank_later {x : SlotType} (hx : x.Valid T) (hle : T ≤ T') :
    rank h T' x = rank h T x := by
  obtain ⟨d, k⟩ := x
  cases k <;> try rfl
  obtain ⟨-, -, name, hn⟩ := hx
  rw [rank_object hn, rank_object (hle _ _ hn)]

theorem Valid.rank_lt_null (hr : h.Rooted) {x : SlotType} (hx : x.Valid T)
    (href : x.isReference = true) : rank h T x < rank h T null := by
  have hnull : rank h T null = 128 * (h.depth + 3) + 1 := rfl
  have hmul : ∀ d : Int, d ≤ 127 → d.toNat * (h.depth + 3) ≤ 127 * (h.depth + 3) :=
    fun d hd => Nat.mul_le_mul_right _ (by omega)
  rcases hx.of_isReference href with ⟨d, p, rfl, h0, h127⟩ | ⟨d, i, name, rfl, h0, h127, hn⟩
  · have := hmul d h127
    show d.toNat * (h.depth + 3) + 1 < _
    omega
  · have := hmul d h127
    have := hr.climb_le name
    rw [rank_object hn]
    omega

theorem Valid.rank_lt_unset (hr : h.Rooted) {x : SlotType} (hx : x.Valid T) :
    rank h T x < rank h T unset := by
  have hunset : rank h T unset = rank h T null + 1 := rfl
  by_cases href : x.isReference = true
  · have := hx.rank_lt_null hr href
    omega
  · have hnull : rank h T null = 128 * (h.depth + 3) + 1 := rfl
    obtain ⟨d, k⟩ := x
    cases k <;> simp only [Valid, isReference, Bool.or_false, Bool.or_true, decide_eq_true_eq,
      not_true_eq_false] at hx href <;> simp only [rank] at hnull hunset ⊢ <;> try omega
    have : d.toNat = 0 := by omega
    rw [this]
    omega

theorem rank_unset_le : rank h T unset ≤ BlockGraph.slotChangeLimit h := by
  show 128 * (h.depth + 3) + 2 ≤ 128 * (h.depth + 4) + 4
  omega

/-! ## 4. Merging -/

theorem returns_anyObject (hT : T.Sound h) (d : Int) :
    ∃ i T', Returns (anyObject d) T ⟨d, .object i⟩ T' ∧ T'.Sound h ∧ T ≤ T' ∧
      T'.entries[i]? = some (.initialized rootClass) := by
  obtain ⟨i, T', hret, hs, hle, hi⟩ := hT.intern (.initialized rootClass)
  exact ⟨i, T', returns_bind.2 ⟨i, T', hret, returns_pure.2 ⟨rfl, rfl⟩⟩, hs, hle, hi⟩

/-- What there is to know about the type `m` of a slot that was `c` before `x` was merged. -/
structure Merged (h : Hierarchy) (T T' : TypeTable) (c x m : SlotType) : Prop where
  sound : T'.Sound h
  grown : T ≤ T'
  valid : m.Valid T'
  covers : Below h T' x m
  goes_up : c ≠ unset → Below h T' c m
  absorbs : Below h T x c → m = c
  rank_lt : m ≠ c → rank h T' m < rank h T c

variable {c x : SlotType}

/-- The type of the slot stays. -/
theorem merged_self (hT : T.Sound h) (hc : c.Valid T) (hxc : Below h T x c) :
    Merged h T T c x c :=
  ⟨hT, TypeTable.le_refl T, hc, hxc, fun _ => .refl c, fun _ => rfl, fun hne => absurd rfl hne⟩

/-- `top` takes the place of a type that does not cover what is merged. -/
theorem merged_top (hT : T.Sound h) (hc : c.Valid T) (hxc : ¬ Below h T x c) :
    Merged h T T c x top := by
  refine ⟨hT, TypeTable.le_refl T, valid_top, .top x, fun _ => .top c, fun hb => absurd hb hxc,
    fun _ => ?_⟩
  have hne : c ≠ top := fun he => hxc (he ▸ .top x)
  show 0 < rank h T c
  obtain ⟨d, k⟩ := c
  cases k <;> simp only [Valid] at hc <;> simp only [rank] <;> try omega
  exact absurd (by rw [show d = 0 from hc]; rfl) hne

/-- `java/lang/Object` under some dimensions takes the place of a reference. -/
theorem merged_anyObject (hr : h.Rooted) {d : Int} {i : TypeIndex} (hs : T'.Sound h) (hle : T ≤ T')
    (hc : c.Valid T) (hcr : c.isReference = true) (hxr : x.isReference = true)
    (hd : 0 ≤ d) (hdc : d ≤ c.objectDimensions) (hdx : d ≤ x.objectDimensions)
    (hi : T'.entries[i]? = some (.initialized rootClass))
    (habs : Below h T x c → (⟨d, .object i⟩ : SlotType) = c) :
    Merged h T T' c x ⟨d, .object i⟩ := by
  have hroot : h.climb rootClass = 0 := Hierarchy.climb_root
  have hmul : ∀ e : Int, d < e →
      d.toNat * (h.depth + 3) + (h.depth + 3) ≤ e.toNat * (h.depth + 3) := by
    intro e he
    have : (d.toNat + 1) * (h.depth + 3) ≤ e.toNat * (h.depth + 3) :=
      Nat.mul_le_mul_right _ (by omega)
    rwa [Nat.succ_mul] at this
  rcases hc.of_isReference hcr with ⟨e, p, rfl, he0, he⟩ | ⟨e, j, name, rfl, he0, he, hj⟩
  · have hde : d < e := by
      simp only [objectDimensions, if_neg (Int.ne_of_gt he0)] at hdc
      omega
    have hd127 : d ≤ 127 := by omega
    refine ⟨hs, hle, ⟨hd, hd127, _, hi⟩, .root hxr hdx hi, fun _ => .root hcr hdc hi, habs,
      fun _ => ?_⟩
    have := hmul e hde
    rw [rank_object hi, hroot]
    show _ < e.toNat * (h.depth + 3) + 1
    omega
  · rw [objectDimensions_object] at hdc
    have hd127 : d ≤ 127 := by omega
    refine ⟨hs, hle, ⟨hd, hd127, _, hi⟩, .root hxr hdx hi, fun _ => .root hcr hdc hi, habs,
      fun hne => ?_⟩
    rw [rank_object hi, rank_object hj, hroot]
    rcases Int.lt_or_eq_of_le hdc with hde | rfl
    · have := hmul e hde
      omega
    · have hname : name ≠ rootClass := by
        rintro rfl
        exact hne (by rw [hs.index_unique hi (hle _ _ hj)])
      have hpos := hr.climb_pos hname
      omega

/-- Two objects, or arrays of objects of the same dimensions. -/
theorem merged_objects (hr : h.Rooted) {d : Int} {a b i : TypeIndex} {na nb : String}
    (hs : T'.Sound h) (hle : T ≤ T') (hd : 0 ≤ d) (hd' : d ≤ 127)
    (ha : T.entries[a]? = some (.initialized na)) (hb : T.entries[b]? = some (.initialized nb))
    (hi : T'.entries[i]? = some (.initialized (h.join na nb))) :
    Merged h T T' ⟨d, .object b⟩ ⟨d, .object a⟩ ⟨d, .object i⟩ := by
  have hkeep : h.join na nb = nb → (⟨d, .object i⟩ : SlotType) = ⟨d, .object b⟩ := by
    intro hj
    rw [hj] at hi
    rw [hs.index_unique hi (hle _ _ hb)]
  refine ⟨hs, hle, ⟨hd, hd', _, hi⟩, .object (hle _ _ ha) hi (hr.under_join_left _ _),
    fun _ => .object (hle _ _ hb) hi (hr.under_join_right _ _), fun hab => hkeep ?_,
    fun hne => ?_⟩
  · generalize hx : (⟨d, .object a⟩ : SlotType) = x at hab
    generalize hy : (⟨d, .object b⟩ : SlotType) = y at hab
    cases hab with
    | refl =>
      rw [← hx] at hy
      cases hy
      cases Option.some.inj (ha.symm.trans hb)
      exact hr.join_eq_right (.refl _)
    | top => cases hy
    | null => cases hx
    | object hi' hj' hu =>
      cases hx
      cases hy
      cases Option.some.inj (ha.symm.trans hi')
      cases Option.some.inj (hb.symm.trans hj')
      exact hr.join_eq_right hu
    | root _ _ hj' =>
      cases hy
      cases Option.some.inj (hb.symm.trans hj')
      exact hr.join_eq_right (Hierarchy.under_root _)
  · have hnb : nb ≠ h.join na nb := fun he => hne (hkeep he.symm)
    have := hr.climb_lt (hr.under_join_right na nb) hnb
    rw [rank_object hi, rank_object hb]
    omega

/-- Only a type that covers nothing but itself is covered by a type that is no reference. -/
theorem not_below (hxc : x ≠ c) (hc : c ≠ top) (hcr : c.isReference = false) :
    ¬ Below h T x c := by
  intro hb
  cases hb with
  | refl => exact hxc rfl
  | top => exact hc rfl
  | null hy => rw [hcr] at hy; cases hy
  | object => cases hcr.symm.trans (isReference_object _ _)
  | root => cases hcr.symm.trans (isReference_object _ _)

theorem merge_self (hierarchy : Hierarchy) (c : SlotType) : merge hierarchy c c = pure c := by
  rw [merge, if_pos rfl]

/-- Nothing is known about the slot yet. -/
theorem merge_unset (hierarchy : Hierarchy) (x : SlotType) : merge hierarchy unset x = pure x := by
  unfold merge
  split
  · rename_i hx
    rw [hx]
  · rfl

theorem merge_null_right (hierarchy : Hierarchy) (hcr : c.isReference = true) (hne : null ≠ c)
    (hu : c.kind ≠ .unset) : merge hierarchy c null = pure c := by
  rw [merge, if_neg hne, if_neg hu, if_pos hcr, if_pos rfl]

/-- Merging objects, or arrays of objects of the same dimensions. -/
theorem merge_objects (hierarchy : Hierarchy) (d : Int) {a b : TypeIndex} (hab : a ≠ b) :
    merge hierarchy ⟨d, .object b⟩ ⟨d, .object a⟩ =
      (do return ⟨d, .object (← TypeTable.merged hierarchy a b)⟩) := by
  have hne : (⟨d, .object a⟩ : SlotType) ≠ ⟨d, .object b⟩ := fun he => hab (by cases he; rfl)
  have hnull : (⟨d, .object a⟩ : SlotType) ≠ null := fun he => by cases he
  rw [merge, if_neg hne, if_neg (by simp), if_pos (isReference_object _ _), if_neg hnull]
  simp only [SlotKind.alike, decide_true, Bool.and_self, if_true]

/-- References that are not both objects: of two arrays of primitive values of the same dimensions,
the entries are taken for objects as well. -/
theorem merge_references (hierarchy : Hierarchy) (hxc : x ≠ c) (hu : c.kind ≠ .unset)
    (hcr : c.isReference = true) (hxn : x ≠ null)
    (hobj : ¬ ∃ d a b, x = ⟨d, .object a⟩ ∧ c = ⟨d, .object b⟩) (hx : x.Valid T) (hc : c.Valid T)
    (hxr : x.isReference = true) :
    merge hierarchy c x = anyObject (min x.objectDimensions c.objectDimensions) := by
  rw [merge, if_neg hxc, if_neg hu, if_pos hcr, if_neg hxn]
  rcases hx.of_isReference hxr with ⟨d, p, rfl, hd, -⟩ | ⟨d, i, -, rfl, hd, -⟩ <;>
    rcases hc.of_isReference hcr with ⟨e, q, rfl, he, -⟩ | ⟨e, j, -, rfl, he, -⟩
  · by_cases hde : d = e
    · subst hde
      simp [SlotKind.alike, objectDimensions, Int.ne_of_gt hd]
    · simp [hde, hxr]
  · simp [SlotKind.alike, hxr]
  · simp [SlotKind.alike]
  · have hde : d ≠ e := fun hde => hobj ⟨d, i, j, rfl, by rw [hde]⟩
    simp [hde]

/-- What is no reference is not of the sort and the dimensions of one. -/
theorem not_alike_of_not_isReference (hc : c.Valid T) (hcr : c.isReference = true)
    (hxr : ¬ x.isReference = true) :
    ¬ (decide (x.dimensions = c.dimensions) && x.kind.alike c.kind) = true := by
  rw [Bool.and_eq_true, decide_eq_true_eq]
  rintro ⟨hd, halike⟩
  obtain ⟨d, k⟩ := x
  rcases hc.of_isReference hcr with ⟨e, q, rfl, he, -⟩ | ⟨e, j, -, rfl, -, -⟩
  · cases hd
    exact hxr (by simp [isReference, he])
  · cases k <;> simp [SlotKind.alike] at halike
    exact hxr (isReference_object _ _)

/-- **Merging a type into a slot.**  It always gives an answer, which covers both. -/
theorem merge_returns (hr : h.Rooted) (hT : T.Sound h) (hc : c.Valid T ∨ c = unset)
    (hx : x.Valid T) :
    ∃ m T', Returns (merge h c x) T m T' ∧ Merged h T T' c x m := by
  have hpure : ∀ m, Merged h T T c x m → merge h c x = pure m →
      ∃ m T', Returns (merge h c x) T m T' ∧ Merged h T T' c x m :=
    fun m hm he => ⟨m, T, he ▸ returns_pure.2 ⟨rfl, rfl⟩, hm⟩
  rcases hc with hc | rfl
  swap
  · refine hpure x ⟨hT, TypeTable.le_refl T, hx, .refl x, fun hne => absurd rfl hne, fun hb => ?_,
      fun _ => hx.rank_lt_unset hr⟩ (merge_unset h x)
    by_contra hne
    exact not_below hne (by decide) (by decide) hb
  by_cases hxc : x = c
  · subst hxc
    exact hpure x (merged_self hT hc (.refl x)) (merge_self h x)
  have hu : c.kind ≠ .unset := fun hk => by simp only [Valid, hk] at hc
  by_cases hcr : c.isReference = true
  swap
  · -- a slot that holds no reference: only `null` gives way to something else than `top`
    have hmerge : merge h c x =
        (if c = null && x.isReference then pure x else pure top : TypeM SlotType) := by
      rw [merge, if_neg hxc, if_neg hu, if_neg hcr]
    by_cases hn : c = null ∧ x.isReference = true
    · obtain ⟨rfl, hxr⟩ := hn
      refine hpure x ⟨hT, TypeTable.le_refl T, hx, .refl x, fun _ => .null hxr,
        fun hb => absurd hb (not_below hxc (by decide) rfl), fun _ => hx.rank_lt_null hr hxr⟩ ?_
      rw [hmerge]
      simp [hxr]
    · refine hpure top ?_ ?_
      · by_cases hct : c = top
        · subst hct
          exact merged_self hT hc (.top x)
        · exact merged_top hT hc (not_below hxc hct (by simpa using hcr))
      · rw [hmerge, if_neg]
        simpa using hn
  by_cases hxn : x = null
  · subst hxn
    exact hpure c (merged_self hT hc (.null hcr)) (merge_null_right h hcr hxc hu)
  by_cases hobj : ∃ d a b, x = ⟨d, .object a⟩ ∧ c = ⟨d, .object b⟩
  · obtain ⟨d, a, b, rfl, rfl⟩ := hobj
    obtain ⟨hd, hd', na, ha⟩ := hx
    obtain ⟨-, -, nb, hb⟩ := hc
    obtain ⟨i, T', hret, hs, hle, hi⟩ := hT.merged hr ha hb
    have hab : a ≠ b := fun he => hxc (by rw [he])
    refine ⟨⟨d, .object i⟩, T', ?_, merged_objects hr hs hle hd hd' ha hb hi⟩
    rw [merge_objects h d hab]
    exact returns_bind.2 ⟨i, T', hret, returns_pure.2 ⟨rfl, rfl⟩⟩
  by_cases hxr : x.isReference = true
  · -- two references of different sorts or dimensions, neither of which is `null`
    have hd : 0 ≤ min x.objectDimensions c.objectDimensions :=
      Int.le_min.2 ⟨hx.objectDimensions_nonneg, hc.objectDimensions_nonneg⟩
    obtain ⟨i, T', hret, hs, hle, hi⟩ :=
      returns_anyObject hT (min x.objectDimensions c.objectDimensions)
    refine ⟨_, T', ?_, merged_anyObject hr hs hle hc hcr hxr hd (Int.min_le_right _ _)
      (Int.min_le_left _ _) hi fun hb => ?_⟩
    · rw [merge_references h hxc hu hcr hxn hobj hx hc hxr]
      exact hret
    · cases hb with
      | refl => exact absurd rfl hxc
      | top => cases hcr
      | null => exact absurd rfl hxn
      | object => exact absurd ⟨_, _, _, rfl, rfl⟩ hobj
      | root _ hle' hj =>
        rw [objectDimensions_object, Int.min_eq_right hle', hs.index_unique hi (hle _ _ hj)]
  · refine hpure top (merged_top hT hc fun hb => ?_) ?_
    · cases hb with
      | refl => exact hxc rfl
      | top => cases hcr
      | null => exact hxn rfl
      | object => exact hxr (isReference_object _ _)
      | root hxr' => exact hxr hxr'
    · rw [merge, if_neg hxc, if_neg hu, if_pos hcr, if_neg hxn,
        if_neg (not_alike_of_not_isReference hc hcr hxr), if_neg hxr]

end ClassFile.SlotType
