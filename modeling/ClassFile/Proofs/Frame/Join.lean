/-
# What merging types into a slot leaves

A type of a slot refers to a table of types by number, and the numbers depend on the order in which
types were entered.  What it stands for does not: `meaning?` gives that as an `AbsoluteType`.

Absolute types are ordered (`Le`), from what is not known over `null`, classes and arrays to `top`.
Merging gives a type that means the least one above both (`merge_joins`), whatever the table remembers.
So the type that a list of types leaves in a slot means the least one above all of them, which does
not depend on their order or on how often they occur (`mergeEach_sup`), and none of them changes the
slot again.
-/
import ClassFile.Proofs.Frame.Merge

namespace ClassFile

/-! ## 1. Absolute types -/

/-- What the type of a slot stands for. -/
inductive AbsoluteType where
  | unset
  | top
  | null
  | uninitializedThis
  /-- A primitive value, or an array of them in some dimensions. -/
  | base (dimensions : Nat) (type : BaseType)
  | object (dimensions : Nat) (name : String)
  /-- What the `new` instruction at an offset makes. -/
  | uninitialized (name : String) (offset : Nat)
  deriving DecidableEq, Repr

namespace AbsoluteType

/-- Is it an object or an array? -/
def isReference : AbsoluteType → Bool
  | base dimensions _ => dimensions != 0
  | object .. => true
  | _ => false

/-- The dimensions of a reference when the primitive values in an array are none of them. -/
def objectDimensions : AbsoluteType → Nat
  | base dimensions _ => dimensions - 1
  | object dimensions _ => dimensions
  | _ => 0

/-- One type covers another one. -/
inductive Le (h : Hierarchy) : AbsoluteType → AbsoluteType → Prop where
  | refl (a : AbsoluteType) : Le h a a
  | unset (a : AbsoluteType) : Le h unset a
  | top (a : AbsoluteType) : Le h a top
  | null {a : AbsoluteType} (ha : a.isReference = true) : Le h null a
  | object {d : Nat} {x y : String} (hxy : h.Under x y) : Le h (object d x) (object d y)
  | root {a : AbsoluteType} {d : Nat} (ha : a.isReference = true) (hd : d ≤ a.objectDimensions) :
    Le h a (object d rootClass)

variable {h : Hierarchy} {a b c : AbsoluteType}

theorem Le.isReference (hab : Le h a b) (ha : a.isReference = true) :
    b.isReference = true ∨ b = .top := by
  cases hab with
  | refl => exact .inl ha
  | unset => cases ha
  | top => exact .inr rfl
  | null => cases ha
  | object => exact .inl rfl
  | root => exact .inl rfl

theorem top_le (hb : Le h .top b) : b = .top := by
  cases hb with
  | refl => rfl
  | top => rfl
  | root ha => cases ha

theorem Le.trans (hr : h.Rooted) (hab : Le h a b) (hbc : Le h b c) : Le h a c := by
  cases hab with
  | refl => exact hbc
  | unset => exact .unset c
  | top =>
    rw [top_le hbc]
    exact .top a
  | null hb =>
    obtain hc | rfl := hbc.isReference hb
    · exact .null hc
    · exact .top _
  | object hxy =>
    cases hbc with
    | refl => exact .object hxy
    | top => exact .top _
    | object hyz => exact .object (hr.under_trans hxy hyz)
    | root _ hd => exact .root rfl hd
  | root ha hd =>
    cases hbc with
    | refl => exact .root ha hd
    | top => exact .top _
    | object hyz =>
      obtain rfl := hr.under_antisymm hyz (Hierarchy.under_root _)
      exact .root ha hd
    | root _ hd' => exact .root ha (Nat.le_trans hd' hd)

theorem le_unset (hb : Le h b .unset) : b = .unset := by
  cases hb with
  | refl => rfl
  | unset => rfl
  | null ha => cases ha

/-- Only what is not known is below `null`. -/
theorem not_le_null (hb : b.isReference = true) : ¬ Le h b .null := by
  intro hle
  cases hle with
  | refl => cases hb
  | unset => cases hb
  | null => cases hb

theorem Le.antisymm (hr : h.Rooted) (hab : Le h a b) (hba : Le h b a) : a = b := by
  cases hab with
  | refl => rfl
  | unset => exact (le_unset hba).symm
  | top => exact top_le hba
  | null hb => exact absurd hba (not_le_null hb)
  | object hxy =>
    cases hba with
    | refl => rfl
    | object hyx => rw [hr.under_antisymm hxy hyx]
    | root => rw [hr.under_antisymm hxy (Hierarchy.under_root _)]
  | @root a d ha hd =>
    cases hba with
    | refl => rfl
    | top => cases ha
    | object hxy => rw [hr.under_antisymm hxy (Hierarchy.under_root _)]
    | root _ hd' =>
      rw [Nat.le_antisymm hd hd']
      rfl

/-- Arrays of objects cover references of no fewer dimensions. -/
theorem Le.le_objectDimensions {d : Nat} {x : String} (hle : Le h a (.object d x))
    (ha : a.isReference = true) : d ≤ a.objectDimensions := by
  cases hle with
  | refl => exact Nat.le_refl d
  | unset => cases ha
  | null => cases ha
  | object => exact Nat.le_refl d
  | root _ hd => exact hd

/-! ## 2. Least upper bounds -/

/-- The least type that covers all those with a property. -/
def IsSup (h : Hierarchy) (P : AbsoluteType → Prop) (m : AbsoluteType) : Prop :=
  (∀ a, P a → Le h a m) ∧ ∀ b, (∀ a, P a → Le h a b) → Le h m b

/-- The least type that covers both. -/
def Joins (h : Hierarchy) (a b m : AbsoluteType) : Prop :=
  Le h a m ∧ Le h b m ∧ ∀ c, Le h a c → Le h b c → Le h m c

theorem IsSup.unique (hr : h.Rooted) {P : AbsoluteType → Prop} {m m' : AbsoluteType}
    (hm : IsSup h P m) (hm' : IsSup h P m') : m = m' :=
  (hm.2 m' hm'.1).antisymm hr (hm'.2 m hm.1)

theorem isSup_none : IsSup h (fun _ => False) .unset := ⟨nofun, fun b _ => .unset b⟩

theorem IsSup.congr {P Q : AbsoluteType → Prop} {m : AbsoluteType} (hm : IsSup h P m)
    (hpq : ∀ a, P a ↔ Q a) : IsSup h Q m := by
  rwa [← funext fun a => propext (hpq a)]

theorem Joins.eq_left (hr : h.Rooted) {m : AbsoluteType} (hm : Joins h a b m) (hba : Le h b a) :
    m = a :=
  (hm.2.2 a (.refl a) hba).antisymm hr hm.1

/-- One more type is covered by joining it. -/
theorem IsSup.joins (hr : h.Rooted) {P : AbsoluteType → Prop} {m m' : AbsoluteType}
    (hm : IsSup h P m) (hjoin : Joins h m b m') : IsSup h (fun a => P a ∨ a = b) m' := by
  obtain ⟨hleft, hright, hleast⟩ := hjoin
  constructor
  · rintro a (ha | rfl)
    · exact (hm.1 a ha).trans hr hleft
    · exact hright
  · intro c hc
    exact hleast c (hm.2 c fun a ha => hc a (.inl ha)) (hc b (.inr rfl))

theorem joins_left (hba : Le h b a) : Joins h a b a := ⟨.refl a, hba, fun _ hac _ => hac⟩

theorem joins_right (hab : Le h a b) : Joins h a b b := ⟨hab, .refl b, fun _ _ hbc => hbc⟩

/-- Objects, or arrays of them of the same dimensions. -/
theorem joins_objects (hr : h.Rooted) (d : Nat) (x y : String) :
    Joins h (.object d y) (.object d x) (.object d (h.join x y)) := by
  refine ⟨.object (hr.under_join_right x y), .object (hr.under_join_left x y), ?_⟩
  intro c hyc hxc
  cases hyc with
  | refl =>
    cases hxc with
    | refl => exact .object (hr.join_under (.refl x) (.refl x))
    | object hxy => exact .object (hr.join_under hxy (.refl y))
    | root _ hd => exact .root rfl hd
  | top => exact .top _
  | object hyz =>
    cases hxc with
    | refl => exact .object (hr.join_under (.refl x) hyz)
    | object hxz => exact .object (hr.join_under hxz hyz)
    | root _ hd => exact .root rfl hd
  | root _ hd => exact .root rfl hd

/-- Other references have only objects of any class in common, or arrays of them. -/
theorem joins_references (hab : a ≠ b) (ha : a.isReference = true) (hb : b.isReference = true)
    (hobj : ¬ ∃ d x y, a = .object d x ∧ b = .object d y) :
    Joins h a b (.object (min a.objectDimensions b.objectDimensions) rootClass) := by
  refine ⟨.root ha (Nat.min_le_left _ _), .root hb (Nat.min_le_right _ _), ?_⟩
  intro c hac hbc
  have hroot : ∀ d, c = .object d rootClass →
      Le h (.object (min a.objectDimensions b.objectDimensions) rootClass) c := by
    rintro d rfl
    exact .root rfl (Nat.le_min.2 ⟨hac.le_objectDimensions ha, hbc.le_objectDimensions hb⟩)
  cases hac with
  | refl =>
    cases hbc with
    | refl => exact absurd rfl hab
    | unset => cases hb
    | top => exact .top _
    | null => cases hb
    | object => exact absurd ⟨_, _, _, rfl, rfl⟩ hobj
    | root => exact hroot _ rfl
  | unset => cases ha
  | top => exact .top _
  | null => cases ha
  | object =>
    cases hbc with
    | refl => exact absurd ⟨_, _, _, rfl, rfl⟩ hobj
    | unset => cases hb
    | null => cases hb
    | object => exact absurd ⟨_, _, _, rfl, rfl⟩ hobj
    | root => exact hroot _ rfl
  | root => exact hroot _ rfl

/-- Types that are not both references, and none of them `null` below one, cover each other only as
`top` does. -/
theorem not_le (hab : a ≠ b) (ha : a ≠ .unset) (hb : b ≠ .top)
    (hnull : ¬ (a = .null ∧ b.isReference = true))
    (href : ¬ (a.isReference = true ∧ b.isReference = true)) : ¬ Le h a b := by
  intro hle
  cases hle with
  | refl => exact hab rfl
  | unset => exact ha rfl
  | top => exact hb rfl
  | null h => exact hnull ⟨rfl, h⟩
  | object => exact href ⟨rfl, rfl⟩
  | root h => exact href ⟨h, rfl⟩

/-- Such types have nothing in common. -/
theorem joins_top (hab : a ≠ b) (ha : a ≠ .unset) (hb : b ≠ .unset)
    (hnull : ¬ (a = .null ∧ b.isReference = true)) (hnull' : ¬ (b = .null ∧ a.isReference = true))
    (href : ¬ (a.isReference = true ∧ b.isReference = true)) : Joins h a b .top := by
  refine ⟨.top a, .top b, ?_⟩
  intro c hac hbc
  cases hac with
  | refl =>
    by_cases htop : a = .top
    · rw [htop]
      exact .refl _
    · exact absurd hbc (not_le hab.symm hb htop hnull' fun hba => href hba.symm)
  | unset => exact absurd rfl ha
  | top => exact .top _
  | null hc =>
    cases hbc with
    | refl => exact absurd ⟨rfl, hc⟩ hnull
    | unset => exact absurd rfl hb
    | top => cases hc
    | null => exact absurd rfl hab
    | object => exact absurd ⟨rfl, rfl⟩ hnull
    | root hb => exact absurd ⟨rfl, hb⟩ hnull
  | object =>
    cases hbc with
    | refl => exact absurd ⟨rfl, rfl⟩ href
    | unset => exact absurd rfl hb
    | null => exact absurd ⟨rfl, rfl⟩ hnull'
    | object => exact absurd ⟨rfl, rfl⟩ href
    | root hb => exact absurd ⟨rfl, hb⟩ href
  | root ha =>
    cases hbc with
    | refl => exact absurd ⟨ha, rfl⟩ href
    | unset => exact absurd rfl hb
    | null => exact absurd ⟨rfl, ha⟩ hnull'
    | object => exact absurd ⟨ha, rfl⟩ href
    | root hb => exact absurd ⟨ha, hb⟩ href

end AbsoluteType

/-! ## 3. The meaning of a type in a table -/

namespace SlotType

open AbsoluteType

/-- What a type stands for; what is relative to the entry of a block, or has a number that is not in the
table, stands for nothing. -/
def meaning? (T : TypeTable) (x : SlotType) : Option AbsoluteType :=
  match x.kind with
  | .unset => some .unset
  | .top => some .top
  | .null => some .null
  | .uninitializedThis => some .uninitializedThis
  | .base type => some (.base x.dimensions.toNat type)
  | .object i =>
    match T.entries[i]? with
    | some (.initialized name) => some (.object x.dimensions.toNat name)
    | _ => none
  | .uninitialized i =>
    match T.entries[i]? with
    | some (.uninitialized name offset) => some (.uninitialized name offset)
    | _ => none
  | .onEntryLocal .. | .onEntryStack .. => none

variable {h : Hierarchy} {T T' : TypeTable} {c x m : SlotType} {a b : AbsoluteType}

/-- The forms of valid types and what they stand for. -/
inductive Means (T : TypeTable) : SlotType → AbsoluteType → Prop where
  | top : Means T top .top
  | null : Means T null .null
  | uninitializedThis : Means T uninitializedThis .uninitializedThis
  | base (d : Nat) (type : BaseType) : Means T ⟨d, .base type⟩ (.base d type)
  | object (d : Nat) {i : TypeIndex} {name : String}
    (hi : T.entries[i]? = some (.initialized name)) : Means T ⟨d, .object i⟩ (.object d name)
  | uninitialized {i : TypeIndex} {name : String} {offset : Nat}
    (hi : T.entries[i]? = some (.uninitialized name offset)) :
    Means T (scalar (.uninitialized i)) (.uninitialized name offset)

theorem Means.meaning (hx : Means T x a) : meaning? T x = some a := by
  cases hx <;> simp [meaning?, scalar, SlotType.top, SlotType.null, SlotType.uninitializedThis, *]

theorem Valid.exists_means (hx : x.Valid T) : ∃ a, Means T x a := by
  obtain ⟨d, k⟩ := x
  cases k with
  | unset => exact hx.elim
  | onEntryLocal => exact hx.elim
  | onEntryStack => exact hx.elim
  | top =>
    obtain rfl : d = 0 := hx
    exact ⟨_, .top⟩
  | null =>
    obtain rfl : d = 0 := hx
    exact ⟨_, .null⟩
  | uninitializedThis =>
    obtain rfl : d = 0 := hx
    exact ⟨_, .uninitializedThis⟩
  | base type =>
    obtain ⟨n, rfl⟩ := Int.eq_ofNat_of_zero_le hx.1
    exact ⟨_, .base n type⟩
  | object i =>
    obtain ⟨h0, -, name, hi⟩ := hx
    obtain ⟨n, rfl⟩ := Int.eq_ofNat_of_zero_le h0
    exact ⟨_, .object n hi⟩
  | uninitialized i =>
    obtain ⟨rfl, name, offset, hi⟩ := hx
    exact ⟨_, .uninitialized hi⟩

theorem Valid.means (hx : x.Valid T) (ha : meaning? T x = some a) : Means T x a := by
  obtain ⟨b, hb⟩ := hx.exists_means
  cases hb.meaning.symm.trans ha
  exact hb

theorem Means.later (hx : Means T x a) (hle : T ≤ T') : Means T' x a := by
  cases hx with
  | top => exact .top
  | null => exact .null
  | uninitializedThis => exact .uninitializedThis
  | base d type => exact .base d type
  | object d hi => exact .object d (hle _ _ hi)
  | uninitialized hi => exact .uninitialized (hle _ _ hi)

/-- What a type of a slot stands for stays, in all later tables. -/
theorem meaning_later (hx : x.Valid T ∨ x = unset) (hle : T ≤ T') :
    meaning? T' x = meaning? T x := by
  rcases hx with hx | rfl
  · obtain ⟨a, ha⟩ := hx.exists_means
    rw [ha.meaning, (ha.later hle).meaning]
  · rfl

theorem Means.ne_unset (hx : Means T x a) : a ≠ .unset := by
  cases hx <;> simp

theorem Means.isReference (hx : Means T x a) : a.isReference = x.isReference := by
  cases hx with
  | base d type =>
    rw [Bool.eq_iff_iff]
    simp only [AbsoluteType.isReference, SlotType.isReference, bne_iff_ne, Bool.or_false,
      decide_eq_true_eq]
    omega
  | _ => simp [AbsoluteType.isReference, SlotType.isReference, scalar, SlotType.top, SlotType.null,
      SlotType.uninitializedThis]

theorem Means.eq_null_iff (hx : Means T x a) : a = .null ↔ x = SlotType.null := by
  cases hx <;> simp [scalar, SlotType.top, SlotType.null, SlotType.uninitializedThis]

theorem Means.objectDimensions (hx : Means T x a) (href : x.isReference = true) :
    x.objectDimensions = a.objectDimensions := by
  cases hx with
  | base d type =>
    simp [SlotType.isReference] at href
    simp [SlotType.objectDimensions, AbsoluteType.objectDimensions]
    omega
  | object d hi => rfl
  | _ => simp [SlotType.isReference, scalar, SlotType.top, SlotType.null,
      SlotType.uninitializedThis] at href

/-- In a sound table, types with one meaning are the same. -/
theorem Means.inj (hT : T.Sound h) {y : SlotType} (hx : Means T x a) (hy : Means T y a) : x = y := by
  cases hx with
  | top => cases hy; rfl
  | null => cases hy; rfl
  | uninitializedThis => cases hy; rfl
  | base => cases hy; rfl
  | object d hi =>
    cases hy with
    | object d hj => rw [hT.index_unique hi hj]
  | uninitialized hi =>
    cases hy with
    | uninitialized hj => rw [hT.index_unique hi hj]

theorem meaning_inj (hT : T.Sound h) {y : SlotType} (hx : x.Valid T ∨ x = unset)
    (hy : y.Valid T ∨ y = unset) (ha : meaning? T x = some a) (hb : meaning? T y = some a) :
    x = y := by
  rcases hx with hx | rfl
  · rcases hy with hy | rfl
    · exact (hx.means ha).inj hT (hy.means hb)
    · cases hb
      exact absurd rfl (hx.means ha).ne_unset
  · cases ha
    rcases hy with hy | rfl
    · exact absurd rfl (hy.means hb).ne_unset
    · rfl

/-! ## 4. Merging -/

/-- Merging references that are not both objects under the same dimensions. -/
theorem joins_anyObject (hT : T.Sound h) (hxc : x ≠ c) (hcm : Means T c a) (hxm : Means T x b)
    (hcr : c.isReference = true) (hxr : x.isReference = true)
    (hobj : ¬ ∃ d i j, x = ⟨d, .object i⟩ ∧ c = ⟨d, .object j⟩)
    (hret : Returns (anyObject (min x.objectDimensions c.objectDimensions)) T m T') :
    ∃ z, meaning? T' m = some z ∧ Joins h a b z := by
  obtain ⟨i, T₁, hret', -, -, hi⟩ := returns_anyObject hT (min x.objectDimensions c.objectDimensions)
  cases hret'.symm.trans hret
  have hd : min x.objectDimensions c.objectDimensions =
      (min a.objectDimensions b.objectDimensions : Nat) := by
    rw [hxm.objectDimensions hxr, hcm.objectDimensions hcr]
    omega
  rw [hd]
  refine ⟨_, (Means.object _ hi).meaning, joins_references ?_ ?_ ?_ ?_⟩
  · rintro rfl
    exact hxc (hxm.inj hT hcm)
  · rw [hcm.isReference, hcr]
  · rw [hxm.isReference, hxr]
  · rintro ⟨d, y, z, rfl, rfl⟩
    cases hcm with
    | object d hi =>
      cases hxm with
      | object d hj => exact hobj ⟨_, _, _, rfl, rfl⟩

/-- **The type that merging gives means the least one above both.** -/
theorem merge_joins (hr : h.Rooted) (hT : T.Sound h) (hc : c.Valid T ∨ c = unset) (hx : x.Valid T)
    (ha : meaning? T c = some a) (hb : meaning? T x = some b) (hret : Returns (merge h c x) T m T') :
    ∃ z, meaning? T' m = some z ∧ Joins h a b z := by
  have hxm := hx.means hb
  rcases hc with hc | rfl
  swap
  · rw [merge_unset] at hret
    obtain ⟨rfl, rfl⟩ := returns_pure.1 hret
    cases ha
    exact ⟨b, hb, joins_right (.unset b)⟩
  have hcm := hc.means ha
  by_cases hxc : x = c
  · subst hxc
    rw [merge_self] at hret
    obtain ⟨rfl, rfl⟩ := returns_pure.1 hret
    cases ha.symm.trans hb
    exact ⟨a, ha, joins_left (.refl a)⟩
  have hab : a ≠ b := by
    rintro rfl
    exact hxc (hxm.inj hT hcm)
  have hu : c.kind ≠ .unset := fun hk => by simp only [Valid, hk] at hc
  have htop : ¬ (c = null ∧ x.isReference = true) → ¬ (x = null ∧ c.isReference = true) →
      ¬ (c.isReference = true ∧ x.isReference = true) → Joins h a b .top := by
    intro hnull hnull' href
    rw [← hcm.eq_null_iff, ← hxm.isReference] at hnull
    rw [← hxm.eq_null_iff, ← hcm.isReference] at hnull'
    rw [← hcm.isReference, ← hxm.isReference] at href
    exact joins_top hab hcm.ne_unset hxm.ne_unset hnull hnull' href
  by_cases hcr : c.isReference = true
  swap
  · -- a slot that holds no reference: only `null` gives way to something else than `top`
    rw [merge, if_neg hxc, if_neg hu, if_neg hcr] at hret
    split at hret
    · rename_i hn
      simp at hn
      obtain ⟨rfl, rfl⟩ := returns_pure.1 hret
      obtain rfl := hcm.eq_null_iff.2 hn.1
      exact ⟨b, hb, joins_right (.null (hxm.isReference.trans hn.2))⟩
    · rename_i hn
      simp at hn
      obtain ⟨rfl, rfl⟩ := returns_pure.1 hret
      refine ⟨.top, rfl, htop ?_ ?_ ?_⟩
      · rintro ⟨hcn, hxr⟩
        simp [hn hcn] at hxr
      · exact fun hand => hcr hand.2
      · exact fun hand => hcr hand.1
  by_cases hxn : x = null
  · subst hxn
    rw [merge_null_right h hcr hxc hu] at hret
    obtain ⟨rfl, rfl⟩ := returns_pure.1 hret
    obtain rfl := hxm.eq_null_iff.2 rfl
    exact ⟨a, ha, joins_left (.null (hcm.isReference.trans hcr))⟩
  by_cases hobj : ∃ d i j, x = ⟨d, .object i⟩ ∧ c = ⟨d, .object j⟩
  · obtain ⟨d, i, j, rfl, rfl⟩ := hobj
    have hij : i ≠ j := fun he => hxc (by rw [he])
    rw [merge_objects h d hij] at hret
    obtain ⟨k, T₁, hmerged, hret⟩ := returns_bind.1 hret
    obtain ⟨rfl, rfl⟩ := returns_pure.1 hret
    cases hcm with
    | @object n _ nameC hj =>
      cases hxm with
      | @object _ _ nameX hi =>
        obtain ⟨k', T₂, hmerged', -, -, hk⟩ := hT.merged hr hi hj
        cases hmerged'.symm.trans hmerged
        exact ⟨_, (Means.object n hk).meaning, joins_objects hr n nameX nameC⟩
  by_cases hxr : x.isReference = true
  · rw [merge_references h hxc hu hcr hxn hobj hx hc hxr] at hret
    exact joins_anyObject hT hxc hcm hxm hcr hxr hobj hret
  · rw [merge, if_neg hxc, if_neg hu, if_pos hcr, if_neg hxn,
      if_neg (not_alike_of_not_isReference hc hcr hxr), if_neg hxr] at hret
    obtain ⟨rfl, rfl⟩ := returns_pure.1 hret
    refine ⟨.top, rfl, htop ?_ ?_ ?_⟩
    · exact fun hand => hxr hand.2
    · exact fun hand => hxn hand.1
    · exact fun hand => hxr hand.2

end SlotType

/-! ## 5. Tables -/

namespace TypeTable

variable {h : Hierarchy} {T T' : TypeTable}

/-- The tables that come from entering types and merging them, always with one hierarchy. -/
inductive Built (h : Hierarchy) : TypeTable → Prop where
  | empty : Built h .empty
  | intern {T T' : TypeTable} {i : TypeIndex} (hT : Built h T) (e : TypeEntry)
    (hret : Returns (TypeTable.intern e) T i T') : Built h T'
  | merged {T T' : TypeTable} {i : TypeIndex} (hT : Built h T) (a b : TypeIndex)
    (hret : Returns (TypeTable.merged h a b) T i T') : Built h T'

theorem Built.sound (hT : T.Built h) : T.Sound h := by
  induction hT with
  | empty => exact sound_empty h
  | intern _ e hret ih => exact ((tame_intern e).of_returns ih trivial hret).1
  | merged _ a b hret ih => exact (leads_merged a b _ _ _ hret ih).1

/-- A table that is built further. -/
def Builds (h : Hierarchy) (T T' : TypeTable) : Prop := T.Built h → T'.Built h

instance : IsPreorder TypeTable (Builds h) where
  refl _ := id
  trans _ _ _ h₁ h₂ := h₂ ∘ h₁

theorem leads_builds_merge (c x : SlotType) : Leads (Builds h) (SlotType.merge h c x) := by
  have hany : ∀ d, Leads (Builds h) (SlotType.anyObject d) := by
    intro d
    have hintern : Leads (Builds h) (TypeTable.initialized rootClass) :=
      fun _ _ _ hret hT => .intern hT _ hret
    exact hintern.bind fun i => .pure _
  have hmerged : ∀ a b, Leads (Builds h) (TypeTable.merged h a b) :=
    fun a b _ _ _ hret hT => .merged hT a b hret
  unfold SlotType.merge
  repeat' split
  all_goals first
    | exact .pure _
    | exact hany _
    | exact (hmerged _ _).bind fun i => .pure _

end TypeTable

/-! ## 6. Merging a list of types into a slot -/

namespace Slots

variable {h : Hierarchy} {T T' : TypeTable} {slots : Array SlotType} {index : Nat}
  {c m x : SlotType}

/-- Merges types into one slot, one after another. -/
def mergeEach (h : Hierarchy) (slots : Array SlotType) (index : Nat) :
    List SlotType → TypeM (Array SlotType)
  | [] => return slots
  | x :: types => do
    let (_, slots) ← mergeFrom h slots false index [x]
    mergeEach h slots index types

/-- Merging one type changes one slot, and says so exactly if the type of the slot has changed. -/
theorem mergeFrom_one (hslot : slots[index]? = some c)
    (hret : Returns (SlotType.merge h c x) T m T') :
    Returns (mergeFrom h slots false index [x]) T
      (decide (m ≠ c), slots.setIfInBounds index m) T' := by
  rw [mergeFrom, hslot]
  refine returns_bind.2 ⟨m, T', hret, ?_⟩
  split
  · rename_i hm
    subst hm
    rw [mergeFrom, setIfInBounds_same hslot]
    exact returns_pure.2 ⟨by simp, rfl⟩
  · rename_i hm
    rw [mergeFrom]
    exact returns_pure.2 ⟨by simp [hm], rfl⟩

theorem getElem?_setIfInBounds_self (hslot : slots[index]? = some c) :
    (slots.setIfInBounds index m)[index]? = some m := by
  rw [Array.getElem?_setIfInBounds_self_of_lt (Array.getElem?_eq_some_iff.1 hslot).1]

/-- **The reported change is the change of the slots.** -/
theorem changed_iff {changed : Bool} {slots' : Array SlotType}
    (hret : Returns (mergeFrom h slots false index [x]) T (changed, slots') T') :
    changed = true ↔ slots' ≠ slots := by
  cases hslot : slots[index]? with
  | none =>
    rw [mergeFrom, hslot] at hret
    obtain ⟨heq, -⟩ := returns_pure.1 hret
    cases heq
    simp
  | some c =>
    obtain ⟨m, T₁, hm, -⟩ : ∃ m T₁, Returns (SlotType.merge h c x) T m T₁ ∧ _ := by
      rw [mergeFrom, hslot] at hret
      exact returns_bind.1 hret
    cases (mergeFrom_one hslot hm).symm.trans hret
    rw [decide_eq_true_iff]
    constructor
    · intro hne heq
      have hget := congrArg (fun s : Array SlotType => s[index]?) heq
      simp only [getElem?_setIfInBounds_self hslot, hslot] at hget
      exact hne (Option.some.inj hget)
    · rintro hne rfl
      exact hne (setIfInBounds_same hslot)

variable {a : AbsoluteType} {types : List SlotType}

/-- **The least type above all of a list is left in the slot.**  By induction over the list: the slot
has the least type above all that were merged before. -/
theorem mergeEach_sup (hr : h.Rooted) :
    ∀ {types : List SlotType} {T : TypeTable} {slots : Array SlotType} {c : SlotType}
      {P : AbsoluteType → Prop} {a : AbsoluteType}, T.Built h → slots[index]? = some c →
      c.Valid T ∨ c = .unset → c.meaning? T = some a → AbsoluteType.IsSup h P a →
      (∀ x ∈ types, x.Valid T) →
      ∃ m T' z, Returns (mergeEach h slots index types) T (slots.setIfInBounds index m) T' ∧
        T'.Built h ∧ T ≤ T' ∧ (m.Valid T' ∨ m = .unset) ∧ m.meaning? T' = some z ∧
        AbsoluteType.IsSup h (fun b => P b ∨ ∃ x ∈ types, x.meaning? T = some b) z := by
  intro types
  induction types with
  | nil =>
    intro T slots c P a hT hslot hc ha hsup _
    refine ⟨c, T, a, returns_pure.2 ⟨(setIfInBounds_same hslot).symm, rfl⟩, hT, TypeTable.le_refl T, hc,
      ha, ?_⟩
    simpa using hsup
  | cons x types ih =>
    intro T slots c P a hT hslot hc ha hsup hvalid
    have hx := hvalid x (by simp)
    obtain ⟨b, hb⟩ := hx.exists_means
    obtain ⟨m, T₁, hret, hm⟩ := SlotType.merge_returns hr hT.sound hc hx
    obtain ⟨z, hz, hjoin⟩ := SlotType.merge_joins hr hT.sound hc hx ha hb.meaning hret
    obtain ⟨m', T', z', hret', hT', hle, hm', hz', hsup'⟩ :=
      ih (TypeTable.leads_builds_merge c x _ _ _ hret hT) (getElem?_setIfInBounds_self hslot)
        (.inl hm.valid) hz (hsup.joins hr hjoin)
        fun y hy => (hvalid y (by simp [hy])).later hm.grown
    refine ⟨m', T', z', ?_, hT', TypeTable.le_trans hm.grown hle, hm', hz', ?_⟩
    · rw [mergeEach]
      refine returns_bind.2 ⟨_, T₁, mergeFrom_one hslot hret, ?_⟩
      simpa using hret'
    · -- the types to come mean what they did before
      refine hsup'.congr fun d => ?_
      have hrest : (∃ y ∈ types, y.meaning? T₁ = some d) ↔ ∃ y ∈ types, y.meaning? T = some d := by
        refine exists_congr fun y => and_congr_right fun hy => ?_
        have hyv : y.Valid T := hvalid y (List.mem_cons_of_mem _ hy)
        rw [SlotType.meaning_later (.inl hyv) hm.grown]
      rw [hrest]
      simp [hb.meaning, or_assoc, eq_comm]

/-- A type that is covered already does not change the slot. -/
theorem mergeFrom_le (hr : h.Rooted) (hT : T.Sound h) (hslot : slots[index]? = some c)
    (hc : c.Valid T ∨ c = .unset) (hx : x.Valid T) {b : AbsoluteType} (ha : c.meaning? T = some a)
    (hb : x.meaning? T = some b) (hle : AbsoluteType.Le h b a) :
    ∃ T', Returns (mergeFrom h slots false index [x]) T (false, slots) T' := by
  obtain ⟨m, T', hret, hm⟩ := SlotType.merge_returns hr hT hc hx
  obtain ⟨z, hz, hjoin⟩ := SlotType.merge_joins hr hT hc hx ha hb hret
  obtain rfl : z = a := hjoin.eq_left hr hle
  have hc' : c.Valid T' ∨ c = .unset := hc.imp_left (·.later hm.grown)
  rw [← SlotType.meaning_later hc hm.grown] at ha
  obtain rfl : m = c := SlotType.meaning_inj hm.sound (.inl hm.valid) hc' hz ha
  have hone := mergeFrom_one hslot hret
  rw [setIfInBounds_same hslot] at hone
  exact ⟨T', by simpa using hone⟩

/-- **Merging types into a slot is joining them.**  Two lists of types that stand for the same set leave
types with one meaning in slots that were unset, which is the least one above that set: neither order
nor repetition matters, nor what the tables remember.  On one table it is the same type.  Merging any of
the types again, then or later, changes nothing, and a change is reported exactly if there is one.  The
hierarchy that knows nothing is one of those that this is about (`Hierarchy.rooted_empty`). -/
theorem merges_depend_on_set (hr : h.Rooted) {T₁ T₂ : TypeTable} (hT₁ : T₁.Built h)
    (hT₂ : T₂.Built h) {slots₁ slots₂ : Array SlotType} {index₁ index₂ : Nat}
    (hslot₁ : slots₁[index₁]? = some .unset) (hslot₂ : slots₂[index₂]? = some .unset)
    {types₁ types₂ : List SlotType} (hvalid₁ : ∀ x ∈ types₁, x.Valid T₁)
    (hvalid₂ : ∀ x ∈ types₂, x.Valid T₂)
    (hsame : ∀ a, (∃ x ∈ types₁, x.meaning? T₁ = some a) ↔ ∃ x ∈ types₂, x.meaning? T₂ = some a) :
    (∃ m₁ m₂ T₁' T₂' a,
      Returns (mergeEach h slots₁ index₁ types₁) T₁ (slots₁.setIfInBounds index₁ m₁) T₁' ∧
      Returns (mergeEach h slots₂ index₂ types₂) T₂ (slots₂.setIfInBounds index₂ m₂) T₂' ∧
      T₁'.Built h ∧ T₂'.Built h ∧ m₁.meaning? T₁' = some a ∧ m₂.meaning? T₂' = some a ∧
      AbsoluteType.IsSup h (fun b => ∃ x ∈ types₁, x.meaning? T₁ = some b) a ∧
      (T₁' ≤ T₂ → m₁ = m₂) ∧
      ∀ x ∈ types₁, ∀ T, T.Built h → T₁' ≤ T →
        ∃ T', Returns (mergeFrom h (slots₁.setIfInBounds index₁ m₁) false index₁ [x]) T
          (false, slots₁.setIfInBounds index₁ m₁) T') ∧
    ∀ (T T' : TypeTable) (slots slots' : Array SlotType) (index : Nat) (x : SlotType)
      (changed : Bool), Returns (mergeFrom h slots false index [x]) T (changed, slots') T' →
        (changed = true ↔ slots' ≠ slots) := by
  refine ⟨?_, fun _ _ _ _ _ _ _ => changed_iff⟩
  obtain ⟨m₁, T₁', a₁, hret₁, hT₁', hle₁, hm₁, ha₁, hsup₁⟩ :=
    mergeEach_sup hr hT₁ hslot₁ (.inr rfl) rfl AbsoluteType.isSup_none hvalid₁
  obtain ⟨m₂, T₂', a₂, hret₂, hT₂', hle₂, hm₂, ha₂, hsup₂⟩ :=
    mergeEach_sup hr hT₂ hslot₂ (.inr rfl) rfl AbsoluteType.isSup_none hvalid₂
  have hsup : AbsoluteType.IsSup h (fun b => ∃ x ∈ types₁, x.meaning? T₁ = some b) a₁ :=
    hsup₁.congr (by simp)
  obtain rfl : a₁ = a₂ := hsup.unique hr (hsup₂.congr fun b => by simp [hsame])
  refine ⟨m₁, m₂, T₁', T₂', a₁, hret₁, hret₂, hT₁', hT₂', ha₁, ha₂, hsup, ?_, ?_⟩
  · intro hle
    have hgrown : T₁' ≤ T₂' := TypeTable.le_trans hle hle₂
    rw [← SlotType.meaning_later hm₁ hgrown] at ha₁
    exact SlotType.meaning_inj hT₂'.sound (hm₁.imp_left (·.later hgrown)) hm₂ ha₁ ha₂
  · intro x hx T hT hle
    have hxv : x.Valid T₁ := hvalid₁ x hx
    have hgrown : T₁ ≤ T := TypeTable.le_trans hle₁ hle
    obtain ⟨b, hb⟩ := hxv.exists_means
    refine mergeFrom_le hr hT.sound (getElem?_setIfInBounds_self hslot₁)
      (hm₁.imp_left (·.later hle)) (hxv.later hgrown) ?_ (hb.later hgrown).meaning
      (hsup.1 b ⟨x, hx, hb.meaning⟩)
    rw [SlotType.meaning_later hm₁ hle, ha₁]

/-- Two classes with one super class. -/
def siblings : Hierarchy := .ofList [("A", "C"), ("B", "C")]

theorem rooted_siblings : siblings.Rooted := by
  refine ⟨.ofList [("A", "C"), ("B", "C")], ⟨?_, by decide⟩, rfl⟩
  rw [SuperclassMap.Acyclic, SuperclassMap.extends_ofList]
  exact SuperclassMap.acyclic_of_rank (["A", "B", "C"].idxOf ·) (by decide)

/-- A table that has two classes. -/
theorem exists_built_two (h : Hierarchy) (x y : String) :
    ∃ (T : TypeTable) (i j : TypeIndex), T.Built h ∧ T.entries[i]? = some (.initialized x) ∧
      T.entries[j]? = some (.initialized y) := by
  obtain ⟨i, T, hret, hs, -, hi⟩ := (TypeTable.sound_empty h).intern (.initialized x)
  obtain ⟨j, T', hret', -, hle, hj⟩ := hs.intern (.initialized y)
  exact ⟨T', i, j, .intern (.intern .empty _ hret) _ hret', hle _ _ hi, hj⟩

/-- The second table remembers what merging the classes gives, and has them in the other order. -/
theorem merges_depend_on_set_siblings :
    ∃ T₁ T₂ a₁ b₁ a₂ b₂ m₁ m₂ T₁' T₂',
      Returns (mergeEach siblings #[.unset] 0 [⟨0, .object a₁⟩, ⟨0, .object b₁⟩]) T₁ #[m₁] T₁' ∧
      Returns (mergeEach siblings #[.unset, .top] 0
        [⟨0, .object b₂⟩, ⟨0, .object a₂⟩, ⟨0, .object a₂⟩]) T₂ #[m₂, .top] T₂' ∧
      m₁.meaning? T₁' = some (.object 0 "C") ∧ m₂.meaning? T₂' = some (.object 0 "C") := by
  obtain ⟨T₁, a₁, b₁, hT₁, ha₁, hb₁⟩ := exists_built_two siblings "A" "B"
  obtain ⟨T, b₂, a₂, hT, hb, ha⟩ := exists_built_two siblings "B" "A"
  obtain ⟨i, T₂, hmerged, -, hle, -⟩ := hT.sound.merged rooted_siblings ha hb
  have hT₂ : T₂.Built siblings := .merged hT _ _ hmerged
  have ha₂ := hle _ _ ha
  have hb₂ := hle _ _ hb
  have hvalid : ∀ {T : TypeTable} {i : TypeIndex} {name : String},
      T.entries[i]? = some (.initialized name) → SlotType.Valid T ⟨0, .object i⟩ := by
    intro T i name hi
    exact ⟨Int.le_refl 0, by simp, name, hi⟩
  have hmeaning : ∀ {T : TypeTable} {i : TypeIndex} {name : String},
      T.entries[i]? = some (.initialized name) →
        SlotType.meaning? T ⟨0, .object i⟩ = some (.object 0 name) :=
    fun hi => (SlotType.Means.object 0 hi).meaning
  have hslot₁ : (#[.unset] : Array SlotType)[0]? = some .unset := rfl
  have hslot₂ : (#[.unset, .top] : Array SlotType)[0]? = some .unset := rfl
  have hvalid₁ : ∀ x ∈ ([⟨0, .object a₁⟩, ⟨0, .object b₁⟩] : List SlotType), x.Valid T₁ := by
    simpa using ⟨hvalid ha₁, hvalid hb₁⟩
  have hvalid₂ : ∀ x ∈ ([⟨0, .object b₂⟩, ⟨0, .object a₂⟩, ⟨0, .object a₂⟩] : List SlotType),
      x.Valid T₂ := by
    simpa using ⟨hvalid hb₂, hvalid ha₂⟩
  obtain ⟨⟨m₁, m₂, T₁', T₂', z, hret₁, hret₂, -, -, hm₁, hm₂, hsup, -⟩, -⟩ :=
    merges_depend_on_set rooted_siblings hT₁ hT₂ hslot₁ hslot₂ hvalid₁ hvalid₂
      (by simp [hmeaning ha₁, hmeaning hb₁, hmeaning ha₂, hmeaning hb₂, or_comm])
  have hC : siblings.join "B" "A" = "C" := by decide
  have hjoin := AbsoluteType.joins_objects rooted_siblings 0 "B" "A"
  have hboth := (AbsoluteType.isSup_none.joins rooted_siblings
    (AbsoluteType.joins_right (.unset (.object 0 "A")))).joins rooted_siblings hjoin
  rw [hC] at hboth
  obtain rfl : z = .object 0 "C" := by
    refine (hsup.congr fun a => ?_).unique rooted_siblings hboth
    simp [hmeaning ha₁, hmeaning hb₁, eq_comm]
  exact ⟨T₁, T₂, a₁, b₁, a₂, b₂, m₁, m₂, T₁', T₂', hret₁, hret₂, hm₁, hm₂⟩

end Slots

end ClassFile
