/-
# What following an edge does

What leaves a block is a tame operation on the table of types (`tame_outflow`): as long as the
entry of the block stays, it can be asked for again with the same answer.  Merging it into an entry
gives slots that absorb it (`mergeInto_returns`), and slots that absorb it do not change any more
(`mergeInto_absorbed`).  What was absorbed before still is, because slots only go up
(`Absorbs.up`), and each change takes away from the sum of the ranks of all slots.
-/
import ClassFile.Proofs.Frame.Effect
import Mathlib.Algebra.Order.Ring.Nat

namespace ClassFile

variable {h : Hierarchy} {T T' : TypeTable}

/-! ## 1. Slots -/

namespace Slots

/-- A type that can be covered by another one, in the same place of two lists. -/
def Covered (h : Hierarchy) (T : TypeTable) (low : List SlotType) (high : Array SlotType)
    (index : Nat) : Prop :=
  ∀ (k : Nat) (x y : SlotType), low[k]? = some x → high[index + k]? = some y → x.Below h T y

/-- Each slot has a valid type, or none yet. -/
def Filling (T : TypeTable) (slots : Array SlotType) : Prop :=
  ∀ x ∈ slots, x.Valid T ∨ x = .unset

/-- The changes that are left to slots, at most. -/
noncomputable def rank (h : Hierarchy) (T : TypeTable) (slots : Array SlotType) : Nat :=
  (slots.toList.map (SlotType.rank h T)).sum

theorem Filling.later {slots : Array SlotType} (hs : Filling T slots) (hle : T ≤ T') :
    Filling T' slots := fun x hx => (hs x hx).imp_left (·.later hle)

theorem Filling.rank_later {slots : Array SlotType} (hs : Filling T slots) (hle : T ≤ T') :
    rank h T' slots = rank h T slots := by
  unfold rank
  congr 1
  refine List.map_congr_left fun x hx => ?_
  rcases hs x (Array.mem_toList_iff.1 hx) with hv | rfl
  · exact hv.rank_later hle
  · rfl

theorem Filling.set {slots : Array SlotType} (hs : Filling T slots) (i : Nat) {m : SlotType}
    (hm : m.Valid T) : Filling T (slots.setIfInBounds i m) := by
  intro x hx
  rcases Array.mem_or_eq_of_mem_setIfInBounds hx with hx | rfl
  · exact hs x hx
  · exact .inl hm

theorem setIfInBounds_same {slots : Array SlotType} {i : Nat} {c : SlotType}
    (hc : slots[i]? = some c) : slots.setIfInBounds i c = slots := by
  obtain ⟨hlt, rfl⟩ := Array.getElem?_eq_some_iff.1 hc
  rw [Array.setIfInBounds, dif_pos hlt, Array.set_getElem_self]

/-- A slot that goes down in rank takes the sum with it. -/
theorem rank_set_lt {slots : Array SlotType} {i : Nat} {c m : SlotType} (hc : slots[i]? = some c)
    (hm : m.rank h T < c.rank h T) : rank h T (slots.setIfInBounds i m) < rank h T slots := by
  obtain ⟨slots⟩ := slots
  simp only [rank, List.setIfInBounds_toArray, List.getElem?_toArray] at hc ⊢
  induction slots generalizing i with
  | nil => simp at hc
  | cons x slots ih =>
    cases i with
    | zero =>
      simp only [List.getElem?_cons_zero, Option.some.injEq] at hc
      subst hc
      simpa using hm
    | succ i =>
      have := ih (by simpa using hc)
      simpa using this

theorem rank_le {L : Nat} {slots : Array SlotType} (hs : ∀ x ∈ slots, x.rank h T ≤ L) :
    rank h T slots ≤ slots.size * L := by
  obtain ⟨slots⟩ := slots
  simp only [rank, List.mem_toArray, List.size_toArray] at hs ⊢
  induction slots with
  | nil => simp
  | cons x slots ih =>
    have hx := hs x (by simp)
    have := ih fun y hy => hs y (by simp [hy])
    rw [List.map_cons, List.sum_cons, List.length_cons, Nat.succ_mul]
    omega

/-- What there is to know about slots after types were merged into them. -/
structure Risen (h : Hierarchy) (T T' : TypeTable) (slots slots' : Array SlotType) : Prop where
  sound : T'.Sound h
  grown : T ≤ T'
  size_eq : slots'.size = slots.size
  filling : Filling T' slots'
  goes_up : ∀ (i : Nat) (x y : SlotType), slots[i]? = some x → slots'[i]? = some y →
    x ≠ .unset → x.Below h T' y
  rank_lt : slots' ≠ slots → rank h T' slots' < rank h T slots

/-- The slots from `index` on cover what was merged into them. -/
structure Merged (h : Hierarchy) (T T' : TypeTable) (slots : Array SlotType) (index : Nat)
    (incoming : List SlotType) (slots' : Array SlotType) : Prop extends
    Risen h T T' slots slots' where
  valid : ∀ (k : Nat) (y : SlotType), k < incoming.length → slots'[index + k]? = some y → y.Valid T'
  covers : Covered h T' incoming slots' index

/-- The slots have stayed, whatever became of the table. -/
theorem Risen.same {slots : Array SlotType} (hs : Filling T slots) (hT' : T'.Sound h)
    (hle : T ≤ T') : Risen h T T' slots slots where
  sound := hT'
  grown := hle
  size_eq := rfl
  filling := hs.later hle
  goes_up _ _ _ hx hy _ := by
    cases Option.some.inj (hx.symm.trans hy)
    exact .refl _
  rank_lt hne := absurd rfl hne

theorem Risen.trans (hr : h.Rooted) {T₁ : TypeTable} {slots slots₁ slots' : Array SlotType}
    (hs : Filling T slots) (h₁ : Risen h T T₁ slots slots₁) (h₂ : Risen h T₁ T' slots₁ slots') :
    Risen h T T' slots slots' where
  sound := h₂.sound
  grown := TypeTable.le_trans h₁.grown h₂.grown
  size_eq := h₂.size_eq.trans h₁.size_eq
  filling := h₂.filling
  goes_up i x y hx hy hne := by
    obtain ⟨z, hz⟩ : ∃ z, slots₁[i]? = some z := by
      have := (Array.getElem?_eq_some_iff.1 hx).1
      exact ⟨_, Array.getElem?_eq_getElem (h₁.size_eq ▸ this)⟩
    have hxz := h₁.goes_up i x z hx hz hne
    have hzu : z ≠ .unset := fun he => hne (SlotType.below_unset (he ▸ hxz))
    exact (hxz.later h₂.grown).trans hr (h₂.goes_up i z y hz hy hzu)
  rank_lt hne := by
    by_cases hne₁ : slots₁ = slots
    · subst hne₁
      rw [← hs.rank_later h₁.grown]
      exact h₂.rank_lt hne
    · have hlt := h₁.rank_lt hne₁
      by_cases hne₂ : slots' = slots₁
      · rwa [hne₂, h₁.filling.rank_later h₂.grown]
      · exact Nat.lt_trans (h₂.rank_lt hne₂) hlt

theorem Risen.rank_le {slots slots' : Array SlotType} (hup : Risen h T T' slots slots')
    (hs : Filling T slots) : rank h T' slots' ≤ rank h T slots := by
  by_cases hne : slots' = slots
  · exact Nat.le_of_eq (by rw [hne, hs.rank_later hup.grown])
  · exact Nat.le_of_lt (hup.rank_lt hne)

/-- What is covered before the slots rise is covered afterwards. -/
theorem Risen.covered (hr : h.Rooted) {slots slots' : Array SlotType} {l : List SlotType}
    {index : Nat} (hup : Risen h T T' slots slots') (hl : ∀ x ∈ l, x.Valid T)
    (hcov : Covered h T l slots index) : Covered h T' l slots' index := by
  intro k x y hx hy
  obtain ⟨z, hz⟩ : ∃ z, slots[index + k]? = some z := by
    have := (Array.getElem?_eq_some_iff.1 hy).1
    exact ⟨_, Array.getElem?_eq_getElem (hup.size_eq ▸ this)⟩
  have hxz := hcov k x z hx hz
  have hzu : z ≠ .unset := by
    rintro rfl
    exact (hl x (List.mem_of_getElem? hx)).ne_unset (SlotType.below_unset hxz)
  exact (hxz.later hup.grown).trans hr (hup.goes_up _ z y hz hy hzu)

theorem Risen.valid {slots slots' : Array SlotType} (hup : Risen h T T' slots slots')
    (hs : ∀ x ∈ slots, x.Valid T) : ∀ y ∈ slots', y.Valid T' := by
  intro y hy
  obtain ⟨i, hi⟩ := Array.getElem?_of_mem hy
  obtain ⟨z, hz⟩ : ∃ z, slots[i]? = some z := by
    have := (Array.getElem?_eq_some_iff.1 hi).1
    exact ⟨_, Array.getElem?_eq_getElem (hup.size_eq ▸ this)⟩
  have hzu : z ≠ .unset := (hs z (Array.mem_of_getElem? hz)).ne_unset
  rcases hup.filling y hy with hv | rfl
  · exact hv
  · exact absurd (SlotType.below_unset (hup.goes_up i z _ hz hi hzu)) hzu

theorem Merged.nothing (hT : T.Sound h) {slots : Array SlotType} (hs : Filling T slots)
    {index : Nat} {incoming : List SlotType}
    (hout : ∀ k y, k < incoming.length → slots[index + k]? ≠ some y) :
    Merged h T T slots index incoming slots where
  toRisen := .same hs hT (TypeTable.le_refl T)
  valid k y hk hy := absurd hy (hout k y hk)
  covers k _ y hx hy := absurd hy (hout k y (List.getElem?_eq_some_iff.1 hx).1)

/-- Once the first type has changed its slot, the ranks are below those at the beginning. -/
theorem Merged.rank_lt_of_ne {T₁ : TypeTable} {slots slots' : Array SlotType} {index : Nat}
    {c x m : SlotType} {rest : List SlotType} (hs : Filling T slots)
    (hc : slots[index]? = some c) (hm : SlotType.Merged h T T₁ c x m)
    (hrest : Merged h T₁ T' (slots.setIfInBounds index m) (index + 1) rest slots') (hmc : m ≠ c) :
    rank h T' slots' < rank h T slots := by
  have hfill := (hs.later hm.grown).set index hm.valid
  have hranks : c.rank h T₁ = c.rank h T := by
    rcases hs c (Array.mem_of_getElem? hc) with hv | rfl
    · exact hv.rank_later hm.grown
    · rfl
  have hfirst : rank h T₁ (slots.setIfInBounds index m) < rank h T₁ slots :=
    rank_set_lt hc (hranks ▸ hm.rank_lt hmc)
  rw [hs.rank_later hm.grown, ← hfill.rank_later hrest.grown] at hfirst
  by_cases hsame : slots' = slots.setIfInBounds index m
  · rwa [hsame]
  · have := hrest.rank_lt hsame
    rw [← hfill.rank_later hrest.grown] at this
    omega

/-- The first type is merged, and then the others. -/
theorem Merged.cons (hr : h.Rooted) {T₁ : TypeTable} {slots slots' : Array SlotType} {index : Nat}
    {c x m : SlotType} {rest : List SlotType} (hs : Filling T slots)
    (hc : slots[index]? = some c) (hm : SlotType.Merged h T T₁ c x m)
    (hrest : Merged h T₁ T' (slots.setIfInBounds index m) (index + 1) rest slots') :
    Merged h T T' slots index (x :: rest) slots' := by
  have hset : (slots.setIfInBounds index m)[index]? = some m :=
    Array.getElem?_setIfInBounds_self_of_lt (Array.getElem?_eq_some_iff.1 hc).1
  have hmu : m ≠ .unset := hm.valid.ne_unset
  -- what became of the slot that was merged first
  have hfirst : ∀ y, slots'[index]? = some y → m.Below h T' y := fun y hy =>
    hrest.goes_up index m y hset hy hmu
  have hshift : ∀ k, index + (k + 1) = index + 1 + k := fun k => by omega
  refine ⟨⟨hrest.sound, TypeTable.le_trans hm.grown hrest.grown,
    by rw [hrest.size_eq, Array.size_setIfInBounds], hrest.filling, ?_, ?_⟩, ?_, ?_⟩
  · intro i z y hz hy hne
    by_cases hi : i = index
    · subst hi
      cases Option.some.inj (hc.symm.trans hz)
      exact ((hm.goes_up hne).later hrest.grown).trans hr (hfirst y hy)
    · refine hrest.goes_up i z y ?_ hy hne
      rwa [Array.getElem?_setIfInBounds_ne (Ne.symm hi)]
  · intro hne
    by_cases hmc : m = c
    · have hsame : slots.setIfInBounds index m = slots := hmc ▸ setIfInBounds_same hc
      have := hrest.rank_lt (hsame.symm ▸ hne)
      rwa [hsame, hs.rank_later hm.grown] at this
    · exact hrest.rank_lt_of_ne hs hc hm hmc
  · rintro (_ | k) y hk hy
    · rcases hrest.filling y (Array.mem_of_getElem? hy) with hv | rfl
      · exact hv
      · exact absurd (SlotType.below_unset (hfirst _ hy)) hmu
    · exact hrest.valid k y (Nat.lt_of_succ_lt_succ hk) (hshift k ▸ hy)
  · rintro (_ | k) z y hz hy
    · cases Option.some.inj hz
      exact (hm.covers.later hrest.grown).trans hr (hfirst y hy)
    · exact hrest.covers k z y hz (hshift k ▸ hy)

/-- **Merging types into slots** always gives an answer. -/
theorem mergeFrom_returns (hr : h.Rooted) {incoming : List SlotType} :
    ∀ {T : TypeTable} {slots : Array SlotType} (changed : Bool) (index : Nat), T.Sound h →
      Filling T slots → (∀ x ∈ incoming, x.Valid T) →
      ∃ slots' T', Returns (mergeFrom h slots changed index incoming) T
        (changed || decide (slots' ≠ slots), slots') T' ∧
        Merged h T T' slots index incoming slots' := by
  induction incoming with
  | nil =>
    intro T slots changed index hT hs _
    refine ⟨slots, T, ?_, .nothing hT hs fun k y hk => by simp at hk⟩
    rw [mergeFrom, returns_pure]
    simp
  | cons x rest ih =>
    intro T slots changed index hT hs hin
    cases hc : slots[index]? with
    | none =>
      refine ⟨slots, T, ?_, .nothing hT hs fun k y _ hy => ?_⟩
      · rw [mergeFrom, hc, returns_pure]
        simp
      · have := (Array.getElem?_eq_some_iff.1 hy).1
        rw [Array.getElem?_eq_none_iff] at hc
        omega
    | some c =>
      obtain ⟨m, T₁, hret, hm⟩ :=
        SlotType.merge_returns hr hT (hs c (Array.mem_of_getElem? hc)) (hin x (by simp))
      obtain ⟨slots', T', hret', hrest⟩ := ih (changed || decide (m ≠ c)) (index + 1) hm.sound
        ((hs.later hm.grown).set index hm.valid)
        fun y hy => (hin y (by simp [hy])).later hm.grown
      refine ⟨slots', T', ?_, .cons hr hs hc hm hrest⟩
      rw [mergeFrom, hc]
      refine returns_bind.2 ⟨m, T₁, hret, ?_⟩
      split
      · rename_i hmc
        subst hmc
        rw [setIfInBounds_same hc] at hret'
        simpa using hret'
      · rename_i hmc
        have hne : slots' ≠ slots := by
          rintro rfl
          have := hrest.rank_lt_of_ne hs hc hm hmc
          rw [hs.rank_later (TypeTable.le_trans hm.grown hrest.grown)] at this
          omega
        simpa [hmc, hne] using hret'

/-- Slots of which none is said to have changed are the same, whatever the types are. -/
theorem mergeFrom_unchanged {incoming : List SlotType} :
    ∀ {T T' : TypeTable} {slots slots' : Array SlotType} {changed : Bool} {index : Nat},
      Returns (mergeFrom h slots changed index incoming) T (false, slots') T' →
      changed = false ∧ slots' = slots := by
  induction incoming with
  | nil =>
    intro T T' slots slots' changed index hret
    obtain ⟨heq, -⟩ := returns_pure.1 hret
    exact ⟨congrArg Prod.fst heq, (congrArg Prod.snd heq).symm⟩
  | cons x rest ih =>
    intro T T' slots slots' changed index hret
    rw [mergeFrom] at hret
    split at hret
    · obtain ⟨heq, -⟩ := returns_pure.1 hret
      exact ⟨congrArg Prod.fst heq, (congrArg Prod.snd heq).symm⟩
    · obtain ⟨m, T₁, -, hrest⟩ := returns_bind.1 hret
      split at hrest
      · exact ih hrest
      · exact nomatch (ih hrest).1

/-- Merging leaves as many slots as there are. -/
theorem size_mergeFrom {incoming : List SlotType} :
    ∀ {T T' : TypeTable} {slots slots' : Array SlotType} {changed changed' : Bool} {index : Nat},
      Returns (mergeFrom h slots changed index incoming) T (changed', slots') T' →
      slots'.size = slots.size := by
  induction incoming with
  | nil =>
    intro T T' slots slots' changed changed' index hret
    obtain ⟨heq, -⟩ := returns_pure.1 hret
    exact congrArg (fun p => p.2.size) heq.symm
  | cons x rest ih =>
    intro T T' slots slots' changed changed' index hret
    rw [mergeFrom] at hret
    split at hret
    · obtain ⟨heq, -⟩ := returns_pure.1 hret
      exact congrArg (fun p => p.2.size) heq.symm
    · obtain ⟨m, T₁, -, hrest⟩ := returns_bind.1 hret
      split at hrest
      · exact ih hrest
      · exact (ih hrest).trans Array.size_setIfInBounds

theorem mergeAll_unchanged {lists : List (List SlotType)} :
    ∀ {T T' : TypeTable} {slots slots' : Array SlotType} {changed : Bool},
      Returns (lists.foldlM (fun (s : Bool × Array SlotType) l => mergeFrom h s.2 s.1 0 l)
        (changed, slots)) T (false, slots') T' → changed = false ∧ slots' = slots := by
  induction lists with
  | nil =>
    intro T T' slots slots' changed hret
    obtain ⟨heq, -⟩ := returns_pure.1 hret
    exact ⟨congrArg Prod.fst heq, (congrArg Prod.snd heq).symm⟩
  | cons l lists ih =>
    intro T T' slots slots' changed hret
    rw [List.foldlM_cons] at hret
    obtain ⟨⟨changed₁, slots₁⟩, T₁, hfirst, hrest⟩ := returns_bind.1 hret
    obtain ⟨rfl, rfl⟩ := ih hrest
    exact mergeFrom_unchanged hfirst

/-- **What is covered already changes nothing.** -/
theorem mergeFrom_covered (hr : h.Rooted) {incoming : List SlotType} (hT : T.Sound h)
    {slots : Array SlotType} (hs : Filling T slots) (hin : ∀ x ∈ incoming, x.Valid T)
    (changed : Bool) (index : Nat) (hcov : Covered h T incoming slots index) :
    ∃ T', Returns (mergeFrom h slots changed index incoming) T (changed, slots) T' ∧
      T'.Sound h ∧ T ≤ T' := by
  induction incoming generalizing T index with
  | nil => exact ⟨T, by rw [mergeFrom, returns_pure]; exact ⟨rfl, rfl⟩, hT, TypeTable.le_refl T⟩
  | cons x rest ih =>
    cases hc : slots[index]? with
    | none =>
      refine ⟨T, ?_, hT, TypeTable.le_refl T⟩
      rw [mergeFrom, hc, returns_pure]
      exact ⟨rfl, rfl⟩
    | some c =>
      obtain ⟨m, T₁, hret, hm⟩ :=
        SlotType.merge_returns hr hT (hs c (Array.mem_of_getElem? hc)) (hin x (by simp))
      have hmc : m = c := hm.absorbs (hcov 0 x c rfl hc)
      obtain ⟨T', hret', hT', hle⟩ := ih hm.sound (hs.later hm.grown)
        (fun y hy => (hin y (by simp [hy])).later hm.grown) (index + 1) fun k z y hz hy =>
          (hcov (k + 1) z y hz (by rwa [show index + (k + 1) = index + 1 + k by omega])).later
            hm.grown
      refine ⟨T', ?_, hT', TypeTable.le_trans hm.grown hle⟩
      rw [mergeFrom, hc]
      refine returns_bind.2 ⟨m, T₁, hret, ?_⟩
      rwa [if_pos hmc]

/-- The lists of locals are merged one after the other. -/
theorem mergeAll_returns (hr : h.Rooted) {lists : List (List SlotType)} :
    ∀ {T : TypeTable} {slots : Array SlotType} (changed : Bool), T.Sound h → Filling T slots →
      (∀ l ∈ lists, ∀ x ∈ l, x.Valid T) →
      ∃ slots' T', Returns
        (lists.foldlM (fun (s : Bool × Array SlotType) l => mergeFrom h s.2 s.1 0 l)
          (changed, slots)) T (changed || decide (slots' ≠ slots), slots') T' ∧
        Risen h T T' slots slots' ∧
        ∀ l ∈ lists, Covered h T' l slots' 0 ∧
          ∀ (k : Nat) (y : SlotType), k < l.length → slots'[k]? = some y → y.Valid T' := by
  induction lists with
  | nil =>
    intro T slots changed hT hs _
    exact ⟨slots, T, returns_pure.2 ⟨by simp, rfl⟩, .same hs hT (TypeTable.le_refl T), by simp⟩
  | cons l lists ih =>
    intro T slots changed hT hs hv
    obtain ⟨slots₁, T₁, hret, hm⟩ := mergeFrom_returns hr changed 0 hT hs (hv l (by simp))
    obtain ⟨slots', T', hret', hup, hall⟩ := ih (changed || decide (slots₁ ≠ slots)) hm.sound
      hm.filling fun l' hl x hx => (hv l' (by simp [hl]) x hx).later hm.grown
    have hup' := hm.toRisen.trans hr hs hup
    refine ⟨slots', T', ?_, hup', ?_⟩
    · rw [List.foldlM_cons]
      refine returns_bind.2 ⟨_, T₁, hret, ?_⟩
      have hflag : (changed || decide (slots₁ ≠ slots) || decide (slots' ≠ slots₁)) =
          (changed || decide (slots' ≠ slots)) := by
        by_cases h₁ : slots₁ = slots
        · simp [h₁]
        · have hne : slots' ≠ slots := by
            rintro rfl
            have hlt := hm.rank_lt h₁
            have hle := hup.rank_le hm.filling
            rw [hs.rank_later hup'.grown] at hle
            omega
          simp [h₁, hne]
      rwa [hflag] at hret'
    · intro l' hl'
      rcases List.mem_cons.1 hl' with rfl | hl'
      · refine ⟨hup.covered hr (fun x hx => (hv _ (by simp) x hx).later hm.grown) hm.covers, ?_⟩
        intro k y hk hy
        rcases hup.filling y (Array.mem_of_getElem? hy) with hyv | rfl
        · exact hyv
        · obtain ⟨z, hz⟩ : ∃ z, slots₁[k]? = some z := by
            have := (Array.getElem?_eq_some_iff.1 hy).1
            exact ⟨_, Array.getElem?_eq_getElem (hup.size_eq ▸ this)⟩
          have hzu : z ≠ .unset := (hm.valid k z hk (by rwa [Nat.zero_add])).ne_unset
          exact absurd (SlotType.below_unset (hup.goes_up k z _ hz hy hzu)) hzu
      · exact hall l' hl'

end Slots

/-! ## 2. What leaves a block -/

/-- Locals and stack of valid types, for a method with so many locals. -/
structure Outflow.Fits (T : TypeTable) (locals height : Nat) (out : Outflow) : Prop where
  some_locals : out.locals ≠ []
  length_locals : ∀ l ∈ out.locals, l.length = locals
  valid_locals : ∀ l ∈ out.locals, ∀ x ∈ l, x.Valid T
  valid_stack : ∀ x ∈ out.stack, x.Valid T
  height_le : out.stack.length ≤ height

theorem Outflow.Fits.later {locals height : Nat} {out : Outflow}
    (hout : out.Fits T locals height) (hle : T ≤ T') : out.Fits T' locals height :=
  ⟨hout.some_locals, hout.length_locals, fun l hl x hx => (hout.valid_locals l hl x hx).later hle,
    fun x hx => (hout.valid_stack x hx).later hle, hout.height_le⟩

namespace Frame

variable {f : Frame}

/-- Everything about a frame whose block has been reached: what is on entry is valid, what the block
does to it meaningful. -/
structure Entered (T : TypeTable) (f : Frame) : Prop where
  lawful : f.Lawful T f.entry
  valid : f.entrySlots.AllValid T

theorem Entered.later (hf : f.Entered T) (hle : T ≤ T') : f.Entered T' :=
  ⟨hf.lawful.later hle, hf.valid.later hle⟩

theorem tame_afterConstruction (className : String) (constructed : List SlotType) (t : SlotType) :
    Tame h (fun T => t.Valid T) (afterConstruction className constructed t)
      (fun t T => t.Valid T) := by
  have hobject : ∀ name, Tame h (fun _ => True) (SlotType.object name) (fun t T => t.Valid T) :=
    fun name => (SlotType.tame_object name).mono (fun _ => id) fun t T ⟨i, ht, hi⟩ =>
      ht ▸ SlotType.valid_object hi
  unfold afterConstruction
  split
  · split
    · exact (hobject className).mono (fun _ _ => trivial) fun _ _ => id
    · exact ((TypeTable.tame_entry _).mono (fun _ _ => trivial) fun _ _ => id).bind fun e =>
        (hobject e.name).mono (fun _ _ => trivial) fun _ _ => id
    · exact Tame.pure _ fun _ ht => ht
  · exact Tame.pure _ fun _ ht => ht

theorem tame_atExit (className : String) (ts : List SlotType) :
    Tame h (fun T => f.Entered T ∧ ∀ t ∈ ts, t.Meaningful T) (f.atExit className ts)
      (fun us T => us.length = ts.length ∧ ∀ u ∈ us, u.Valid T) := by
  refine Tame.mapM (fun u => SlotType.lasting_valid u)
    (fun T T' hle hP => ⟨hP.1.later hle, fun t ht => (hP.2 t ht).later hle⟩) ts fun t ht => ?_
  exact (tame_afterConstruction _ _ _).mono (fun T hP => (hP.2 t ht).resolve hP.1.valid)
    fun _ _ => id

/-- The locals on exit, before they are resolved, are meaningful. -/
theorem Entered.meaningful_locals (hf : f.Entered T) :
    ∀ t ∈ f.entrySlots.locals.toList.mapIdx fun i t => f.locals[i]?.join.getD t,
      t.Meaningful T := by
  intro t ht
  obtain ⟨i, hi, rfl⟩ := List.mem_mapIdx.1 ht
  rcases hl : f.locals[i]? with _ | _ | u
  · exact .inl (hf.valid.locals _ (by simp))
  · exact .inl (hf.valid.locals _ (by simp))
  · exact hf.lawful.locals i u hl

theorem Entered.meaningful_stack (hf : f.Entered T) (kept : Nat) :
    ∀ t ∈ f.entrySlots.stack.toList.take kept ++ f.stack.toList, t.Meaningful T := by
  intro t ht
  rcases List.mem_append.1 ht with ht | ht
  · exact .inl (hf.valid.stack t (Array.mem_toList_iff.1 (List.mem_of_mem_take ht)))
  · exact hf.lawful.stack t (Array.mem_toList_iff.1 ht)

/-- The stack on exit has valid types, and is no higher than what the block puts on it. -/
theorem tame_exitStack (className : String) :
    Tame h (fun T => f.Entered T) (f.exitStack className) (fun us T =>
      us.length ≤ f.entrySlots.stack.size + f.stack.size ∧ ∀ u ∈ us, u.Valid T) := by
  unfold exitStack
  dsimp only
  split
  · refine Tame.bind ((tame_atExit className _).mono (fun T hf => ⟨hf, fun t ht => ?_⟩)
      fun _ _ _ => trivial) fun _ => .throw _
    exact .inl (hf.valid.stack t (Array.mem_toList_iff.1 ht))
  · refine (tame_atExit className _).mono (fun T hf => ⟨hf, hf.meaningful_stack _⟩) fun us T h => ?_
    refine ⟨?_, h.2⟩
    have hlength := h.1
    simp only [List.length_append, List.length_take, Array.length_toList] at hlength
    omega

/-- **What leaves a block** has valid types, as many locals as the block has on entry, and a stack
that is no higher than what the block puts on it. -/
theorem tame_outflow (className : String) (caught : Option SlotType) :
    Tame h (fun T => f.Entered T ∧ ∀ t, caught = some t → t.Valid T) (f.outflow className caught)
      (fun out T => out.Fits T f.entrySlots.locals.size
        (max 1 (f.entrySlots.stack.size + f.stack.size))) := by
  have hentered : Lasting fun T => f.Entered T ∧ ∀ t, caught = some t → t.Valid T :=
    fun T T' hle hP => ⟨hP.1.later hle, fun t ht => (hP.2 t ht).later hle⟩
  refine Tame.bind (((tame_atExit className _).frame hentered).mono
    (fun T hP => ⟨⟨hP.1, hP.1.meaningful_locals⟩, hP⟩) fun _ _ => id) fun locals => ?_
  split
  · rename_i t
    refine Tame.pure _ fun T hP => ⟨by simp, ?_, ?_, ?_, Nat.le_max_left 1 _⟩
    · simp [hP.1.1]
    · simp only [List.mem_cons, List.not_mem_nil, or_false]
      rintro l (rfl | rfl) x hx
      · exact hP.1.2 x hx
      · exact hP.2.1.valid.locals x (Array.mem_toList_iff.1 hx)
    · simp only [List.mem_singleton]
      rintro x rfl
      exact hP.2.2 x rfl
  · have hlocals : Lasting fun T =>
        locals.length = f.entrySlots.locals.size ∧ ∀ x ∈ locals, x.Valid T :=
      fun T T' hle hl => ⟨hl.1, fun x hx => (hl.2 x hx).later hle⟩
    refine Tame.bind (((tame_exitStack className).frame hlocals).mono ?_ fun _ _ => id)
      fun stack => Tame.pure _ fun T hP => ?_
    · intro T hP
      exact ⟨hP.2.1, by simpa using hP.1.1, hP.1.2⟩
    · exact ⟨by simp, by simp [hP.2.1], by simpa using hP.2.2, hP.1.2,
        Nat.le_trans hP.1.1 (Nat.le_max_right _ _)⟩

end Frame

/-! ## 3. Merging into a block -/

namespace Slots

/-- **The slots cover all that is merged into them.** -/
structure Absorbs (h : Hierarchy) (T : TypeTable) (s : Slots) (out : Outflow) : Prop where
  locals : ∀ l ∈ out.locals, Covered h T l s.locals 0
  stack : Covered h T out.stack s.stack 0

/-- The changes that are left to all slots, at most. -/
noncomputable def ranks (h : Hierarchy) (T : TypeTable) (s : Slots) : Nat := rank h T s.locals + rank h T s.stack

/-- Both the locals and the stack have gone up. -/
structure Up (h : Hierarchy) (T T' : TypeTable) (s s' : Slots) : Prop where
  locals : Risen h T T' s.locals s'.locals
  stack : Risen h T T' s.stack s'.stack

/-- A change takes away from the ranks. -/
theorem Up.ranks_lt {s s' : Slots} (hup : s.Up h T T' s') (hl : Filling T s.locals)
    (hst : Filling T s.stack) (hne : s' ≠ s) : s'.ranks h T' < s.ranks h T := by
  have hlocals := hup.locals.rank_le hl
  have hstack := hup.stack.rank_le hst
  unfold ranks
  by_cases hsame : s'.locals = s.locals
  · have : s'.stack ≠ s.stack := fun hsame' => hne (by cases s; cases s'; simp_all)
    have := hup.stack.rank_lt this
    omega
  · have := hup.locals.rank_lt hsame
    omega

theorem filling_replicate (n : Nat) : Filling T (Array.replicate n .unset) := fun _ hx =>
  .inr (Array.eq_of_mem_replicate hx)

theorem AllValid.filling_locals {s : Slots} (hs : s.AllValid T) : Filling T s.locals :=
  fun x hx => .inl (hs.locals x hx)

theorem AllValid.filling_stack {s : Slots} (hs : s.AllValid T) : Filling T s.stack :=
  fun x hx => .inl (hs.stack x hx)

/-- What was absorbed before the slots went up is absorbed afterwards. -/
theorem Absorbs.up (hr : h.Rooted) {s s' : Slots} {out : Outflow} {locals height : Nat}
    (hs : s.Absorbs h T out) (hup : s.Up h T T' s') (hout : out.Fits T locals height) :
    s'.Absorbs h T' out :=
  ⟨fun l hl => hup.locals.covered hr (hout.valid_locals l hl) (hs.locals l hl),
    hup.stack.covered hr hout.valid_stack hs.stack⟩

end Slots

namespace Frame

variable {f g : Frame} {className : String} {caught : Option SlotType}

/-- What there is to know about the slots on entry of a block after an edge was followed to it. -/
structure Followed (h : Hierarchy) (T T' : TypeTable) (f g : Frame) (out : Outflow)
    (changed : Bool) (s : Slots) : Prop where
  valid : s.AllValid T'
  locals_size : s.locals.size = f.entrySlots.locals.size
  absorbs : s.Absorbs h T' out
  first : g.entry = none →
    changed = true ∧ s.stack.size ≤ max 1 (f.entrySlots.stack.size + f.stack.size)
  later : ∀ old, g.entry = some old → old.Up h T T' s ∧
    (changed = false → s = old) ∧ (changed = true → s.ranks h T' < old.ranks h T)

/-- If nothing has changed, the block was entered with the same slots before. -/
theorem Followed.same {out : Outflow} {changed : Bool} {s : Slots}
    (hf : Followed h T T' f g out changed s) (hchanged : changed = false) : g.entry = some s := by
  cases hg : g.entry with
  | none => exact nomatch (hf.first hg).1.symm.trans hchanged
  | some old => rw [(hf.later old hg).2.1 hchanged]

/-- Slots that have been merged into are valid, when they were before or all were covered. -/
theorem valid_of_covered {slots slots' : Array SlotType} {l : List SlotType}
    (hup : Slots.Risen h T T' slots slots') (hl : slots.size = l.length)
    (hv : ∀ (k : Nat) (y : SlotType), k < l.length → slots'[k]? = some y → y.Valid T') :
    ∀ y ∈ slots', y.Valid T' := by
  intro y hy
  obtain ⟨i, hi⟩ := Array.getElem?_of_mem hy
  have := (Array.getElem?_eq_some_iff.1 hi).1
  exact hv i y (by rw [← hl, ← hup.size_eq]; exact this) hi

/-- Merging what leaves a block into slots, some of which may be unknown yet. -/
theorem mergeSlots_returns (hr : h.Rooted) (hT : T.Sound h) {s : Slots} {out : Outflow}
    {locals height : Nat} (hsl : Slots.Filling T s.locals) (hss : Slots.Filling T s.stack)
    (hout : out.Fits T locals height) (changed : Bool) :
    ∃ s' T', Returns (do
        let (changed, locals) ← out.locals.foldlM
          (fun (changed, locals) incoming => Slots.mergeFrom h locals changed 0 incoming)
          (changed, s.locals)
        let (changed, stack) ← Slots.mergeFrom h s.stack changed 0 out.stack
        return (changed, g.enteredWith ⟨locals, stack⟩)) T
          (changed || decide (s' ≠ s), g.enteredWith s') T' ∧
      T'.Sound h ∧ T ≤ T' ∧ s.Up h T T' s' ∧ s'.Absorbs h T' out ∧
      (s.locals.size = locals → ∀ y ∈ s'.locals, y.Valid T') ∧
      (s.stack.size = out.stack.length → ∀ y ∈ s'.stack, y.Valid T') := by
  obtain ⟨l', T₁, hret₁, hupl, hall⟩ := Slots.mergeAll_returns hr changed hT hsl hout.valid_locals
  obtain ⟨st', T₂, hret₂, hups⟩ := Slots.mergeFrom_returns hr (changed || decide (l' ≠ s.locals)) 0
    hupl.sound (hss.later hupl.grown) fun x hx => (hout.valid_stack x hx).later hupl.grown
  have hupl' := hupl.trans hr hsl (.same hupl.filling hups.sound hups.grown)
  have hups' := (Slots.Risen.same hss hupl.sound hupl.grown).trans hr hss hups.toRisen
  refine ⟨⟨l', st'⟩, T₂, ?_, hups.sound, hups'.grown, ⟨hupl', hups'⟩, ⟨fun l hl => ?_, hups.covers⟩,
    fun hsize => ?_, fun hsize => ?_⟩
  · refine returns_bind.2 ⟨_, T₁, hret₁, returns_bind.2 ⟨_, T₂, hret₂, returns_pure.2 ⟨?_, rfl⟩⟩⟩
    have hflag : (decide (⟨l', st'⟩ ≠ s) : Bool) =
        (decide (l' ≠ s.locals) || decide (st' ≠ s.stack)) := by
      obtain ⟨l, st⟩ := s
      by_cases hl : l' = l <;> by_cases hst : st' = st <;> simp [hl, hst]
    rw [hflag, Bool.or_assoc]
  · exact (Slots.Risen.same hupl.filling hups.sound hups.grown).covered hr
      (fun x hx => (hout.valid_locals l hl x hx).later hupl.grown) (hall l hl).1
  · obtain ⟨l, hl⟩ := List.exists_mem_of_ne_nil _ hout.some_locals
    intro y hy
    have hlen := (hsize.trans (hout.length_locals l hl).symm)
    exact (valid_of_covered hupl hlen (hall l hl).2 y hy).later hups.grown
  · exact valid_of_covered hups.toRisen hsize fun k y hk hy =>
      hups.valid k y hk (by rwa [Nat.zero_add])

/-- **Following an edge**: what leaves the block is absorbed by the entry of its successor, and if
nothing has changed, the successor is the same as before. -/
theorem mergeInto_returns (hr : h.Rooted) (hT : T.Sound h) (hf : f.Entered T)
    (hcaught : ∀ t, caught = some t → t.Valid T)
    (hg : ∀ s, g.entry = some s → s.AllValid T ∧ s.locals.size = f.entrySlots.locals.size)
    {r : Except Error (Bool × Frame)} (hrun : mergeInto h className caught f g T = (r, T')) :
    T'.Sound h ∧ T ≤ T' ∧ ∀ changed g', r = .ok (changed, g') →
      ∃ out s, Yields h T' (f.outflow className caught) out ∧
        out.Fits T' f.entrySlots.locals.size (max 1 (f.entrySlots.stack.size + f.stack.size)) ∧
        g' = g.enteredWith s ∧ Followed h T T' f g out changed s := by
  unfold mergeInto at hrun
  rw [bind_apply] at hrun
  rcases hout : (f.outflow className caught T : Except Error Outflow × TypeTable) with ⟨ro, T₁⟩
  rw [hout] at hrun
  obtain ⟨hs₁, hle₁, hans⟩ := tame_outflow className caught T hT ⟨hf, hcaught⟩ ro T₁ hout
  cases ro with
  | error e =>
    cases hrun
    exact ⟨hs₁, hle₁, fun _ _ he => by cases he⟩
  | ok out =>
    obtain ⟨hfits, hyields⟩ := hans out rfl
    have hfill : Slots.Filling T₁ (g.entry.getD
          (Slots.unset f.entrySlots.locals.size out.stack.length)).locals ∧
        Slots.Filling T₁ (g.entry.getD
          (Slots.unset f.entrySlots.locals.size out.stack.length)).stack := by
      cases hge : g.entry with
      | none => exact ⟨Slots.filling_replicate _, Slots.filling_replicate _⟩
      | some old =>
        have hold := (hg old hge).1.later hle₁
        exact ⟨hold.filling_locals, hold.filling_stack⟩
    obtain ⟨s, T₂, hret, hs₂, hle₂, hup, habs, hvl, hvs⟩ :=
      mergeSlots_returns (g := g) hr hs₁ hfill.1 hfill.2 hfits (!g.isReached)
    obtain ⟨rfl, rfl⟩ := Prod.mk.injEq .. ▸ hrun.symm.trans hret
    refine ⟨hs₂, TypeTable.le_trans hle₁ hle₂, fun changed g' he => ?_⟩
    obtain ⟨rfl, rfl⟩ := Prod.mk.injEq .. ▸ (Except.ok.inj he).symm
    refine ⟨out, s, hyields.later hle₂, hfits.later hle₂, rfl, ?_⟩
    cases hge : g.entry with
    | none =>
      rw [hge, Option.getD_none] at hup hvl hvs
      have hsize := hup.locals.size_eq
      have hheight := hup.stack.size_eq
      simp only [Slots.unset, Array.size_replicate] at hsize hheight hvl hvs
      refine ⟨⟨hvl trivial, hvs trivial⟩, hsize, habs, fun _ => ⟨by simp [isReached, hge], ?_⟩, ?_⟩
      · rw [hheight]
        exact hfits.height_le
      · intro old hold
        cases hge.symm.trans hold
    | some old =>
      rw [hge, Option.getD_some] at hup
      obtain ⟨hvalid, hsize⟩ := hg old hge
      refine ⟨⟨hup.locals.valid (hvalid.later hle₁).locals, hup.stack.valid (hvalid.later hle₁).stack⟩,
        hup.locals.size_eq.trans hsize, habs, ?_, ?_⟩
      · intro hnone
        cases hge.symm.trans hnone
      · intro old' hold'
        cases Option.some.inj (hge.symm.trans hold')
        have hl := hvalid.filling_locals
        have hst := hvalid.filling_stack
        have hup' : old.Up h T T' s := ⟨(Slots.Risen.same hl hs₁ hle₁).trans hr hl hup.locals,
          (Slots.Risen.same hst hs₁ hle₁).trans hr hst hup.stack⟩
        simp only [isReached, hge, Option.isSome_some, Bool.not_true, Bool.false_or,
          Option.getD_some, decide_eq_false_iff_not, decide_eq_true_eq, not_not]
        exact ⟨hup', id, hup'.ranks_lt hl hst⟩

/-- Lists of locals that are covered already change nothing. -/
theorem mergeAll_covered (hr : h.Rooted) {lists : List (List SlotType)} (hT : T.Sound h)
    {slots : Array SlotType} (hs : Slots.Filling T slots) (hin : ∀ l ∈ lists, ∀ x ∈ l, x.Valid T)
    (changed : Bool) (hcov : ∀ l ∈ lists, Slots.Covered h T l slots 0) :
    ∃ T', Returns (lists.foldlM
        (fun (s : Bool × Array SlotType) l => Slots.mergeFrom h s.2 s.1 0 l) (changed, slots)) T
        (changed, slots) T' ∧ T'.Sound h ∧ T ≤ T' := by
  induction lists generalizing T with
  | nil => exact ⟨T, returns_pure.2 ⟨rfl, rfl⟩, hT, TypeTable.le_refl T⟩
  | cons l lists ih =>
    obtain ⟨T₁, hret, hs₁, hle₁⟩ :=
      Slots.mergeFrom_covered hr hT hs (hin l (by simp)) changed 0 (hcov l (by simp))
    obtain ⟨T', hret', hs', hle'⟩ := ih hs₁ (hs.later hle₁)
      (fun l' hl x hx => (hin l' (by simp [hl]) x hx).later hle₁)
      fun l' hl k x y hx hy => (hcov l' (by simp [hl]) k x y hx hy).later hle₁
    refine ⟨T', ?_, hs', TypeTable.le_trans hle₁ hle'⟩
    rw [List.foldlM_cons]
    exact returns_bind.2 ⟨_, T₁, hret, hret'⟩

theorem enteredWith_entry {s : Slots} (hs : g.entry = some s) : g.enteredWith s = g := by
  obtain ⟨entry, locals, stack, taken, peak, constructed⟩ := g
  cases hs
  rfl

/-- **Following an edge enters the block that it leads to**, whatever the types are.  If nothing has
changed, that block has been entered with the same slots before. -/
theorem mergeInto_enters {changed : Bool} {g' : Frame}
    (hret : Returns (mergeInto h className caught f g) T (changed, g') T') :
    ∃ slots, g' = g.enteredWith slots ∧ (changed = false → g.entry = some slots) := by
  unfold mergeInto at hret
  obtain ⟨out, T₁, -, hret⟩ := returns_bind.1 hret
  obtain ⟨⟨changed₁, locals⟩, T₂, hlocals, hret⟩ := returns_bind.1 hret
  obtain ⟨⟨changed₂, stack⟩, T₃, hstack, hret⟩ := returns_bind.1 hret
  obtain ⟨heq, -⟩ := returns_pure.1 hret
  obtain ⟨rfl, rfl⟩ := Prod.mk.injEq .. ▸ heq
  refine ⟨⟨locals, stack⟩, rfl, ?_⟩
  rintro rfl
  obtain ⟨rfl, rfl⟩ := Slots.mergeFrom_unchanged hstack
  obtain ⟨hreached, rfl⟩ := Slots.mergeAll_unchanged hlocals
  obtain ⟨old, hold⟩ := Option.isSome_iff_exists.1 (Bool.not_eq_false' _ ▸ hreached)
  rw [hold, Option.getD_some]

/-- **The stack of a block keeps its height.**  It is that of the stack that comes along the first edge. -/
theorem mergeInto_stack {changed : Bool} {slots : Slots}
    (hret : Returns (mergeInto h className caught f g) T (changed, g.enteredWith slots) T') :
    ∃ out T₁, Returns (f.outflow className caught) T out T₁ ∧
      slots.stack.size = (g.entry.map fun old => old.stack.size).getD out.stack.length := by
  unfold mergeInto at hret
  obtain ⟨out, T₁, hout, hret⟩ := returns_bind.1 hret
  obtain ⟨⟨changed₁, locals⟩, T₂, -, hret⟩ := returns_bind.1 hret
  obtain ⟨⟨changed₂, stack⟩, T₃, hstack, hret⟩ := returns_bind.1 hret
  obtain ⟨heq, -⟩ := returns_pure.1 hret
  obtain rfl : Slots.mk locals stack = slots :=
    Option.some.inj (congrArg (fun p => p.2.entry) heq)
  refine ⟨out, T₁, hout, (Slots.size_mergeFrom hstack).trans ?_⟩
  cases g.entry with
  | none => exact Array.size_replicate
  | some old => rfl

/-- Just what has been caught is on the stack of a handler. -/
theorem outflow_caught {t : SlotType} {out : Outflow}
    (hret : Returns (f.outflow className (some t)) T out T') : out.stack = [t] := by
  obtain ⟨exit, T₁, -, hret⟩ := returns_bind.1 hret
  obtain ⟨rfl, -⟩ := returns_pure.1 hret
  rfl

/-- A handler that is entered for the first time has just one slot on the stack, and keeps it. -/
theorem mergeInto_caught {t : SlotType} {changed : Bool} {slots : Slots}
    (hret : Returns (mergeInto h className (some t) f g) T (changed, g.enteredWith slots) T')
    (hg : ∀ old, g.entry = some old → old.stack.size = 1) : slots.stack.size = 1 := by
  obtain ⟨out, T₁, hout, hsize⟩ := mergeInto_stack hret
  rw [hsize, outflow_caught hout]
  cases hentry : g.entry with
  | none => rfl
  | some old => exact hg old hentry

/-- **Following an edge again** changes nothing, when what leaves the block is absorbed. -/
theorem mergeInto_absorbed (hr : h.Rooted) (hT : T.Sound h) {s : Slots} {out : Outflow}
    {locals height : Nat} (hg : g.entry = some s) (hs : s.AllValid T)
    (hout : out.Fits T locals height) (hyields : Yields h T (f.outflow className caught) out)
    (habs : s.Absorbs h T out) :
    ∃ T', Returns (mergeInto h className caught f g) T (false, g) T' ∧ T'.Sound h ∧ T ≤ T' := by
  obtain ⟨T₁, hret₁, hs₁, hle₁⟩ := hyields T hT (TypeTable.le_refl T)
  have hout₁ := hout.later hle₁
  have hall := hs.later hle₁
  obtain ⟨T₂, hret₂, hs₂, hle₂⟩ := mergeAll_covered hr hs₁ hall.filling_locals hout₁.valid_locals
    false fun l hl k x y hx hy => (habs.locals l hl k x y hx hy).later hle₁
  have hle := TypeTable.le_trans hle₁ hle₂
  obtain ⟨T₃, hret₃, hs₃, hle₃⟩ := Slots.mergeFrom_covered hr hs₂ (hall.later hle₂).filling_stack
    (fun x hx => (hout₁.valid_stack x hx).later hle₂) false 0
    fun k x y hx hy => (habs.stack k x y hx hy).later hle
  refine ⟨T₃, ?_, hs₃, TypeTable.le_trans hle hle₃⟩
  unfold mergeInto
  refine returns_bind.2 ⟨out, T₁, hret₁, ?_⟩
  simp only [hg, isReached, Option.isSome_some, Bool.not_true, Option.getD_some]
  exact returns_bind.2 ⟨_, T₂, hret₂, returns_bind.2 ⟨_, T₃, hret₃,
    returns_pure.2 ⟨by rw [enteredWith_entry hg], rfl⟩⟩⟩

end Frame

/-! ## 7. Growth alone -/

/-- Merging lets the table of types only grow, whatever the hierarchy is like. -/
theorem SlotType.leads_merge (current incoming : SlotType) :
    Leads (TypeTable.Later h) (merge h current incoming) := by
  have hany : ∀ d, Leads (TypeTable.Later h) (anyObject d) := fun d =>
    (TypeTable.leads_of_tame (TypeTable.tame_intern _)).bind fun i => .pure _
  unfold merge
  repeat' split
  all_goals first
    | exact .pure _
    | exact hany _
    | exact (TypeTable.leads_merged _ _).bind fun i => .pure _

theorem Slots.leads_mergeFrom (incoming : List SlotType) (slots : Array SlotType) (changed : Bool)
    (index : Nat) : Leads (TypeTable.Later h) (mergeFrom h slots changed index incoming) := by
  induction incoming generalizing slots changed index with
  | nil => exact .pure _
  | cons x rest ih =>
    rw [mergeFrom]
    split
    · exact .pure _
    · refine (SlotType.leads_merge _ x).bind fun m => ?_
      split
      · exact ih _ _ _
      · exact ih _ _ _

namespace Frame

theorem leads_atExit (className : String) (f : Frame) (ts : List SlotType) :
    Leads (TypeTable.Later h) (f.atExit className ts) := by
  refine Leads.mapM (fun t => ?_) ts
  have hobject : ∀ name, Leads (TypeTable.Later h) (SlotType.object name) := fun name =>
    TypeTable.leads_of_tame (SlotType.tame_object name)
  unfold afterConstruction
  split
  · split
    · exact hobject className
    · exact (TypeTable.leads_of_tame (TypeTable.tame_entry _)).bind fun e => hobject e.name
    · exact .pure _
  · exact .pure _

theorem leads_mergeInto (className : String) (caught : Option SlotType) (f g : Frame) :
    Leads (TypeTable.Later h) (mergeInto h className caught f g) := by
  have hout : Leads (TypeTable.Later h) (f.outflow className caught) := by
    refine (leads_atExit className f _).bind fun locals => ?_
    cases caught with
    | some t => exact .pure _
    | none =>
      refine Leads.bind ?_ fun stack => .pure _
      unfold exitStack
      dsimp only
      split
      · exact (leads_atExit className f _).bind fun _ => .throw _
      · exact leads_atExit className f _
  refine hout.bind fun out => ?_
  refine (Leads.foldlM (fun s l => Slots.leads_mergeFrom l s.2 s.1 0) out.locals _).bind fun s => ?_
  exact (Slots.leads_mergeFrom out.stack _ s.1 0).bind fun s' => .pure _

end Frame

end ClassFile
