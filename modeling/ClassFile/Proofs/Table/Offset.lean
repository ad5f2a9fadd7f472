/-
# Elements at the sum of widths

The elements of an `OffsetTable` stand one behind another: each is placed where the one before it
ends (`Laid`), as long as the offsets do not go round.  If no element is empty, the offsets go up
strictly, so halving a range keeps the half that an offset is in (`search_eq`), and `get?` finds just
what was pushed (`Laid.get?_eq_some_iff`).
-/
import ClassFile.OffsetTable
import Mathlib.Algebra.Order.Ring.Nat

namespace ClassFile.OffsetTable

variable {α : Type}

/-! ## 1. Elements one behind another -/

section Width

variable [HasWidth α]

/-- Elements one behind another, from an offset up to another one. -/
def Consecutive : Nat → List (Nat × α) → Nat → Prop
  | first, [], stop => first = stop
  | first, (placed, x) :: rest, stop => placed = first ∧ Consecutive (first + width x) rest stop

theorem Consecutive.append {first middle stop : Nat} {l l' : List (Nat × α)}
    (h : Consecutive first l middle) (h' : Consecutive middle l' stop) :
    Consecutive first (l ++ l') stop := by
  induction l generalizing first with
  | nil =>
    obtain rfl : first = middle := h
    exact h'
  | cons e l ih => exact ⟨h.1, ih h.2⟩

theorem Consecutive.le {first stop : Nat} {l : List (Nat × α)} (h : Consecutive first l stop) :
    first ≤ stop := by
  induction l generalizing first with
  | nil => exact Nat.le_of_eq h
  | cons e l ih => exact Nat.le_trans (Nat.le_add_right _ _) (ih h.2)

/-- An element is inside of the range. -/
theorem Consecutive.bounds {first stop : Nat} {l : List (Nat × α)} (h : Consecutive first l stop)
    {e : Nat × α} (he : e ∈ l) : first ≤ e.1 ∧ e.1 + width e.2 ≤ stop := by
  induction l generalizing first with
  | nil => cases he
  | cons a l ih =>
    obtain ⟨hplaced, hrest⟩ := h
    rcases List.mem_cons.1 he with rfl | he
    · exact ⟨Nat.le_of_eq hplaced.symm, hplaced ▸ hrest.le⟩
    · obtain ⟨hle, hstop⟩ := ih hrest he
      exact ⟨Nat.le_trans (Nat.le_add_right _ _) hle, hstop⟩

/-- If no element is empty, the offsets go up. -/
theorem Consecutive.pairwise_of_mem {first stop : Nat} {l : List (Nat × α)}
    (hw : ∀ e ∈ l, 0 < width e.2) (h : Consecutive first l stop) :
    l.Pairwise fun a b => a.1 < b.1 := by
  induction l generalizing first with
  | nil => exact .nil
  | cons a l ih =>
    obtain ⟨hplaced, hrest⟩ := h
    refine .cons (fun b hb => ?_) (ih (fun e he => hw e (List.mem_cons_of_mem _ he)) hrest)
    have := (hrest.bounds hb).1
    have := hw a List.mem_cons_self
    omega

theorem Consecutive.pairwise (hw : ∀ x : α, 0 < width x) {first stop : Nat} {l : List (Nat × α)}
    (h : Consecutive first l stop) : l.Pairwise fun a b => a.1 < b.1 :=
  h.pairwise_of_mem fun e _ => hw e.2

/-- The range is as long as its elements together. -/
theorem Consecutive.stop_eq {first stop : Nat} {l : List (Nat × α)} (h : Consecutive first l stop) :
    stop = first + (l.map fun e => width e.2).sum := by
  induction l generalizing first with
  | nil => exact h.symm
  | cons e l ih => rw [ih h.2, List.map_cons, List.sum_cons, Nat.add_assoc]

/-- **Each element is placed where the one before it ends**, from an offset on. -/
def Laid (first : Nat) (t : OffsetTable α) : Prop := Consecutive first t.toList t.nextOffset

theorem laid_startingAt (first : Nat) : (startingAt first : OffsetTable α).Laid first := rfl

theorem Laid.push {first : Nat} {t : OffsetTable α} (h : t.Laid first) {x : α}
    (hfits : t.nextOffset + width x < UInt64.size) : (t.push x).2.Laid first := by
  unfold Laid
  rw [toList_push, nextOffset_push hfits]
  exact h.append ⟨rfl, rfl⟩

end Width

/-! ## 2. Halving -/

/-- **Halving finds an offset** in the range in which it is. -/
theorem search_eq {entries : Array (Nat × α)} (hs : entries.toList.Pairwise fun a b => a.1 < b.1)
    {offset base size i : Nat} {x : α} (hi : entries[i]? = some (offset, x)) (hbase : base ≤ i)
    (hsize : i < base + size) (hle : base + size ≤ entries.size) :
    search entries offset base size = i := by
  have hbelow : ∀ {j k : Nat} {a b : Nat × α}, entries[j]? = some a → entries[k]? = some b →
      j < k → a.1 < b.1 := by
    intro j k a b hj hk hjk
    rw [← Array.getElem?_toList] at hj hk
    obtain ⟨_, rfl⟩ := List.getElem?_eq_some_iff.1 hj
    obtain ⟨_, rfl⟩ := List.getElem?_eq_some_iff.1 hk
    exact List.pairwise_iff_getElem.1 hs j k _ _ hjk
  fun_induction search entries offset base size with
  | case1 base size hone => omega
  | case2 base size hlt middle placed y hmiddle ih =>
    have hmid : middle = base + size / 2 := rfl
    by_cases hoffset : offset < placed
    · simp only [dif_pos hoffset] at ih
      rw [if_pos hoffset]
      have hi' : i < middle := by
        refine Nat.lt_of_not_le fun hge => ?_
        rcases Nat.lt_or_eq_of_le hge with hlt | heq
        · exact Nat.lt_asymm hoffset (hbelow hmiddle hi hlt)
        · rw [heq, hi] at hmiddle
          cases hmiddle
          exact Nat.lt_irrefl _ hoffset
      exact ih hbase (by omega) (by omega)
    · simp only [dif_neg hoffset] at ih
      rw [if_neg hoffset]
      have hi' : middle ≤ i :=
        Nat.le_of_not_lt fun hlt => hoffset (hbelow hi hmiddle hlt)
      exact ih hi' (by omega) (by omega)
  | case3 base size hlt middle hnone =>
    have hmid : middle = base + size / 2 := rfl
    have hout : entries.size ≤ middle := Array.getElem?_eq_none_iff.1 hnone
    omega

/-- **What is found at an offset is what was placed there**, where the offsets go up. -/
theorem get?_eq_some_iff_of_pairwise {t : OffsetTable α}
    (hs : t.toList.Pairwise fun a b => a.1 < b.1) {offset : Nat} {x : α} :
    t.get? offset = some x ↔ (offset, x) ∈ t.toList := by
  unfold get?
  constructor
  · intro hget
    split at hget
    · rename_i placed y hentry
      split at hget
      · rename_i hplaced
        cases hget
        exact Array.mem_toList_iff.2 (hplaced ▸ Array.mem_of_getElem? hentry)
      · cases hget
    · cases hget
  · intro hmem
    obtain ⟨i, hi⟩ := List.getElem?_of_mem hmem
    rw [toList, Array.getElem?_toList] at hi
    have hlt : i < t.entries.size := (Array.getElem?_eq_some_iff.1 hi).1
    rw [search_eq hs hi (Nat.zero_le i) (by omega) (by omega), hi]
    exact if_pos rfl

section Width

variable [HasWidth α]

/-- **What is found at an offset is what was placed there.** -/
theorem Laid.get?_eq_some_iff (hw : ∀ x : α, 0 < width x) {first : Nat} {t : OffsetTable α}
    (h : t.Laid first) {offset : Nat} {x : α} :
    t.get? offset = some x ↔ (offset, x) ∈ t.toList :=
  get?_eq_some_iff_of_pairwise (h.pairwise hw)

/-- What has been placed stays at its offset. -/
theorem Laid.get?_push (hw : ∀ x : α, 0 < width x) {first : Nat} {t : OffsetTable α}
    (h : t.Laid first) {x y : α} (hfits : t.nextOffset + width x < UInt64.size) {offset : Nat}
    (hy : t.get? offset = some y) : (t.push x).2.get? offset = some y := by
  rw [h.get?_eq_some_iff hw] at hy
  rw [(h.push hfits).get?_eq_some_iff hw, toList_push]
  exact List.mem_append_left _ hy

/-- The new element is at the offset that was next. -/
theorem Laid.get?_push_self (hw : ∀ x : α, 0 < width x) {first : Nat} {t : OffsetTable α}
    (h : t.Laid first) {x : α} (hfits : t.nextOffset + width x < UInt64.size) :
    (t.push x).2.get? t.nextOffset = some x := by
  rw [(h.push hfits).get?_eq_some_iff hw, toList_push]
  exact List.mem_append_right _ (List.mem_singleton.2 rfl)

end Width

end ClassFile.OffsetTable
