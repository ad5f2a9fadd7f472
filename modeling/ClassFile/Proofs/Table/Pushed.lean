/-
# Elements pushed one after another

`pushAll` pushes the elements of a list in turn.  Each is placed at the start and the widths before it
(`placeOf`); so the table has just these elements at just these offsets, in this order
(`toList_pushAll`).  If no element is empty, it finds an element where it was placed, and nothing before
the first one, inside of a wide one, or behind the last one (`pushAll_finds`).

All this holds as long as the start and the widths together are below 2^64.  Behind the largest offset
the next one is 0 again, and elements are no longer found where they were put
(`pushAll_past_largest`).  A pool of records has no index left long before.
-/
import ClassFile.Constant
import ClassFile.Proofs.Table.Offset

namespace ClassFile.OffsetTable

variable {α : Type} [HasWidth α]

/-- Pushes elements in turn; also the offsets that this gives. -/
def pushAll (t : OffsetTable α) : List α → List Nat × OffsetTable α
  | [] => ([], t)
  | x :: xs =>
    let (offset, t) := t.push x
    let (offsets, t) := pushAll t xs
    (offset :: offsets, t)

/-- The start and the widths of the first `i` elements. -/
def placeOf (start : Nat) (xs : List α) (i : Nat) : Nat := start + ((xs.take i).map width).sum

/-! ## 1. Places -/

theorem placeOf_zero (start : Nat) (xs : List α) : placeOf start xs 0 = start := rfl

theorem placeOf_cons (start : Nat) (x : α) (xs : List α) (i : Nat) :
    placeOf start (x :: xs) (i + 1) = placeOf (start + width x) xs i := by
  rw [placeOf, placeOf, List.take_succ_cons, List.map_cons, List.sum_cons, Nat.add_assoc]

theorem placeOf_succ (start : Nat) (xs : List α) {i : Nat} (hi : i < xs.length) :
    placeOf start xs (i + 1) = placeOf start xs i + width xs[i] := by
  rw [placeOf, placeOf, List.take_succ_eq_append_getElem hi, List.map_append, List.sum_append,
    List.map_cons, List.map_nil, List.sum_cons, List.sum_nil, Nat.add_zero, Nat.add_assoc]

theorem placeOf_mono (start : Nat) (xs : List α) {i j : Nat} (hij : i ≤ j) :
    placeOf start xs i ≤ placeOf start xs j := by
  obtain ⟨k, rfl⟩ := Nat.exists_eq_add_of_le hij
  rw [placeOf, placeOf, List.take_add, List.map_append, List.sum_append]
  omega

/-! ## 2. Pushing -/

section Pushing

variable {t : OffsetTable α} {xs : List α}

/-- The offsets of the first of several elements and of the others fit if those of all do. -/
theorem fits_cons {x : α} (hfits : placeOf t.nextOffset (x :: xs) (x :: xs).length < UInt64.size) :
    t.nextOffset + width x < UInt64.size ∧
      placeOf (t.push x).2.nextOffset xs xs.length < UInt64.size := by
  rw [List.length_cons, placeOf_cons] at hfits
  have hfirst : t.nextOffset + width x < UInt64.size :=
    Nat.lt_of_le_of_lt (placeOf_mono _ xs (Nat.zero_le xs.length)) hfits
  exact ⟨hfirst, by rwa [nextOffset_push hfirst]⟩

/-- **Each element is placed behind those before it.** -/
theorem fst_pushAll (hfits : placeOf t.nextOffset xs xs.length < UInt64.size) :
    (t.pushAll xs).1 = (List.range xs.length).map (placeOf t.nextOffset xs) := by
  induction xs generalizing t with
  | nil => rfl
  | cons x xs ih =>
    obtain ⟨hfirst, hrest⟩ := fits_cons hfits
    rw [pushAll, List.length_cons, List.range_succ_eq_map, List.map_cons, List.map_map]
    refine congrArg₂ _ rfl ((ih hrest).trans (List.map_congr_left fun i _ => ?_))
    rw [nextOffset_push hfirst]
    exact (placeOf_cons t.nextOffset x xs i).symm

theorem nextOffset_pushAll (hfits : placeOf t.nextOffset xs xs.length < UInt64.size) :
    (t.pushAll xs).2.nextOffset = placeOf t.nextOffset xs xs.length := by
  induction xs generalizing t with
  | nil => rfl
  | cons x xs ih =>
    obtain ⟨hfirst, hrest⟩ := fits_cons hfits
    refine (ih hrest).trans ?_
    rw [nextOffset_push hfirst]
    exact (placeOf_cons t.nextOffset x xs _).symm

theorem toList_pushAll (hfits : placeOf t.nextOffset xs xs.length < UInt64.size) :
    (t.pushAll xs).2.toList =
      t.toList ++ xs.mapIdx fun i x => (placeOf t.nextOffset xs i, x) := by
  induction xs generalizing t with
  | nil => exact (List.append_nil _).symm
  | cons x xs ih =>
    obtain ⟨hfirst, hrest⟩ := fits_cons hfits
    have htail : (xs.mapIdx fun i y => (placeOf (t.nextOffset + width x) xs i, y)) =
        xs.mapIdx fun i y => (placeOf t.nextOffset (x :: xs) (i + 1), y) :=
      List.mapIdx_eq_mapIdx_iff.2 fun i _ => by rw [placeOf_cons]
    rw [List.mapIdx_cons, ← htail]
    refine (ih hrest).trans ?_
    rw [toList_push, List.append_assoc, nextOffset_push hfirst]
    rfl

theorem laid_pushAll {first : Nat} (h : t.Laid first)
    (hfits : placeOf t.nextOffset xs xs.length < UInt64.size) : (t.pushAll xs).2.Laid first := by
  induction xs generalizing t with
  | nil => exact h
  | cons x xs ih =>
    obtain ⟨hfirst, hrest⟩ := fits_cons hfits
    exact ih (h.push hfirst) hrest

end Pushing

/-! ## 3. What was pushed is found -/

section Found

variable {start : Nat} {xs : List α}

theorem toList_pushAll_startingAt (hfits : placeOf start xs xs.length < UInt64.size) :
    ((startingAt start).pushAll xs).2.toList = xs.mapIdx fun i x => (placeOf start xs i, x) :=
  toList_pushAll (t := startingAt start) hfits

/-- An element is found at the place where it was put. -/
theorem get?_pushAll_eq_some_iff (hw : ∀ x ∈ xs, 1 ≤ width x)
    (hfits : placeOf start xs xs.length < UInt64.size) {offset : Nat} {x : α} :
    ((startingAt start).pushAll xs).2.get? offset = some x ↔
      ∃ (i : Nat) (hi : i < xs.length), placeOf start xs i = offset ∧ xs[i] = x := by
  have hup : ((startingAt start).pushAll xs).2.toList.Pairwise fun a b => a.1 < b.1 := by
    refine (laid_pushAll (laid_startingAt start) hfits).pairwise_of_mem fun e he => ?_
    rw [toList_pushAll_startingAt hfits, List.mem_mapIdx] at he
    obtain ⟨i, hi, rfl⟩ := he
    exact hw xs[i] (List.getElem_mem hi)
  rw [get?_eq_some_iff_of_pairwise hup, toList_pushAll_startingAt hfits, List.mem_mapIdx]
  simp only [Prod.mk.injEq]

/-- Nothing is found at an offset that is no place. -/
theorem get?_pushAll_eq_none (hw : ∀ x ∈ xs, 1 ≤ width x)
    (hfits : placeOf start xs xs.length < UInt64.size) {offset : Nat}
    (hoffset : ∀ i < xs.length, placeOf start xs i ≠ offset) :
    ((startingAt start).pushAll xs).2.get? offset = none := by
  refine Option.eq_none_iff_forall_ne_some.2 fun x hx => ?_
  obtain ⟨i, hi, hplace, -⟩ := (get?_pushAll_eq_some_iff hw hfits).1 hx
  exact hoffset i hi hplace

/-- **Looking an offset up is exact.**  Pushing gives the start and the widths pushed before; what was
pushed at an offset is found there, and nothing is found at any other one: not before the start, not inside
of a wide element, not behind the last one.  The elements stay in the order of pushing, with their
offsets.  The offset behind the last element is below 2^64, the number of words of 64 bits. -/
theorem pushAll_finds (start : Nat) (xs : List α) (hw : ∀ x ∈ xs, 1 ≤ width x)
    (hfits : placeOf start xs xs.length < UInt64.size) :
    let (offsets, t) := (startingAt start : OffsetTable α).pushAll xs
    offsets = (List.range xs.length).map (placeOf start xs) ∧
    t.nextOffset = placeOf start xs xs.length ∧
    (∀ (i : Nat) (hi : i < xs.length), t.get? (placeOf start xs i) = some xs[i]) ∧
    (∀ offset, (∀ i < xs.length, placeOf start xs i ≠ offset) → t.get? offset = none) ∧
    (∀ offset < start, t.get? offset = none) ∧
    (∀ (i : Nat) (hi : i < xs.length) (offset : Nat), placeOf start xs i < offset →
      offset < placeOf start xs i + width xs[i] → t.get? offset = none) ∧
    (∀ offset, t.nextOffset ≤ offset → t.get? offset = none) ∧
    t.enumerate = xs.mapIdx (fun i x => (placeOf start xs i, i, x)) ∧ t.size = xs.length := by
  have hnext : ((startingAt start).pushAll xs).2.nextOffset = placeOf start xs xs.length :=
    nextOffset_pushAll (t := startingAt start) hfits
  refine ⟨fst_pushAll (t := startingAt start) hfits, hnext, fun i hi => ?_,
    fun offset => get?_pushAll_eq_none hw hfits, fun offset hlt => ?_, fun i hi offset hlow hhigh => ?_, fun offset hle => ?_, ?_, ?_⟩
  · exact (get?_pushAll_eq_some_iff hw hfits).2 ⟨i, hi, rfl, rfl⟩
  · refine get?_pushAll_eq_none hw hfits fun i _ => ?_
    have := placeOf_mono start xs (Nat.zero_le i)
    rw [placeOf_zero] at this
    omega
  · rw [← placeOf_succ start xs hi] at hhigh
    refine get?_pushAll_eq_none hw hfits fun j _ => ?_
    rcases Nat.lt_or_ge i j with hij | hij
    · have := placeOf_mono start xs (show i + 1 ≤ j from hij)
      omega
    · have := placeOf_mono start xs hij
      omega
  · rw [hnext] at hle
    refine get?_pushAll_eq_none hw hfits fun i hi => ?_
    have hplace := placeOf_mono start xs (show i + 1 ≤ xs.length from hi)
    have hwide := hw xs[i] (List.getElem_mem hi)
    rw [placeOf_succ start xs hi] at hplace
    omega
  · rw [enumerate, toList_pushAll_startingAt hfits, List.mapIdx_mapIdx]
    rfl
  · rw [size, ← Array.length_toList]
    exact (congrArg List.length (toList_pushAll_startingAt hfits)).trans List.length_mapIdx

/-- A wide record between narrow ones, numbered from 1. -/
theorem pushAll_finds_records :
    let xs : List Constant := [.utf8 "T", .long 5, .integer 7]
    let t := ((startingAt 1).pushAll xs).2
    (∀ x ∈ xs, 1 ≤ width x) ∧ placeOf 1 xs xs.length < UInt64.size ∧
      ((startingAt 1).pushAll xs).1 = [1, 2, 4] ∧ t.nextOffset = 5 ∧
      t.get? 2 = some (.long 5) ∧ t.get? 3 = none ∧ t.get? 4 = some (.integer 7) ∧
      t.get? 0 = none ∧ t.get? 5 = none := by
  intro xs t
  have hw : ∀ x ∈ xs, 1 ≤ width x := fun x _ => x.width_pos
  have hfits : placeOf 1 xs xs.length < UInt64.size := by decide
  obtain ⟨hoffsets, hnext, hfound, -, hbefore, hinside, hbehind, -⟩ := pushAll_finds 1 xs hw hfits
  exact ⟨hw, hfits, hoffsets, hnext, hfound 1 (by decide), hinside 1 (by decide) 3 (by decide) (by decide),
    hfound 2 (by decide), hbefore 0 (by decide), hbehind 5 (Nat.le_of_eq hnext)⟩

/-- Behind the largest offset the next one is 0, and what was put at the largest is not found. -/
theorem pushAll_past_largest :
    let (offsets, t) := (startingAt (UInt64.size - 1)).pushAll [Constant.integer 1, .integer 2]
    offsets = [UInt64.size - 1, 0] ∧ t.get? (UInt64.size - 1) = none ∧ t.get? 0 = some (.integer 2) := by
  refine ⟨rfl, ?_, ?_⟩ <;> decide +kernel

end Found

end ClassFile.OffsetTable
