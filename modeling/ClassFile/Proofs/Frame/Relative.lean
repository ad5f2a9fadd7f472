/-
# Slots at the end of a block

The effect of a block gives each slot at its end a type, which is absolute or stands for a slot on entry:
each local (`Frame.heldAt`) and all of the stack, also the part that the block has not touched
(`Frame.whole`).  What an instruction takes from the stack stands for what is last there (`whole_pop`),
and what it loads from a local for what the local holds (`standsFor_localAt`).

What instructions make of types, they make of what the types stand for: halving them (`resolve_halve`)
and, as long as there is an array of references, taking an entry (`Meaningful.resolve_entry`).
-/
import ClassFile.Proofs.Frame.Designated

namespace ClassFile

/-! ## 1. What types stand for -/

namespace SlotType

variable {T : TypeTable} {x : SlotType}

/-- A valid type is absolute. -/
theorem Valid.resolve_eq (hx : x.Valid T) (s : Slots) : x.resolve s = x := by
  obtain ⟨d, k⟩ := x
  cases k <;> first | rfl | exact hx.elim

/-- An array whose entries are references, or `null`. -/
def HoldsReferences (x : SlotType) : Prop :=
  x = .null ∨ 0 < x.dimensions ∧ ∀ b, x.kind = .base b → 1 < x.dimensions

theorem extend_eq {extra : Int} (hk : x.kind ≠ .null) (hextra : extra ≠ 0)
    (hleast : (if x.kind.isRelative then -128 else 0) ≤ x.dimensions + extra)
    (hmost : x.dimensions + extra ≤ 127) : x.extend extra = ⟨x.dimensions + extra, x.kind⟩ := by
  unfold extend
  rw [if_neg (by simp [hk, hextra])]
  exact if_pos ⟨hleast, hmost⟩

theorem not_holdsReferences_top : ¬ HoldsReferences top := by
  rintro (h | ⟨h, -⟩)
  · exact nomatch h
  · exact absurd h (by decide)

/-- The entries of an array, which is under some dimensions more than what it stands for. -/
theorem entry_extend (hx : x.Valid T) {d : Int} (hd : d ≤ 0) {halved : Bool}
    (hr : HoldsReferences (if halved && (x.extend d).isWide then top else x.extend d)) :
    (if halved && (x.extend (d - 1)).isWide then top else x.extend (d - 1)) =
      (if halved && (x.extend d).isWide then top else x.extend d).entry := by
  have hwhole : (if halved && (x.extend d).isWide then top else x.extend d) = x.extend d := by
    split at hr
    · exact absurd hr not_holdsReferences_top
    · rename_i hwide
      exact if_neg hwide
  rw [hwhole] at hr ⊢
  by_cases hnull : x.kind = .null
  · have hsame : ∀ extra, x.extend extra = x := fun extra => if_pos (.inr hnull)
    rw [hsame, hsame, entry, hsame, if_neg (by simp [isWide, hnull])]
  · have hrel : x.kind.isRelative = false := by
      obtain ⟨e, k⟩ := x
      cases k <;> first | rfl | exact hx.elim
    have hmost : x.dimensions ≤ 127 := by
      obtain ⟨e, k⟩ := x
      cases k <;> simp only [Valid] at hx ⊢ <;> omega
    -- so far the dimensions are those that are left, of which there is one at least
    have hleft : x.extend d = ⟨x.dimensions + d, x.kind⟩ := by
      by_cases hzero : d = 0
      · rw [hzero, extend, if_pos (.inl rfl), Int.add_zero]
      · by_cases hnonneg : 0 ≤ x.dimensions + d
        · exact extend_eq hnull hzero (by rw [hrel]; exact hnonneg) (by omega)
        · rw [extend, if_neg (by simp [hnull, hzero]), hrel] at hr
          exact absurd (by simpa [hnonneg] using hr) not_holdsReferences_top
    rw [hleft] at hr ⊢
    obtain hr | ⟨hpos, hbase⟩ := hr
    · exact absurd (congrArg kind hr) hnull
    · replace hpos : 0 < x.dimensions + d := hpos
      rw [entry, extend_eq (x := ⟨x.dimensions + d, x.kind⟩) hnull (by decide)
        (by rw [hrel]; show (0 : Int) ≤ x.dimensions + d + -1; omega)
        (by show x.dimensions + d + -1 ≤ 127; omega),
        extend_eq hnull (by omega) (by rw [hrel]; show (0 : Int) ≤ _; omega) (by omega), if_neg,
        show x.dimensions + (d - 1) = x.dimensions + d + -1 by omega]
      rw [Bool.and_eq_true]
      rintro ⟨-, hwide⟩
      simp only [isWide, Bool.and_eq_true, Bool.or_eq_true, beq_iff_eq] at hwide
      rcases hwide.2 with hk | hk
      all_goals
        have := hbase _ hk
        dsimp only at this
        omega

/-- **Taking an entry of what a type stands for** is taking it in place of the type. -/
theorem Meaningful.resolve_entry (hx : x.Meaningful T) {s : Slots} (hs : s.AllValid T)
    (hdeep : x.kind.isRelative = true → -128 < x.dimensions) (hr : HoldsReferences (x.resolve s)) :
    x.entry.resolve s = (x.resolve s).entry := by
  rcases hx with hx | ⟨hrel, -, hd⟩
  · rw [hx.resolve_eq]
    have hentry : x.entry.Valid T := hx.extend (by decide)
    exact hentry.resolve_eq s
  · have hentry : x.entry = ⟨x.dimensions + -1, x.kind⟩ := by
      refine extend_eq (fun hk => ?_) (by decide) ?_ (by omega)
      · rw [hk] at hrel
        exact nomatch hrel
      · rw [hrel]
        have := hdeep hrel
        show (-128 : Int) ≤ _
        omega
    rw [hentry]
    obtain ⟨d, k⟩ := x
    cases k <;> try cases hrel
    · exact entry_extend (hs.localAt _) hd hr
    · exact entry_extend (hs.stackAt _) hd hr

/-- Halving what a type stands for is halving the type. -/
theorem resolve_halve (x : SlotType) (s : Slots) :
    x.halve.resolve s = if (x.resolve s).isWide then top else x.resolve s := by
  have htwice : ∀ (found : SlotType) (halved : Bool),
      (if true && found.isWide then top else found) =
        if (if halved && found.isWide then top else found).isWide then top
          else if halved && found.isWide then top else found := by
    intro found halved
    cases halved <;> cases hwide : found.isWide <;> simp [hwide]
  unfold halve
  split
  · rename_i hwide
    have hself : x.resolve s = x := by
      obtain ⟨d, k⟩ := x
      cases k <;> first | rfl | simp [isWide] at hwide
    rw [hself, if_pos hwide]
    rfl
  · rename_i hwide
    obtain ⟨d, k⟩ := x
    cases k
    case onEntryLocal => exact htwice _ _
    case onEntryStack => exact htwice _ _
    all_goals exact (if_neg hwide).symm

/-- The second type is the first one, or stands for it where a block is entered with these slots. -/
def StandsFor (s : Slots) (t t' : SlotType) : Prop :=
  t' = t ∨ t'.kind.isRelative = true ∧ t'.dimensions = 0 ∧ t'.resolve s = t.resolve s

end SlotType

/-! ## 2. Locals and stack -/

namespace Frame

variable {T : TypeTable} {f : Frame}

/-- The type of a local at the end of a block, relative to those on entry. -/
def heldAt (f : Frame) (i : Nat) : SlotType :=
  f.locals[i]?.join.getD (f.entrySlots.locals[i]?.getD .top)

theorem held_eq_map : f.held = (List.range f.entrySlots.locals.size).map f.heldAt := by
  refine List.ext_getElem? fun i => ?_
  rw [held, List.getElem?_mapIdx, List.getElem?_map, Array.getElem?_toList]
  by_cases hi : i < f.entrySlots.locals.size
  · rw [List.getElem?_range hi, Array.getElem?_eq_getElem hi, Option.map_some, Option.map_some, heldAt,
      Array.getElem?_eq_getElem hi, Option.getD_some]
  · rw [List.getElem?_eq_none (by simpa using hi), Option.map_none,
      Array.getElem?_eq_none (Nat.le_of_not_lt hi), Option.map_none]

theorem join_getElem?_setAt (table : Array (Option SlotType)) (index : Nat) (t : SlotType) (i : Nat) :
    (setAt table index t)[i]?.join = if i = index then some t else table[i]?.join := by
  have hgrown : ∀ j : Nat, (if index + 1 - table.size = 0 then table
      else table ++ Array.replicate (index + 1 - table.size) none)[j]?.join = table[j]?.join := by
    intro j
    split
    · rfl
    · rw [Array.getElem?_append]
      split
      · rfl
      · rw [Array.getElem?_replicate, Array.getElem?_eq_none (by omega)]
        split <;> rfl
  have hsize : index < (if index + 1 - table.size = 0 then table
      else table ++ Array.replicate (index + 1 - table.size) none).size := by
    split
    · omega
    · rw [Array.size_append, Array.size_replicate]
      omega
  rw [setAt]
  generalize (if index + 1 - table.size = 0 then table
    else table ++ Array.replicate (index + 1 - table.size) none) = grown at hgrown hsize
  by_cases hi : i = index
  · rw [hi, if_pos rfl, Array.getElem?_setIfInBounds_self_of_lt hsize]
    rfl
  · rw [if_neg hi, Array.getElem?_setIfInBounds_ne (Ne.symm hi), hgrown]

theorem heldAt_setLocal (index : UInt16) (t : SlotType) (i : Nat) :
    (f.setLocal index t).heldAt i = if i = index.toNat then t else f.heldAt i := by
  obtain ⟨entry, locals, stack, taken, peak, constructed⟩ := f
  show (setAt locals index.toNat t)[i]?.join.getD _ = _
  rw [join_getElem?_setAt]
  split <;> rfl

/-- What is loaded from a local is what it holds at the end. -/
theorem standsFor_localAt (hf : f.entrySlots.AllValid T) (index : UInt16) :
    SlotType.StandsFor f.entrySlots (f.heldAt index.toNat) (f.localAt index) := by
  unfold heldAt localAt
  cases hset : f.locals[index.toNat]?.join with
  | some t => exact .inl rfl
  | none =>
    refine .inr ⟨rfl, rfl, ?_⟩
    rw [Option.getD_none, Option.getD_none]
    have hvalid := hf.localAt index
    rw [show (f.entrySlots.locals[index.toNat]?.getD .top).resolve f.entrySlots = _ from
      hvalid.resolve_eq _]
    simp [SlotType.resolve, SlotType.scalar, SlotType.extend, Slots.localAt]

theorem whole_push (t : SlotType) : (f.push t).whole = f.whole ++ [t] := by
  show List.take _ _ ++ (f.stack.push t).toList = _
  rw [Array.toList_push, ← List.append_assoc]
  rfl

theorem length_whole (hf : f.taken ≤ f.entrySlots.stack.size) :
    f.whole.length = f.entrySlots.stack.size - f.taken + f.stack.size := by
  rw [whole, List.length_append, List.length_take, Array.length_toList, Array.length_toList]
  omega

/-- Slots that are not looked at are taken from the end of the stack. -/
theorem whole_drop (count : Nat) (hf : (f.drop count).taken ≤ f.entrySlots.stack.size) :
    (f.drop count).whole = f.whole.take (f.whole.length - count) := by
  have htaken : (f.drop count).taken = f.taken + (count - f.stack.size) := rfl
  have hdropped : (f.drop count).whole = f.entrySlots.stack.toList.take (f.entrySlots.stack.size -
      (f.drop count).taken) ++ (f.stack.shrink (f.stack.size - count)).toList := rfl
  rw [length_whole (by omega), hdropped, Array.toList_shrink, whole, List.take_append, List.take_take,
    List.length_take, Array.length_toList]
  congr 2 <;> omega

theorem pop_snd (f : Frame) : f.pop.2 = f.drop 1 := by
  obtain ⟨entry, locals, stack, taken, peak, constructed⟩ := f
  cases hback : stack.back? with
  | some t =>
    obtain ⟨rest, rfl⟩ := Array.back?_eq_some_iff.1 hback
    simp [pop, drop, hback, Array.shrink_eq_take]
  | none =>
    obtain rfl := Array.back?_eq_none_iff.1 hback
    rfl

theorem taken_le_pop (f : Frame) : f.taken ≤ f.pop.2.taken := by
  rw [pop_snd]
  exact Nat.le_add_right _ _

theorem taken_le_popAll (f : Frame) (count : Nat) : f.taken ≤ (f.popAll count).2.taken := by
  induction count generalizing f with
  | zero => exact Nat.le_refl _
  | succ count ih => exact Nat.le_trans f.taken_le_pop (ih _)

theorem peak_pop (f : Frame) : f.pop.2.peak = f.peak := by
  rw [pop_snd]
  rfl

theorem peak_popAll (f : Frame) (count : Nat) : (f.popAll count).2.peak = f.peak := by
  induction count generalizing f with
  | zero => rfl
  | succ count ih => exact (ih _).trans f.peak_pop

/-- What is taken from the stack stands for what is last there. -/
theorem whole_pop (hf : f.entrySlots.AllValid T) (htaken : f.pop.2.taken ≤ f.entrySlots.stack.size)
    (hmost : f.pop.2.taken ≤ 65535) : ∃ t, f.whole = f.pop.2.whole ++ [t] ∧
      SlotType.StandsFor f.entrySlots t f.pop.1 := by
  obtain ⟨entry, locals, stack, taken, peak, constructed⟩ := f
  cases hback : stack.back? with
  | some t =>
    obtain ⟨rest, rfl⟩ := Array.back?_eq_some_iff.1 hback
    simp only [pop, hback, Array.pop_push]
    exact ⟨t, whole_push (f := ⟨entry, locals, rest, taken, peak, constructed⟩) t, .inl rfl⟩
  | none =>
    obtain rfl := Array.back?_eq_none_iff.1 hback
    simp only [pop, hback] at htaken hmost ⊢
    replace hf : (entry.getD .empty).AllValid T := hf
    replace htaken : taken + 1 ≤ (entry.getD .empty).stack.size := htaken
    have hrest : ∀ n, whole ⟨entry, locals, #[], n, peak, constructed⟩ =
        (entry.getD .empty).stack.toList.take ((entry.getD .empty).stack.size - n) := fun n =>
      List.append_nil _
    have hstands : ∀ t, SlotType.StandsFor (entry.getD .empty) t
        (.scalar (.onEntryStack (UInt16.ofNat (taken + 1)) false)) →
      SlotType.StandsFor (entrySlots ⟨entry, locals, #[], taken, peak, constructed⟩) t
        (.scalar (.onEntryStack (UInt16.ofNat (taken + 1)) false)) := fun _ => id
    rw [hrest, hrest]
    generalize entry.getD .empty = s at hf htaken hstands
    have hlt : s.stack.size - (taken + 1) < s.stack.size := by omega
    refine ⟨s.stack[s.stack.size - (taken + 1)], ?_, hstands _ (.inr ⟨rfl, rfl, ?_⟩)⟩
    · rw [show s.stack.size - taken = s.stack.size - (taken + 1) + 1 by omega, List.take_add_one,
        Array.getElem?_toList, Array.getElem?_eq_getElem hlt]
      rfl
    · rw [(hf.stack _ (Array.getElem_mem hlt)).resolve_eq]
      have hnat : (UInt16.ofNat (taken + 1)).toNat = taken + 1 :=
        UInt16.toNat_ofNat_of_lt' (show taken + 1 < 65536 by omega)
      show (s.stackAt (UInt16.ofNat (taken + 1))).extend 0 = _
      rw [SlotType.extend, if_pos (.inl rfl), Slots.stackAt, hnat, if_pos htaken,
        Array.getElem?_eq_getElem hlt]
      rfl

/-! ## 4. What has been taken -/

variable {α β : Type}

/-- **No slot that has been taken of those on entry comes back**, where an operation gives an answer. -/
def Takes (m : FrameM α) : Prop := ∀ f T a f' T', Returns₂ m f T a f' T' → f.taken ≤ f'.taken

theorem Takes.bind {m : FrameM α} {next : α → FrameM β} (hm : Takes m) (hnext : ∀ a, Takes (next a)) :
    Takes (m >>= next) := by
  intro f T b f' T' hret
  obtain ⟨a, f₁, T₁, hfirst, hsecond⟩ := returns₂_bind.1 hret
  exact Nat.le_trans (hm f T a f₁ T₁ hfirst) (hnext a f₁ T₁ b f' T' hsecond)

end Frame

end ClassFile
