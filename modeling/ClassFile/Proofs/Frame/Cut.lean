/-
# Cutting a block

A block can be cut between two instructions.  The first part then leaves its types for a block of its own,
which the rest of the code starts from: a type that the block has as relative to its entry is an absolute
type there, and an object whose constructor has run before the cut is finished there.

`Alike` says when a type of the block behind the cut and a type of the rest are the same, in terms of
what both designate (`Cut.Agree` for whole frames).  They are compared only as long as the stack on entry
is deep enough (`Cut.Within`): below its end there is nothing that types could stand for.

`Cut.Follows` is the invariant: the frame of the rest follows the frame of the block.  Each thing that an
instruction does to a frame, done to both, keeps it.
-/
import ClassFile.Proofs.Frame.Relative
import Mathlib.Data.List.Forall2

namespace ClassFile

theorem forall₂_concat {α β : Type} {R : α → β → Prop} {as : List α} {bs : List β} {a : α} {b : β} :
    List.Forall₂ R (as ++ [a]) (bs ++ [b]) ↔ List.Forall₂ R as bs ∧ R a b := by
  constructor
  · intro h
    have hlength : as.length = bs.length := by simpa using h.length_eq
    have htake := List.forall₂_take_append _ _ _ h
    have hdrop := List.forall₂_drop_append _ _ _ h
    rw [← hlength, List.take_left] at htake
    rw [← hlength, List.drop_left] at hdrop
    exact ⟨htake, (List.forall₂_cons.1 hdrop).1⟩
  · rintro ⟨hs, h⟩
    exact List.rel_append hs (.cons h .nil)

/-! ## 1. Types in two blocks -/

/-- A place where a block is cut in two: what the block has done up to there, with the types that it
knows, and the slots that its rest is entered with. -/
structure Cut where
  className : String
  first : Frame
  table : TypeTable
  middle : Slots

namespace Cut

/-- The slots that the block is entered with. -/
def outer (k : Cut) : Slots := k.first.entrySlots

/-- What constructors have been run on before the cut. -/
def made (k : Cut) : List Designation := k.first.constructedTypes.map (SlotType.designated k.table)

end Cut

/-- Is it nothing that a constructor is to run on? -/
def SlotKind.Finished : SlotKind → Prop
  | .uninitialized _ | .uninitializedThis => False
  | _ => True

namespace Designation

/-- Is it a value of two slots? -/
def isWide (d : Designation) : Bool :=
  d.dimensions == 0 && (d.kind == .base .long || d.kind == .base .double)

theorem isWide_finished (className : String) (made : List Designation) (d : Designation) :
    (d.finished className made).isWide = d.isWide := by
  unfold finished
  split
  · obtain ⟨e, l, entry⟩ := d
    unfold initialized?
    split
    · split
      · rename_i hl
        obtain rfl : l = .uninitializedThis := hl
        exact (Bool.and_false (e == 0)).symm
      · rename_i hl _
        obtain ⟨i, rfl⟩ : ∃ i, l = .uninitialized i := ⟨_, hl⟩
        exact (Bool.and_false (e == 0)).symm
      · rfl
    · rfl
  · rfl

end Designation

namespace SlotType

variable {T T' : TypeTable} {x y : SlotType}

theorem HoldsReferences.cases (hr : x.HoldsReferences) (hx : x.Valid T) : x = .null ∨
    ∃ d k, x = ⟨d, k⟩ ∧ 0 < d ∧ d ≤ 127 ∧ ((∃ b, k = .base b ∧ 1 < d) ∨ ∃ i, k = .object i) := by
  rcases hr with rfl | ⟨hpos, hbase⟩
  · exact .inl rfl
  · obtain ⟨d, k⟩ := x
    cases k <;> simp only [Valid] at hx hpos hbase
    all_goals try omega
    · exact .inr ⟨d, _, rfl, hpos, hx.2, .inl ⟨_, rfl, hbase _ rfl⟩⟩
    · exact .inr ⟨d, _, rfl, hpos, hx.2.1, .inr ⟨_, rfl⟩⟩

theorem Valid.not_isRelative (hx : x.Valid T) : ¬ x.kind.isRelative = true := by
  obtain ⟨d, l⟩ := x
  cases l <;> first | exact Bool.false_ne_true | exact hx.elim

/-- What designates the same has entries that designate the same. -/
theorem HoldsReferences.entries (hr : x.HoldsReferences) (hx : x.Valid T) (hy : y.Valid T')
    (heq : x.designated T = y.designated T') : y.HoldsReferences ∧
      x.entry.designated T = y.entry.designated T' ∧ x.entry.kind.Finished := by
  obtain ⟨e, l⟩ := y
  rcases hr.cases hx with rfl | ⟨d, k, rfl, hpos, hmost, ⟨b, rfl, hlt⟩ | ⟨i, rfl⟩⟩
  · cases l <;> cases heq
    exact ⟨.inl rfl, rfl, trivial⟩
  · cases l <;> cases heq
    have hentry : entry ⟨e, .base b⟩ = ⟨e + -1, .base b⟩ :=
      extend_eq nofun (by decide) (by show (0 : Int) ≤ e + -1; omega) (by show e + -1 ≤ 127; omega)
    rw [hentry]
    exact ⟨.inr ⟨hpos, fun _ hk => hlt⟩, rfl, trivial⟩
  · have hentry : ∀ j, entry ⟨d, .object j⟩ = ⟨d + -1, .object j⟩ := fun j =>
      extend_eq nofun (by decide) (by show (0 : Int) ≤ d + -1; omega) (by show d + -1 ≤ 127; omega)
    cases l <;> try cases heq
    rename_i j
    obtain rfl : d = e := congrArg Designation.dimensions heq
    have hij : T.entries[i]? = T'.entries[j]? := congrArg Designation.entry heq
    rw [hentry, hentry]
    exact ⟨.inr ⟨hpos, nofun⟩, by simp only [designated, hij], trivial⟩

end SlotType

theorem SlotType.isWide_designated (T : TypeTable) (x : SlotType) :
    (x.designated T).isWide = x.isWide := by
  obtain ⟨d, l⟩ := x
  cases l <;> rfl

/-- What the `new` instructions at these offsets can have made, or anything else. -/
def Designation.From (offsets : Nat → Prop) (d : Designation) : Prop :=
  ∀ i name offset, d.kind = .uninitialized i → d.entry = some (.uninitialized name offset) →
    offsets offset

/-- The first type, behind the cut of a block that goes on, is what the second one is in the block that
starts there.  Neither stands for the entries of entries deeper than `depth`. -/
structure Alike (k : Cut) (offsets : Nat → Prop) (depth : Nat) (A B : TypeTable) (t u : SlotType) :
    Prop where
  left : t.Meaningful A
  right : u.Meaningful B
  deep_left : t.kind.isRelative = true → -(depth : Int) ≤ t.dimensions
  deep_right : u.kind.isRelative = true → -(depth : Int) ≤ u.dimensions
  origin : ((t.resolve k.outer).designated A).From offsets
  same : ((t.resolve k.outer).designated A).finished k.className k.made =
    (u.resolve k.middle).designated B

namespace Alike

variable {k : Cut} {offsets offsets' : Nat → Prop} {depth depth' : Nat} {A A' B B' : TypeTable}
  {t t' u u' : SlotType}

theorem later (h : Alike k offsets depth A B t u) (hA : k.outer.AllValid A) (hB : k.middle.AllValid B)
    (hle : A ≤ A') (hle' : B ≤ B') : Alike k offsets depth A' B' t u where
  left := h.left.later hle
  right := h.right.later hle'
  deep_left := h.deep_left
  deep_right := h.deep_right
  origin := by
    rw [(h.left.resolve hA).designated_later hle]
    exact h.origin
  same := by
    rw [(h.left.resolve hA).designated_later hle, (h.right.resolve hB).designated_later hle']
    exact h.same

theorem mono (h : Alike k offsets depth A B t u) (hoffsets : ∀ o, offsets o → offsets' o)
    (hdepth : depth ≤ depth') : Alike k offsets' depth' A B t u where
  left := h.left
  right := h.right
  deep_left hrel := by
    have := h.deep_left hrel
    omega
  deep_right hrel := by
    have := h.deep_right hrel
    omega
  origin i name offset hk he := hoffsets _ (h.origin i name offset hk he)
  same := h.same

/-- Types that stand for the same. -/
theorem of_resolve (h : Alike k offsets depth A B t u) (ht : t'.Meaningful A) (hu : u'.Meaningful B)
    (hdt : t'.kind.isRelative = true → -(depth' : Int) ≤ t'.dimensions)
    (hdu : u'.kind.isRelative = true → -(depth' : Int) ≤ u'.dimensions)
    (hrt : t'.resolve k.outer = t.resolve k.outer) (hru : u'.resolve k.middle = u.resolve k.middle) :
    Alike k offsets depth' A B t' u' :=
  ⟨ht, hu, hdt, hdu, hrt ▸ h.origin, by rw [hrt, hru, h.same]⟩

theorem of_standsFor (h : Alike k offsets depth A B t u) (ht : SlotType.StandsFor k.outer t t')
    (hu : SlotType.StandsFor k.middle u u') : Alike k offsets depth A B t' u' := by
  have hrel : ∀ {x : SlotType} {T : TypeTable}, x.kind.isRelative = true → x.dimensions = 0 →
      x.Meaningful T := fun hk hd => .inr ⟨hk, by omega, by omega⟩
  have hleft : Alike k offsets depth A B t' u := by
    rcases ht with rfl | ⟨hk, hd, hr⟩
    · exact h
    · exact h.of_resolve (hrel hk hd) h.right (fun _ => by omega) h.deep_right hr rfl
  rcases hu with rfl | ⟨hk, hd, hr⟩
  · exact hleft
  · exact hleft.of_resolve hleft.left (hrel hk hd) hleft.deep_left (fun _ => by omega) rfl hr

/-- Types on which no constructor is to run. -/
theorem of_designated (ht : t.Valid A) (hu : u.Valid B) (heq : t.designated A = u.designated B)
    (hk : t.kind.Finished) : Alike k offsets depth A B t u := by
  have hnone : (t.designated A).initialized? k.className = none := by
    unfold Designation.initialized?
    obtain ⟨d, l⟩ := t
    cases l <;> first | exact hk.elim | exact ite_self none
  have horigin : (t.designated A).From offsets := by
    intro i name offset hd
    obtain ⟨d, l⟩ := t
    cases l <;> first | exact hk.elim | cases hd
  refine ⟨.inl ht, .inl hu, fun h => absurd h ht.not_isRelative, fun h => absurd h hu.not_isRelative,
    ?_, ?_⟩
  · rwa [ht.resolve_eq]
  · rw [ht.resolve_eq, hu.resolve_eq, Designation.finished_of_none hnone, heq]

theorem top : Alike k offsets depth A B .top .top :=
  of_designated SlotType.valid_top SlotType.valid_top rfl trivial

theorem null : Alike k offsets depth A B .null .null :=
  of_designated SlotType.valid_null SlotType.valid_null rfl trivial

theorem base (b : BaseType) : Alike k offsets depth A B (.scalar (.base b)) (.scalar (.base b)) :=
  of_designated (SlotType.valid_base b) (SlotType.valid_base b) rfl trivial

/-- The entries of an array of references. -/
theorem entry (h : Alike k offsets depth A B t u) (hA : k.outer.AllValid A) (hB : k.middle.AllValid B)
    (hdepth : depth < 128) (hr : (t.resolve k.outer).HoldsReferences) :
    Alike k offsets (depth + 1) A B t.entry u.entry := by
  have hvalid := h.left.resolve hA
  have hvalid' := h.right.resolve hB
  have heq : (t.resolve k.outer).designated A = (u.resolve k.middle).designated B := by
    rw [← h.same, Designation.finished_of_none]
    rcases hr.cases hvalid with he | ⟨d, l, he, -, -, ⟨b, rfl, -⟩ | ⟨i, rfl⟩⟩ <;> rw [he] <;>
      exact ite_self none
  obtain ⟨hr', hentries, hfinished⟩ := hr.entries hvalid hvalid' heq
  have hdeep : ∀ {x : SlotType}, (x.kind.isRelative = true → -(depth : Int) ≤ x.dimensions) →
      x.entry.kind.isRelative = true → -((depth + 1 : Nat) : Int) ≤ x.entry.dimensions := by
    intro x hx hrel
    rcases SlotType.extend_cases x (-1) with he | he | ⟨he, -, -⟩ <;>
      rw [SlotType.entry, he] at hrel ⊢
    · have := hx hrel
      omega
    · cases hrel
    · have := hx hrel
      show -((depth + 1 : Nat) : Int) ≤ x.dimensions + -1
      omega
  have hentry : Alike k offsets depth A B (t.resolve k.outer).entry (u.resolve k.middle).entry :=
    of_designated (hvalid.extend (by decide)) (hvalid'.extend (by decide)) hentries hfinished
  refine hentry.of_resolve h.left.entry h.right.entry (hdeep h.deep_left) (hdeep h.deep_right) ?_ ?_
  · rw [h.left.resolve_entry hA (fun hrel => by have := h.deep_left hrel; omega) hr]
    exact (SlotType.Valid.resolve_eq (hvalid.extend (by decide)) _).symm
  · rw [h.right.resolve_entry hB (fun hrel => by have := h.deep_right hrel; omega) hr']
    exact (SlotType.Valid.resolve_eq (hvalid'.extend (by decide)) _).symm

/-- What is left of a value whose neighbour has been overwritten. -/
theorem halve (h : Alike k offsets depth A B t u) : Alike k offsets depth A B t.halve u.halve := by
  have hdeep : ∀ {x : SlotType}, (x.kind.isRelative = true → -(depth : Int) ≤ x.dimensions) →
      x.halve.kind.isRelative = true → -(depth : Int) ≤ x.halve.dimensions := by
    intro x hx hrel
    obtain ⟨d, l⟩ := x
    unfold SlotType.halve at hrel ⊢
    split at hrel
    · exact nomatch hrel
    · rename_i hwide
      rw [if_neg hwide]
      cases l <;> first | exact hx rfl | exact nomatch hrel
  have hwide : (u.resolve k.middle).isWide = (t.resolve k.outer).isWide := by
    rw [← SlotType.isWide_designated A (t.resolve _), ← SlotType.isWide_designated B (u.resolve _),
      ← h.same, Designation.isWide_finished]
  cases hcase : (t.resolve k.outer).isWide with
  | true =>
    have htop : Alike k offsets depth A B .top .top := top
    refine htop.of_resolve h.left.halve h.right.halve (hdeep h.deep_left) (hdeep h.deep_right)
      ?_ ?_
    · rw [SlotType.resolve_halve, hcase]
      rfl
    · rw [SlotType.resolve_halve, hwide, hcase]
      rfl
  | false =>
    refine h.of_resolve h.left.halve h.right.halve (hdeep h.deep_left) (hdeep h.deep_right) ?_ ?_
    · rw [SlotType.resolve_halve, hcase]
      rfl
    · rw [SlotType.resolve_halve, hwide, hcase]
      rfl

end Alike

/-! ## 2. Frames of two blocks -/

/-- The slots that can be taken from the stack.  Another one can be put on it before its height goes
round. -/
structure Cut.Within (k : Cut) (f g : Frame) : Prop where
  left : f.taken ≤ k.outer.stack.size
  left_most : f.taken ≤ 65535
  right_most : g.taken ≤ 65535
  room : k.outer.stack.size + f.peak < 2 ^ 31 - 1

theorem Cut.Within.before {k : Cut} {f f' g g' : Frame} (hw : k.Within f' g')
    (hf : f.taken ≤ f'.taken) (hg : g.taken ≤ g'.taken) (hpeak : f.peak ≤ f'.peak) : k.Within f g :=
  ⟨Nat.le_trans hf hw.left, Nat.le_trans hf hw.left_most, Nat.le_trans hg hw.right_most,
    Nat.lt_of_le_of_lt (Nat.add_le_add_left hpeak _) hw.room⟩

/-- What the frame of a block holds behind the cut is what the frame of its rest holds. -/
structure Cut.Agree (k : Cut) (offsets : Nat → Prop) (depth : Nat) (A B : TypeTable) (f g : Frame) :
    Prop where
  stack : List.Forall₂ (Alike k offsets depth A B) f.whole g.whole
  locals : ∀ i < k.outer.locals.size, Alike k offsets depth A B (f.heldAt i) (g.heldAt i)
  constructed : ∃ more, f.constructed.toList = k.first.constructed.toList ++ more ∧
    List.Forall₂ (Alike k offsets depth A B) more g.constructed.toList
  height : k.middle.stack.size + k.first.taken = k.outer.stack.size + k.first.stack.size
  peak_first : k.middle.stack.size ≤ k.outer.stack.size + k.first.peak
  peak : k.outer.stack.size + f.peak =
    max (k.outer.stack.size + k.first.peak) (k.middle.stack.size + g.peak)
  reached : f.whole.length ≤ k.outer.stack.size + f.peak

/-- The frame of a block behind the cut, and the frame of its rest, each with the types that are
known. -/
structure Cut.Follows (h : Hierarchy) (k : Cut) (offsets : Nat → Prop) (depth : Nat) (f : Frame)
    (A : TypeTable) (g : Frame) (B : TypeTable) : Prop where
  sound_left : A.Sound h
  sound_right : B.Sound h
  grown : k.table ≤ A
  valid_left : k.outer.AllValid A
  valid_right : k.middle.AllValid B
  entry_left : f.entrySlots = k.outer
  entry_right : g.entrySlots = k.middle
  taken : f.taken = k.first.taken + (g.taken - k.first.stack.size)
  size : f.stack.size = (k.first.stack.size - g.taken) + g.stack.size
  agree : k.Within f g → k.Agree offsets depth A B f g

namespace Cut.Follows

variable {h : Hierarchy} {k : Cut} {offsets offsets' : Nat → Prop} {depth depth' : Nat}
  {A A' B B' : TypeTable} {f g : Frame} {t u : SlotType}

theorem later (hk : k.Follows h offsets depth f A g B) (hA : A'.Sound h) (hB : B'.Sound h)
    (hle : A ≤ A') (hle' : B ≤ B') : k.Follows h offsets depth f A' g B' := by
  have hlater : ∀ t u, Alike k offsets depth A B t u → Alike k offsets depth A' B' t u :=
    fun t u ha => ha.later hk.valid_left hk.valid_right hle hle'
  refine ⟨hA, hB, TypeTable.le_trans hk.grown hle, hk.valid_left.later hle, hk.valid_right.later hle',
    hk.entry_left, hk.entry_right, hk.taken, hk.size, fun hw => ?_⟩
  obtain ⟨more, hmore, hall⟩ := (hk.agree hw).constructed
  exact ⟨(hk.agree hw).stack.imp hlater, fun i hi => hlater _ _ ((hk.agree hw).locals i hi),
    ⟨more, hmore, hall.imp hlater⟩, (hk.agree hw).height, (hk.agree hw).peak_first,
    (hk.agree hw).peak, (hk.agree hw).reached⟩

theorem mono (hk : k.Follows h offsets depth f A g B) (hoffsets : ∀ o, offsets o → offsets' o)
    (hdepth : depth ≤ depth') : k.Follows h offsets' depth' f A g B := by
  have hmono : ∀ t u, Alike k offsets depth A B t u → Alike k offsets' depth' A B t u :=
    fun t u ha => ha.mono hoffsets hdepth
  refine ⟨hk.sound_left, hk.sound_right, hk.grown, hk.valid_left, hk.valid_right, hk.entry_left,
    hk.entry_right, hk.taken, hk.size, fun hw => ?_⟩
  obtain ⟨more, hmore, hall⟩ := (hk.agree hw).constructed
  exact ⟨(hk.agree hw).stack.imp hmono, fun i hi => hmono _ _ ((hk.agree hw).locals i hi),
    ⟨more, hmore, hall.imp hmono⟩, (hk.agree hw).height, (hk.agree hw).peak_first,
    (hk.agree hw).peak, (hk.agree hw).reached⟩

/-- Putting a slot on the stack. -/
theorem push (hk : k.Follows h offsets depth f A g B)
    (htu : k.Within f g → Alike k offsets depth A B t u) :
    k.Follows h offsets depth (f.push t) A (g.push u) B := by
  have hsize : (f.push t).stack.size = f.stack.size + 1 := Array.size_push t
  have hsize' : (g.push u).stack.size = g.stack.size + 1 := Array.size_push u
  have htaken : (f.push t).taken = f.taken := rfl
  have htaken' : (g.push u).taken = g.taken := rfl
  have hgrown : f.peak ≤ (f.push t).peak := Nat.le_max_left _ _
  refine ⟨hk.sound_left, hk.sound_right, hk.grown, hk.valid_left, hk.valid_right, hk.entry_left,
    hk.entry_right, hk.taken, ?_, fun hw => ?_⟩
  · have := hk.size
    rw [hsize, hsize', htaken']
    omega
  · have hw' : k.Within f g := hw.before (Nat.le_refl _) (Nat.le_refl _) hgrown
    have ha := hk.agree hw'
    have hlength := Frame.length_whole (f := f) (by rw [hk.entry_left]; exact hw'.left)
    rw [hk.entry_left] at hlength
    have hpeak : (f.push t).peak = max f.peak ((f.push t).stack.size - f.taken) ∧
        (g.push u).peak = max g.peak ((g.push u).stack.size - g.taken) := by
      have := ha.reached
      have := ha.height
      have := hk.taken
      have := hk.size
      have := hw'.left
      have := hw'.right_most
      have := hw'.room
      have hpushed : (f.stack.push t).size = _ := hsize
      have hpushed' : (g.stack.push u).size = _ := hsize'
      constructor
      · exact congrArg (max f.peak) (Frame.toNat_heightAbove (by omega) (by omega))
      · exact congrArg (max g.peak) (Frame.toNat_heightAbove (by omega) (by omega))
    obtain ⟨hpeak, hpeak'⟩ := hpeak
    refine ⟨?_, ha.locals, ha.constructed, ha.height, ha.peak_first, ?_, ?_⟩
    · rw [Frame.whole_push, Frame.whole_push]
      exact forall₂_concat.2 ⟨ha.stack, htu hw'⟩
    · have htop : max (k.outer.stack.size + (f.stack.size + 1 - f.taken))
          (k.outer.stack.size + k.first.peak) =
          max (k.middle.stack.size + (g.stack.size + 1 - g.taken))
          (k.outer.stack.size + k.first.peak) := by
        have := ha.height
        have := ha.peak_first
        have := hk.taken
        have := hk.size
        clear hpeak hpeak' hsize hsize' htaken htaken'
        omega
      rw [hpeak, hpeak', hsize, hsize', ← Nat.add_max_add_left, ← Nat.add_max_add_left, ha.peak]
      calc
        _ = max (k.middle.stack.size + g.peak) (max (k.outer.stack.size +
            (f.stack.size + 1 - f.taken)) (k.outer.stack.size + k.first.peak)) := by ac_rfl
        _ = _ := by rw [htop]; ac_rfl
    · have := ha.reached
      have := hw'.left
      rw [Frame.whole_push, List.length_append, List.length_singleton, hpeak, hsize]
      omega

/-- Taking slots from the stack that are not looked at. -/
theorem drop (hk : k.Follows h offsets depth f A g B) (count : Nat) :
    k.Follows h offsets depth (f.drop count) A (g.drop count) B := by
  have htaken : (f.drop count).taken = f.taken + (count - f.stack.size) := rfl
  have htaken' : (g.drop count).taken = g.taken + (count - g.stack.size) := rfl
  have hsize : (f.drop count).stack.size = f.stack.size - count := by
    show (f.stack.shrink _).size = _
    rw [Array.size_shrink]
    omega
  have hsize' : (g.drop count).stack.size = g.stack.size - count := by
    show (g.stack.shrink _).size = _
    rw [Array.size_shrink]
    omega
  have hrel := hk.taken
  have hrel' := hk.size
  refine ⟨hk.sound_left, hk.sound_right, hk.grown, hk.valid_left, hk.valid_right, hk.entry_left,
    hk.entry_right, ?_, ?_, fun hw => ?_⟩
  · rw [htaken, htaken']
    omega
  · rw [hsize, hsize', htaken']
    omega
  · have hleft := hw.left
    have ha := hk.agree (hw.before (Nat.le_add_right _ _) (Nat.le_add_right _ _) (Nat.le_refl _))
    have hright : (g.drop count).taken ≤ k.middle.stack.size := by
      have := ha.height
      omega
    refine ⟨?_, ha.locals, ha.constructed, ha.height, ha.peak_first, ha.peak, ?_⟩
    · rw [Frame.whole_drop count (by rw [hk.entry_left]; exact hleft),
        Frame.whole_drop count (by rw [hk.entry_right]; exact hright), ha.stack.length_eq]
      exact List.forall₂_take _ ha.stack
    · rw [Frame.whole_drop count (by rw [hk.entry_left]; exact hleft), List.length_take]
      exact Nat.le_trans (Nat.min_le_right _ _) ha.reached

/-- Taking a slot from the stack. -/
theorem pop (hk : k.Follows h offsets depth f A g B) :
    k.Follows h offsets depth f.pop.2 A g.pop.2 B ∧
      (k.Within f.pop.2 g.pop.2 → Alike k offsets depth A B f.pop.1 g.pop.1) := by
  have hdrop := hk.drop 1
  rw [← Frame.pop_snd, ← Frame.pop_snd] at hdrop
  refine ⟨hdrop, fun hw => ?_⟩
  have hleft : f.pop.2.taken ≤ f.entrySlots.stack.size := by
    rw [hk.entry_left]
    exact hw.left
  have hright : g.pop.2.taken ≤ g.entrySlots.stack.size := by
    have := (hdrop.agree hw).height
    have := hdrop.taken
    have := hw.left
    rw [hk.entry_right]
    omega
  obtain ⟨t, hwhole, ht⟩ := Frame.whole_pop (hk.entry_left ▸ hk.valid_left) hleft hw.left_most
  obtain ⟨u, hwhole', hu⟩ := Frame.whole_pop (hk.entry_right ▸ hk.valid_right) hright hw.right_most
  have hstack := (hk.agree (hw.before f.taken_le_pop g.taken_le_pop f.peak_pop.ge)).stack
  rw [hwhole, hwhole'] at hstack
  exact (forall₂_concat.1 hstack).2.of_standsFor (hk.entry_left ▸ ht) (hk.entry_right ▸ hu)

/-- Setting a local. -/
theorem setLocal (hk : k.Follows h offsets depth f A g B) (index : UInt16)
    (htu : k.Within f g → Alike k offsets depth A B t u) :
    k.Follows h offsets depth (f.setLocal index t) A (g.setLocal index u) B := by
  refine ⟨hk.sound_left, hk.sound_right, hk.grown, hk.valid_left, hk.valid_right, hk.entry_left,
    hk.entry_right, hk.taken, hk.size, fun hw => ?_⟩
  have hw' : k.Within f g := hw.before (Nat.le_refl _) (Nat.le_refl _) (Nat.le_refl _)
  have ha := hk.agree hw'
  refine ⟨ha.stack, fun i hi => ?_, ha.constructed, ha.height, ha.peak_first, ha.peak, ha.reached⟩
  rw [Frame.heldAt_setLocal, Frame.heldAt_setLocal]
  split
  · exact htu hw'
  · exact ha.locals i hi

/-- Remembering that a constructor has run. -/
theorem construct (hk : k.Follows h offsets depth f A g B)
    (htu : k.Within f g → Alike k offsets depth A B t u) :
    k.Follows h offsets depth (f.construct t) A (g.construct u) B := by
  refine ⟨hk.sound_left, hk.sound_right, hk.grown, hk.valid_left, hk.valid_right, hk.entry_left,
    hk.entry_right, hk.taken, hk.size, fun hw => ?_⟩
  have hw' : k.Within f g := hw.before (Nat.le_refl _) (Nat.le_refl _) (Nat.le_refl _)
  have ha := hk.agree hw'
  obtain ⟨more, hmore, hall⟩ := ha.constructed
  refine ⟨ha.stack, ha.locals, ⟨more ++ [t], ?_, ?_⟩, ha.height, ha.peak_first, ha.peak, ha.reached⟩
  · show (f.constructed.push t).toList = _
    rw [Array.toList_push, hmore, List.append_assoc]
  · show List.Forall₂ _ _ (g.constructed.push u).toList
    rw [Array.toList_push]
    exact forall₂_concat.2 ⟨hall, htu hw'⟩

/-- Loading a local. -/
theorem localAt (hk : k.Follows h offsets depth f A g B) {index : UInt16}
    (hindex : index.toNat < k.outer.locals.size) (hw : k.Within f g) :
    Alike k offsets depth A B (f.localAt index) (g.localAt index) := by
  refine ((hk.agree hw).locals index.toNat hindex).of_standsFor ?_ ?_
  · rw [← hk.entry_left]
    exact Frame.standsFor_localAt (hk.entry_left ▸ hk.valid_left) index
  · rw [← hk.entry_right]
    exact Frame.standsFor_localAt (hk.entry_right ▸ hk.valid_right) index

/-! ## 3. What instructions do -/

theorem pushValue (hk : k.Follows h offsets depth f A g B) (hwide : t.isWide = u.isWide)
    (htu : k.Within f g → Alike k offsets depth A B t u) :
    k.Follows h offsets depth (f.pushValue t) A (g.pushValue u) B := by
  unfold Frame.pushValue
  rw [hwide]
  split
  · exact (hk.push htu).push fun _ => .top
  · exact hk.push htu

theorem popAll (hk : k.Follows h offsets depth f A g B) (count : Nat) :
    k.Follows h offsets depth (f.popAll count).2 A (g.popAll count).2 B ∧
      (k.Within (f.popAll count).2 (g.popAll count).2 →
        List.Forall₂ (Alike k offsets depth A B) (f.popAll count).1 (g.popAll count).1) := by
  induction count generalizing f g with
  | zero => exact ⟨hk, fun _ => .nil⟩
  | succ count ih =>
    obtain ⟨hpop, htop⟩ := hk.pop
    obtain ⟨hrest, hall⟩ := ih hpop
    exact ⟨hrest, fun hw => .cons (htop (hw.before (Frame.taken_le_popAll _ _)
      (Frame.taken_le_popAll _ _) (Frame.peak_popAll _ _).ge)) (hall hw)⟩

theorem pushAll {first second : Nat → SlotType} (order : List Nat)
    (hk : k.Follows h offsets depth f A g B)
    (hall : k.Within f g → ∀ i, Alike k offsets depth A B (first i) (second i)) :
    k.Follows h offsets depth (f.pushAll (order.map first)) A (g.pushAll (order.map second)) B := by
  induction order generalizing f g with
  | nil => exact hk
  | cons i order ih =>
    exact ih (hk.push fun hw => hall hw i) fun hw =>
      hall (hw.before (Nat.le_refl _) (Nat.le_refl _) (Nat.le_max_left _ _))

theorem applyShuffle (hk : k.Follows h offsets depth f A g B) (count : Nat) (order : List Nat) :
    k.Follows h offsets depth (f.applyShuffle count order) A (g.applyShuffle count order) B := by
  obtain ⟨hpop, hall⟩ := hk.popAll count
  refine hpop.pushAll order fun hw i => ?_
  have hsame := hall hw
  rw [List.getD_eq_getElem?_getD, List.getD_eq_getElem?_getD]
  by_cases hi : i < (f.popAll count).1.length
  · have hi' : i < (g.popAll count).1.length := hsame.length_eq ▸ hi
    rw [List.getElem?_eq_getElem hi, List.getElem?_eq_getElem hi']
    exact hsame.get hi hi'
  · have hi' : ¬ i < (g.popAll count).1.length := hsame.length_eq ▸ hi
    rw [List.getElem?_eq_none (Nat.le_of_not_lt hi), List.getElem?_eq_none (Nat.le_of_not_lt hi')]
    exact .top

theorem applyEffect (hk : k.Follows h offsets depth f A g B) {op : Opcode} {effect : StackEffect}
    (he : op.stackEffect? = some effect) :
    k.Follows h offsets depth (f.applyEffect effect) A (g.applyEffect effect) B := by
  unfold Frame.applyEffect
  split
  · rename_i t ht
    refine (hk.drop _).pushValue rfl fun _ => ?_
    rcases Frame.left_of_stackEffect? he ht with rfl | ⟨b, rfl⟩
    · exact .null
    · cases b <;> exact .base _
  · exact hk.drop _

/-- Taking an entry of an array of references. -/
theorem loadEntry (hk : k.Follows h offsets depth f A g B) (hdepth : depth < 128)
    (hr : ((f.drop 1).pop.1.resolve k.outer).HoldsReferences) :
    k.Follows h offsets (depth + 1) f.loadEntry A g.loadEntry B := by
  obtain ⟨hpop, htop⟩ := (hk.drop 1).pop
  exact (hpop.mono (fun _ => id) (Nat.le_succ _)).push fun hw =>
    (htop hw).entry hk.valid_left hk.valid_right hdepth hr

theorem halveBefore (hk : k.Follows h offsets depth f A g B) {index : UInt16}
    (hindex : index.toNat < k.outer.locals.size) :
    k.Follows h offsets depth (f.halveBefore index) A (g.halveBefore index) B := by
  unfold Frame.halveBefore
  split
  · exact hk
  · rename_i hzero
    have hpos : 0 < index.toNat := Nat.pos_of_ne_zero fun hz => hzero (UInt16.toNat_inj.1 hz)
    have hbefore : (index - 1).toNat = index.toNat - 1 :=
      UInt16.toNat_sub_of_le _ _ (UInt16.le_iff_toNat_le.2 hpos)
    exact hk.setLocal _ fun hw => (hk.localAt (by omega) hw).halve

theorem store (hk : k.Follows h offsets depth f A g B) {index : UInt16}
    (hindex : index.toNat < k.outer.locals.size) :
    k.Follows h offsets depth (f.store index) A (g.store index) B :=
  (hk.pop.1.setLocal index hk.pop.2).halveBefore hindex

theorem storeWide (hk : k.Follows h offsets depth f A g B) {index : UInt16}
    (hindex : index.toNat < k.outer.locals.size) :
    k.Follows h offsets depth (f.storeWide index) A (g.storeWide index) B :=
  (((hk.drop 1).pop.1.setLocal index (hk.drop 1).pop.2).setLocal _ fun _ => .top).halveBefore hindex

theorem takeReceiver (hk : k.Follows h offsets depth f A g B) (construction : Bool) :
    k.Follows h offsets depth (f.takeReceiver construction) A (g.takeReceiver construction) B := by
  cases construction
  · exact hk.pop.1
  · exact hk.pop.1.construct hk.pop.2

end Cut.Follows

end ClassFile
