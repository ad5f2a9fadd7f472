/-
# The grammar of modified UTF-8

A group of one, two or three bytes carries a UTF-16 code unit, and a well-formed string of bytes is
groups one after another.  `decodeUnits` reads these strings, and on any other gives the position of
the first byte that rules every well-formed string out, where the end of the bytes counts as a byte
(`decodes`).

The grammar is written with the bits that groups carry, so it does not depend on the tests that the
decoder makes on bytes; `group_iff` has it in terms of those.
-/
import ClassFile.Text.ModifiedUtf8
import Mathlib.Data.List.Forall2

namespace ClassFile.ModifiedUtf8

/-! ## 1. Groups -/

/-- A group of bytes and the unit that it carries. -/
inductive Group : List UInt8 → Nat → Prop where
  /-- `0xxxxxxx` -/
  | one {x : Nat} (hx : x < 0x80) : Group [UInt8.ofNat x] x
  /-- `110xxxxx 10yyyyyy` -/
  | two {x y : Nat} (hx : x < 0x20) (hy : y < 0x40) :
    Group [UInt8.ofNat (0xC0 + x), UInt8.ofNat (0x80 + y)] (x * 0x40 + y)
  /-- `1110xxxx 10yyyyyy 10zzzzzz` -/
  | three {x y z : Nat} (hx : x < 0x10) (hy : y < 0x40) (hz : z < 0x40) :
    Group [UInt8.ofNat (0xE0 + x), UInt8.ofNat (0x80 + y), UInt8.ofNat (0x80 + z)]
      (x * 0x1000 + y * 0x40 + z)

variable {b c d : UInt8} {g l more : List UInt8} {u : Nat}

theorem toNat_ofNat_of_lt {n : Nat} (h : n < 256) : (UInt8.ofNat n).toNat = n :=
  UInt8.toNat_ofNat_of_lt' h

theorem leadsTwo_iff : leadsTwo b = true ↔ 0xC0 ≤ b.toNat ∧ b.toNat < 0xE0 := by simp [leadsTwo]

theorem leadsThree_iff : leadsThree b = true ↔ 0xE0 ≤ b.toNat ∧ b.toNat < 0xF0 := by
  simp [leadsThree]

theorem isContinuation_iff : isContinuation b = true ↔ 0x80 ≤ b.toNat ∧ b.toNat < 0xC0 := by
  simp [isContinuation]

/-- A byte is determined by the bits that stand behind its mark. -/
theorem eq_ofNat {lead n : Nat} (hn : lead + n = b.toNat) : b = UInt8.ofNat (lead + n) := by
  rw [hn, UInt8.ofNat_toNat]

/-- The decoder's tests on bytes are those of the grammar. -/
theorem group_iff : Group g u ↔
    (∃ b, g = [b] ∧ b.toNat < 0x80 ∧ u = b.toNat) ∨
    (∃ b c, g = [b, c] ∧ leadsTwo b = true ∧ isContinuation c = true ∧
      u = b.toNat % 0x20 * 0x40 + low6 c) ∨
    ∃ b c d, g = [b, c, d] ∧ leadsThree b = true ∧ isContinuation c = true ∧
      isContinuation d = true ∧ u = b.toNat % 0x10 * 0x1000 + low6 c * 0x40 + low6 d := by
  simp only [leadsTwo_iff, leadsThree_iff, isContinuation_iff, low6]
  constructor
  · intro h
    cases h with
    | one hx =>
      left
      exact ⟨_, rfl, by rw [toNat_ofNat_of_lt (by omega)]; exact ⟨hx, rfl⟩⟩
    | two hx hy =>
      right; left
      refine ⟨_, _, rfl, ?_⟩
      rw [toNat_ofNat_of_lt (by omega), toNat_ofNat_of_lt (by omega)]
      omega
    | three hx hy hz =>
      right; right
      refine ⟨_, _, _, rfl, ?_⟩
      rw [toNat_ofNat_of_lt (by omega), toNat_ofNat_of_lt (by omega), toNat_ofNat_of_lt (by omega)]
      omega
  · rintro (⟨b, rfl, hb, rfl⟩ | ⟨b, c, rfl, hb, hc, rfl⟩ | ⟨b, c, d, rfl, hb, hc, hd, rfl⟩)
    · have hgroup := Group.one hb
      rwa [UInt8.ofNat_toNat] at hgroup
    · have hgroup := Group.two (x := b.toNat % 0x20) (y := c.toNat % 0x40) (by omega) (by omega)
      rwa [← eq_ofNat (b := b) (by omega), ← eq_ofNat (b := c) (by omega)] at hgroup
    · have hgroup := Group.three (x := b.toNat % 0x10) (y := c.toNat % 0x40) (z := d.toNat % 0x40)
        (by omega) (by omega) (by omega)
      rwa [← eq_ofNat (b := b) (by omega), ← eq_ofNat (b := c) (by omega),
        ← eq_ofNat (b := d) (by omega)] at hgroup

/-- A group is read as its unit. -/
theorem decodeUnits_group (hg : Group g u) (position : Nat) (done : Array Nat) (rest : List UInt8) :
    decodeUnits position done (g ++ rest) =
      decodeUnits (position + g.length) (done.push u) rest := by
  rcases group_iff.1 hg with ⟨b, rfl, hb, rfl⟩ | ⟨b, c, rfl, hb, hc, rfl⟩ |
    ⟨b, c, d, rfl, hb, hc, hd, rfl⟩
  · rw [List.singleton_append, decodeUnits.eq_def]
    simp [hb]
  · have hone : ¬ b.toNat < 0x80 := by
      have := leadsTwo_iff.1 hb
      omega
    simp [decodeUnits, hone, hb, hc]
  · have hone : ¬ b.toNat < 0x80 := by
      have := leadsThree_iff.1 hb
      omega
    have htwo : leadsTwo b = false := by
      have := leadsThree_iff.1 hb
      simp [leadsTwo]
      omega
    simp [decodeUnits, hone, htwo, hb, hc, hd]

/-- A group is below 2^16. -/
theorem Group.lt (hg : Group g u) : u < 0x10000 := by
  cases hg <;> omega

/-- The first byte of a group says how many follow. -/
theorem Group.head (hg : Group g u) : ∃ b t, g = b :: t ∧
    t.length = if b.toNat < 0x80 then 0 else if b.toNat < 0xE0 then 1 else 2 := by
  cases hg with
  | one hx => exact ⟨_, _, rfl, by rw [toNat_ofNat_of_lt (by omega), if_pos hx]; rfl⟩
  | two hx hy =>
    exact ⟨_, _, rfl, by
      rw [toNat_ofNat_of_lt (by omega), if_neg (by omega), if_pos (by omega)]; rfl⟩
  | three hx hy hz =>
    exact ⟨_, _, rfl, by
      rw [toNat_ofNat_of_lt (by omega), if_neg (by omega), if_neg (by omega)]; rfl⟩

/-- Bytes start with one group at most, and it carries one unit. -/
theorem Group.unique {g' l' : List UInt8} {u' : Nat} (hg : Group g u) (hg' : Group g' u')
    (h : g ++ l = g' ++ l') : g = g' ∧ u = u' ∧ l = l' := by
  obtain ⟨b, t, rfl, ht⟩ := hg.head
  obtain ⟨b', t', rfl, ht'⟩ := hg'.head
  rw [List.cons_append, List.cons_append, List.cons.injEq] at h
  obtain ⟨rfl, h⟩ := h
  obtain ⟨rfl, rfl⟩ := List.append_inj h (ht.trans ht'.symm)
  -- the decoder reads the group as either unit
  have hu := decodeUnits_group hg 0 #[] []
  rw [decodeUnits_group hg' 0 #[] []] at hu
  simp [decodeUnits] at hu
  exact ⟨rfl, hu.symm, rfl⟩

/-! ## 2. Well-formed strings -/

/-- Bytes that are groups one after another. -/
def WellFormed (bytes : List UInt8) : Prop :=
  ∃ groups units, List.Forall₂ Group groups units ∧ groups.flatten = bytes

/-- Bytes that some well-formed string starts with. -/
def Viable (bytes : List UInt8) : Prop := ∃ more, WellFormed (bytes ++ more)

/-- The first position whose byte fits no well-formed string that starts with the bytes before it.
Where bytes are missing at the end, it is the position of the first of those. -/
def Misfit (bytes : List UInt8) (position : Nat) : Prop :=
  Viable (bytes.take position) ∧
    (position < bytes.length ∧ ¬ Viable (bytes.take (position + 1)) ∨
      position = bytes.length ∧ ¬ WellFormed bytes)

theorem wellFormed_nil : WellFormed [] := ⟨[], [], .nil, rfl⟩

theorem Group.wellFormed (hg : Group g u) (hl : WellFormed l) : WellFormed (g ++ l) := by
  obtain ⟨groups, units, hgroups, rfl⟩ := hl
  exact ⟨g :: groups, u :: units, .cons hg hgroups, rfl⟩

theorem WellFormed.exists_group (h : WellFormed (b :: l)) :
    ∃ g u rest, b :: l = g ++ rest ∧ Group g u ∧ WellFormed rest := by
  obtain ⟨groups, units, hgroups, heq⟩ := h
  cases hgroups with
  | nil => simp at heq
  | cons hg hgroups => exact ⟨_, _, _, heq.symm, hg, _, _, hgroups, rfl⟩

/-- The rest of a well-formed string behind a group is well formed. -/
theorem Group.wellFormed_iff (hg : Group g u) : WellFormed (g ++ l) ↔ WellFormed l := by
  constructor
  · intro h
    obtain ⟨b, t, rfl, -⟩ := hg.head
    obtain ⟨g', u', rest, heq, hg', hrest⟩ := WellFormed.exists_group h
    obtain ⟨-, -, rfl⟩ := hg.unique hg' heq
    exact hrest
  · exact hg.wellFormed

theorem Viable.take (h : Viable l) (n : Nat) : Viable (l.take n) := by
  obtain ⟨more, h⟩ := h
  exact ⟨l.drop n ++ more, by rwa [← List.append_assoc, List.take_append_drop]⟩

theorem WellFormed.viable (h : WellFormed l) : Viable l := ⟨[], by rwa [List.append_nil]⟩

/-- What a group starts with is viable. -/
theorem Group.viable (hg : Group (l ++ more) u) : Viable l :=
  ⟨more, by simpa using hg.wellFormed wellFormed_nil⟩

theorem Group.viable_iff (hg : Group g u) : Viable (g ++ l) ↔ Viable l := by
  constructor
  · rintro ⟨more, h⟩
    rw [List.append_assoc, hg.wellFormed_iff] at h
    exact ⟨more, h⟩
  · rintro ⟨more, h⟩
    exact ⟨more, by rw [List.append_assoc]; exact hg.wellFormed h⟩

/-- What does not fit behind a group does not fit. -/
theorem Group.misfit (hg : Group g u) {k : Nat} (h : Misfit l k) : Misfit (g ++ l) (g.length + k) := by
  obtain ⟨hviable, hmisfit⟩ := h
  have htake : ∀ n, (g ++ l).take (g.length + n) = g ++ l.take n := fun n =>
    List.take_length_add_append n
  constructor
  · rwa [htake, hg.viable_iff]
  · rw [Nat.add_assoc, htake, hg.viable_iff, hg.wellFormed_iff, List.length_append]
    rcases hmisfit with ⟨hlt, hnot⟩ | ⟨heq, hnot⟩
    · exact .inl ⟨by omega, hnot⟩
    · exact .inr ⟨by omega, hnot⟩

/-- A well-formed string has no misfit. -/
theorem Misfit.not_wellFormed {k : Nat} (h : Misfit l k) : ¬ WellFormed l := by
  intro hl
  obtain ⟨-, ⟨-, hk⟩ | ⟨-, hk⟩⟩ := h
  · exact hk (hl.viable.take _)
  · exact hk hl

theorem Misfit.not_lt {j k : Nat} (hj : Misfit l j) (hk : Misfit l k) : ¬ j < k := by
  intro hlt
  obtain ⟨-, ⟨-, hj⟩ | ⟨rfl, -⟩⟩ := hj
  · have htake := hk.1.take (j + 1)
    rw [List.take_take, Nat.min_eq_left hlt] at htake
    exact hj htake
  · obtain ⟨-, ⟨hk, -⟩ | ⟨hk, -⟩⟩ := hk <;> omega

theorem Misfit.unique {j k : Nat} (hj : Misfit l j) (hk : Misfit l k) : j = k := by
  have := hj.not_lt hk
  have := hk.not_lt hj
  omega

/-! ## 3. Where the decoder stops -/

/-- How a well-formed string starts, in terms of the decoder's tests. -/
theorem WellFormed.cases (h : WellFormed (b :: l)) :
    b.toNat < 0x80 ∨ (leadsTwo b = true ∧ ∃ c rest, l = c :: rest ∧ isContinuation c = true) ∨
      leadsThree b = true ∧ ∃ c d rest, l = c :: d :: rest ∧ isContinuation c = true ∧
        isContinuation d = true := by
  obtain ⟨g, u, rest, heq, hg, -⟩ := h.exists_group
  rcases group_iff.1 hg with ⟨b', rfl, hb, -⟩ | ⟨b', c, rfl, hb, hc, -⟩ |
    ⟨b', c, d, rfl, hb, hc, hd, -⟩
  · cases heq
    exact .inl hb
  · cases heq
    exact .inr (.inl ⟨hb, c, rest, rfl, hc⟩)
  · cases heq
    exact .inr (.inr ⟨hb, c, d, rest, rfl, hc, hd⟩)

theorem WellFormed.two (h : WellFormed (b :: l)) (hb : leadsTwo b = true) :
    ∃ c rest, l = c :: rest ∧ isContinuation c = true := by
  have hrange := leadsTwo_iff.1 hb
  obtain hone | ⟨-, hl⟩ | ⟨hthree, -⟩ := h.cases
  · omega
  · exact hl
  · have := leadsThree_iff.1 hthree
    omega

theorem WellFormed.three (h : WellFormed (b :: l)) (hb : leadsThree b = true) :
    ∃ c d rest, l = c :: d :: rest ∧ isContinuation c = true ∧ isContinuation d = true := by
  have hrange := leadsThree_iff.1 hb
  obtain hone | ⟨htwo, -⟩ | ⟨-, hl⟩ := h.cases
  · omega
  · have := leadsTwo_iff.1 htwo
    omega
  · exact hl

theorem viable_nil : Viable [] := wellFormed_nil.viable

theorem viable_two (hb : leadsTwo b = true) : Viable [b] :=
  (group_iff.2 (.inr (.inl ⟨b, 0x80, rfl, hb, rfl, rfl⟩))).viable

theorem viable_three (hb : leadsThree b = true) : Viable [b] :=
  (group_iff.2 (.inr (.inr ⟨b, 0x80, 0x80, rfl, hb, rfl, rfl, rfl⟩))).viable

theorem viable_three_two (hb : leadsThree b = true) (hc : isContinuation c = true) :
    Viable [b, c] :=
  (group_iff.2 (.inr (.inr ⟨b, c, 0x80, rfl, hb, hc, rfl, rfl⟩))).viable

theorem misfit_end (h : Viable l) (hnot : ¬ WellFormed l) : Misfit l l.length :=
  ⟨by rwa [List.take_length], .inr ⟨rfl, hnot⟩⟩

theorem misfit_byte (h : Viable l) (hnot : ∀ more, ¬ WellFormed (l ++ b :: more)) :
    Misfit (l ++ b :: more) l.length := by
  constructor
  · rwa [List.take_left]
  · left
    rw [List.take_length_add_append, List.length_append]
    constructor
    · simp
    · rintro ⟨more, h⟩
      exact hnot more (by simpa using h)

/-- What the decoder answers for bytes from a position on: the units of groups that the bytes are, or
the position of a misfit. -/
inductive Decodes (position : Nat) (done : Array Nat) (l : List UInt8) :
    Except Nat (Array Nat) → Prop where
  | whole {groups : List (List UInt8)} {units : List Nat} (h : List.Forall₂ Group groups units)
    (hl : groups.flatten = l) : Decodes position done l (.ok (done ++ units.toArray))
  | stops {k : Nat} (h : Misfit l k) : Decodes position done l (.error (position + k))

variable {position : Nat} {done : Array Nat} {r : Except Nat (Array Nat)}

theorem Group.decodes (hg : Group g u) (h : Decodes (position + g.length) (done.push u) l r) :
    Decodes position done (g ++ l) r := by
  cases h with
  | @whole groups units h hl =>
    have hdone : done.push u ++ units.toArray = done ++ (u :: units).toArray := by simp
    rw [hdone]
    exact .whole (.cons hg h) (by rw [List.flatten_cons, hl])
  | stops h =>
    rw [Nat.add_assoc]
    exact .stops (hg.misfit h)

/-- **The decoder reads exactly the well-formed strings**, and on any other stops where it rules them
all out. -/
theorem decodes (position : Nat) (done : Array Nat) (l : List UInt8) :
    Decodes position done l (decodeUnits position done l) := by
  -- by the decoder's recursion: a group is read and the rest follows, or the group breaks off
  fun_induction decodeUnits position done l with
  | case1 position done => exact .whole (.nil : List.Forall₂ Group [] []) rfl
  | case2 position done b rest hb ih =>
    exact (group_iff.2 (.inl ⟨b, rfl, hb, rfl⟩)).decodes ih
  | case3 position done b hone htwo c rest hc ih =>
    exact (group_iff.2 (.inr (.inl ⟨b, c, rfl, htwo, hc, rfl⟩))).decodes ih
  | case4 position done b hone htwo c rest hc =>
    refine .stops (misfit_byte (l := [b]) (viable_two htwo) fun more h => ?_)
    obtain ⟨c', rest', heq, hc'⟩ := h.two htwo
    cases heq
    exact hc hc'
  | case5 position done b hone htwo =>
    refine .stops (misfit_end (viable_two htwo) fun h => ?_)
    obtain ⟨c, rest, heq, -⟩ := h.two htwo
    exact nomatch heq
  | case6 position done b hone htwo hthree c d rest hc hd ih =>
    exact (group_iff.2 (.inr (.inr ⟨b, c, d, rfl, hthree, hc, hd, rfl⟩))).decodes ih
  | case7 position done b hone htwo hthree c d rest hc hd =>
    refine .stops (misfit_byte (l := [b, c]) (viable_three_two hthree hc) fun more h => ?_)
    obtain ⟨c', d', rest', heq, -, hd'⟩ := h.three hthree
    cases heq
    exact hd hd'
  | case8 position done b hone htwo hthree c d rest hc =>
    refine .stops (misfit_byte (l := [b]) (viable_three hthree) fun more h => ?_)
    obtain ⟨c', d', rest', heq, hc', -⟩ := h.three hthree
    cases heq
    exact hc hc'
  | case9 position done b hone htwo hthree c =>
    split
    · rename_i hc
      refine .stops (misfit_end (viable_three_two hthree hc) fun h => ?_)
      obtain ⟨c', d', rest', heq, -⟩ := h.three hthree
      exact nomatch heq
    · rename_i hc
      refine .stops (misfit_byte (l := [b]) (viable_three hthree) fun more h => ?_)
      obtain ⟨c', d', rest', heq, hc', -⟩ := h.three hthree
      cases heq
      exact hc hc'
  | case10 position done b hone htwo hthree =>
    refine .stops (misfit_end (viable_three hthree) fun h => ?_)
    obtain ⟨c, d, rest, heq, -⟩ := h.three hthree
    exact nomatch heq
  | case11 position done b rest hone htwo hthree =>
    refine .stops (misfit_byte (l := []) viable_nil fun more h => ?_)
    obtain hb | ⟨hb, -⟩ | ⟨hb, -⟩ := h.cases
    · exact hone hb
    · exact htwo hb
    · exact hthree hb

/-- What is read is read from the only groups that the bytes are. -/
theorem decodeUnits_flatten {groups : List (List UInt8)} {units : List Nat}
    (h : List.Forall₂ Group groups units) (position : Nat) (done : Array Nat) :
    decodeUnits position done groups.flatten = .ok (done ++ units.toArray) := by
  induction h generalizing position done with
  | nil => simp [decodeUnits]
  | cons hg _ ih =>
    rw [List.flatten_cons, decodeUnits_group hg, ih]
    simp

theorem groups_unique {groups groups' : List (List UInt8)} {units units' : List Nat}
    (h : List.Forall₂ Group groups units) (h' : List.Forall₂ Group groups' units')
    (heq : groups.flatten = groups'.flatten) : groups = groups' ∧ units = units' := by
  induction h generalizing groups' units' with
  | nil =>
    cases h' with
    | nil => exact ⟨rfl, rfl⟩
    | cons hg _ =>
      obtain ⟨b, t, rfl, -⟩ := hg.head
      simp at heq
  | cons hg _ ih =>
    cases h' with
    | nil =>
      obtain ⟨b, t, rfl, -⟩ := hg.head
      simp at heq
    | cons hg' h' =>
      obtain ⟨rfl, rfl, hrest⟩ := hg.unique hg' heq
      obtain ⟨rfl, rfl⟩ := ih h' hrest
      exact ⟨rfl, rfl⟩

end ClassFile.ModifiedUtf8
