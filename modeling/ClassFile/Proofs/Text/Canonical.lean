/-
# The canonical form of modified UTF-8

A well-formed string of bytes is what `encode` writes exactly if it is canonical: each group is the
shortest one for its unit, but zero has two bytes, and each surrogate belongs to a pair.  On these
strings `encode` and `decode` are inverse to each other (`encode_eq_iff`).
-/
import ClassFile.Proofs.Text.ModifiedUtf8

namespace ClassFile.ModifiedUtf8

variable {g : List UInt8} {u : Nat}

/-! ## 1. The shortest groups -/

/-- A group as short as its unit allows, where zero is not allowed one byte. -/
def Shortest (g : List UInt8) (u : Nat) : Prop :=
  if u = 0 then g.length = 2 else ∀ g', Group g' u → g.length ≤ g'.length

/-- Longer groups carry larger units. -/
theorem Group.length_cases (hg : Group g u) :
    (g.length = 1 ∧ u < 0x80) ∨ (g.length = 2 ∧ u < 0x800) ∨ g.length = 3 := by
  cases hg with
  | one hx =>
    left
    exact ⟨rfl, hx⟩
  | two hx hy =>
    right; left
    exact ⟨rfl, by omega⟩
  | three =>
    right; right
    rfl

/-- A unit has one group of each length at most. -/
theorem Group.eq_of_length {g' : List UInt8} (hg : Group g u) (hg' : Group g' u)
    (h : g.length = g'.length) : g = g' := by
  cases hg with
  | one hx =>
    generalize hu : u = v at hg'
    cases hg' with
    | one hx' => rfl
    | two => simp at h
    | three => simp at h
  | @two x y hx hy =>
    generalize hu : x * 0x40 + y = v at hg'
    cases hg' with
    | one => simp at h
    | @two x' y' hx' hy' =>
      obtain rfl : x = x' := by omega
      obtain rfl : y = y' := by omega
      rfl
    | three => simp at h
  | @three x y z hx hy hz =>
    generalize hu : x * 0x1000 + y * 0x40 + z = v at hg'
    cases hg' with
    | one => simp at h
    | two => simp at h
    | @three x' y' z' hx' hy' hz' =>
      obtain rfl : x = x' := by omega
      obtain rfl : y = y' := by omega
      obtain rfl : z = z' := by omega
      rfl

theorem length_encodeUnit (u : Nat) :
    (encodeUnit u).length =
      if u = 0 then 2 else if u < 0x80 then 1 else if u < 0x800 then 2 else 3 := by
  unfold encodeUnit
  split_ifs <;> first | rfl | omega

/-- The shortest group of a unit is the one that is written for it. -/
theorem Group.shortest_iff (hg : Group g u) : Shortest g u ↔ g = encodeUnit u := by
  have hwritten := group_encodeUnit hg.lt
  have hlength := length_encodeUnit u
  unfold Shortest
  constructor
  · intro h
    apply hg.eq_of_length hwritten
    split at h
    · rw [h, hlength, if_pos ‹_›]
    · have hle := h _ hwritten
      have hcases := hg.length_cases
      split_ifs at hlength <;> omega
  · rintro rfl
    split
    · rw [hlength, if_pos ‹_›]
    · intro g' hg'
      have hcases := hg'.length_cases
      split_ifs at hlength <;> omega

/-- No byte of a written group is zero or above those that lead three. -/
theorem mem_encodeUnit (hu : u < 0x10000) : ∀ b ∈ encodeUnit u, b ≠ 0 ∧ b < 0xF0 := by
  have hbyte : ∀ n, 0 < n → n < 0xF0 → UInt8.ofNat n ≠ 0 ∧ UInt8.ofNat n < 0xF0 := by
    intro n hpos hlt
    have hn : (UInt8.ofNat n).toNat = n := toNat_ofNat_of_lt (by omega)
    constructor
    · intro h
      rw [h] at hn
      exact absurd hn (by simp; omega)
    · rw [UInt8.lt_iff_toNat_lt, hn]
      exact hlt
  unfold encodeUnit
  split
  · simp only [List.mem_singleton, forall_eq]
    exact hbyte _ (by omega) (by omega)
  · split
    · simp only [List.mem_cons, List.not_mem_nil, or_false, forall_eq_or_imp, forall_eq]
      exact ⟨hbyte _ (by omega) (by omega), hbyte _ (by omega) (by omega)⟩
    · simp only [List.mem_cons, List.not_mem_nil, or_false, forall_eq_or_imp, forall_eq]
      exact ⟨hbyte _ (by omega) (by omega), hbyte _ (by omega) (by omega),
        hbyte _ (by omega) (by omega)⟩

/-! ## 2. Paired surrogates -/

/-- Units in which every surrogate belongs to a pair of a high and a low one. -/
inductive Paired : List Nat → Prop where
  | nil : Paired []
  | single {u : Nat} {us : List Nat} (hhigh : isHigh u = false) (hlow : isLow u = false)
    (h : Paired us) : Paired (u :: us)
  | pair {high low : Nat} {us : List Nat} (hhigh : isHigh high = true) (hlow : isLow low = true)
    (h : Paired us) : Paired (high :: low :: us)

theorem isHigh_iff : isHigh u = true ↔ 0xD800 ≤ u ∧ u < 0xDC00 := by simp [isHigh]

theorem isLow_iff : isLow u = true ↔ 0xDC00 ≤ u ∧ u < 0xE000 := by simp [isLow]

theorem paired_charUnits {us : List Nat} (h : Paired us) (c : Char) : Paired (charUnits c ++ us) := by
  have hc := char_toNat_bounds c
  unfold charUnits
  split
  · apply Paired.single _ _ h
    · rw [← Bool.not_eq_true, isHigh_iff]
      omega
    · rw [← Bool.not_eq_true, isLow_iff]
      omega
  · apply Paired.pair _ _ h
    · rw [isHigh_iff]
      omega
    · rw [isLow_iff]
      omega

/-- The units of a text are paired. -/
theorem paired_units (s : List Char) : Paired (units s) := by
  induction s with
  | nil => exact .nil
  | cons c s ih => exact paired_charUnits ih c

theorem toNat_ofNat_of_valid {n : Nat} (h : n.isValidChar) : (Char.ofNat n).toNat = n := by
  rw [Char.ofNat, dif_pos h]
  rfl

theorem charUnits_charOfUnit (hu : u < 0x10000) (hhigh : isHigh u = false) (hlow : isLow u = false) :
    charUnits (charOfUnit u) = [u] := by
  have hchar : (charOfUnit u).toNat = u := by
    rw [charOfUnit, hhigh, hlow]
    rw [← Bool.not_eq_true, isHigh_iff] at hhigh
    rw [← Bool.not_eq_true, isLow_iff] at hlow
    exact toNat_ofNat_of_valid (by unfold Nat.isValidChar; omega)
  rw [charUnits, hchar, if_pos hu]

theorem charUnits_charOfPair {high low : Nat} (hhigh : isHigh high = true) (hlow : isLow low = true) :
    charUnits (charOfPair high low) = [high, low] := by
  rw [isHigh_iff] at hhigh
  rw [isLow_iff] at hlow
  have hchar : (charOfPair high low).toNat =
      0x10000 + (high - 0xD800) * 0x400 + (low - 0xDC00) :=
    toNat_ofNat_of_valid (by unfold Nat.isValidChar; omega)
  generalize hn : 0x10000 + (high - 0xD800) * 0x400 + (low - 0xDC00) = n at hchar
  have hfirst : 0xD800 + (n - 0x10000) / 0x400 = high := by omega
  have hsecond : 0xDC00 + (n - 0x10000) % 0x400 = low := by omega
  rw [charUnits, hchar, if_neg (by omega), hfirst, hsecond]

/-- Paired units are those of the text that they are joined to. -/
theorem units_joinUnits {us : List Nat} (h : Paired us) (hlt : ∀ u ∈ us, u < 0x10000)
    (done : Array Char) : units (joinUnits done us).toList = units done.toList ++ us := by
  induction h generalizing done with
  | nil => simp [joinUnits]
  | single hhigh hlow _ ih =>
    rw [joinUnits_cons hhigh, ih fun v hv => hlt v (by simp [hv])]
    simp [units, charUnits_charOfUnit (hlt _ (by simp)) hhigh hlow]
  | pair hhigh hlow _ ih =>
    rw [joinUnits, hhigh, hlow, Bool.and_self, if_pos rfl, ih fun v hv => hlt v (by simp [hv])]
    simp [units, charUnits_charOfPair hhigh hlow]

/-! ## 3. Encoding and decoding -/

theorem encode_eq (s : String) : (encode s).toList = ((units s.toList).map encodeUnit).flatten :=
  (flatten_encodeUnit s.toList).symm

/-- Encoded strings hold neither zero bytes nor bytes of four-byte UTF-8. -/
theorem mem_encode {s : String} {b : UInt8} (hb : b ∈ encode s) : b ≠ 0 ∧ b < 0xF0 := by
  have hmem : b ∈ ((units s.toList).map encodeUnit).flatten := by
    rw [← encode_eq]
    exact Array.mem_toList_iff.2 hb
  obtain ⟨g, hg, hbg⟩ := List.mem_flatten.1 hmem
  obtain ⟨u, hu, rfl⟩ := List.mem_map.1 hg
  obtain ⟨c, -, hc⟩ := List.mem_flatMap.1 hu
  exact mem_encodeUnit (charUnits_lt c u hc) b hbg

theorem decode_of_groups {bytes : Bytes} {groups : List (List UInt8)} {us : List Nat}
    (h : List.Forall₂ Group groups us) (hbytes : groups.flatten = bytes.toList) :
    decode bytes = .ok (String.ofList (ofUnits us)) := by
  rw [decode, ← hbytes, decodeUnits_flatten h]
  simp [Except.map]

/-- Decoding answers with the text of well-formed bytes or with the position of a misfit. -/
theorem decode_cases (bytes : Bytes) :
    (WellFormed bytes.toList ∧ ∃ s, decode bytes = .ok s) ∨
      ∃ k, Misfit bytes.toList k ∧ decode bytes = .error k := by
  have hdecodes := decodes 0 #[] bytes.toList
  rw [decode]
  generalize decodeUnits 0 #[] bytes.toList = r at hdecodes ⊢
  cases hdecodes with
  | whole h hbytes =>
    left
    exact ⟨⟨_, _, h, hbytes⟩, _, rfl⟩
  | @stops k h =>
    right
    exact ⟨k, h, by simp [Except.map]⟩

/-- Bytes are decoded exactly if they are well formed. -/
theorem exists_decode_iff (bytes : Bytes) : (∃ s, decode bytes = .ok s) ↔ WellFormed bytes.toList := by
  constructor
  · rintro ⟨s, hs⟩
    obtain ⟨hbytes, -⟩ | ⟨k, -, herror⟩ := decode_cases bytes
    · exact hbytes
    · exact nomatch hs.symm.trans herror
  · rintro ⟨groups, us, h, hbytes⟩
    exact ⟨_, decode_of_groups h hbytes⟩

/-- The error is the position of the misfit. -/
theorem decode_eq_error_iff (bytes : Bytes) (position : Nat) :
    decode bytes = .error position ↔ Misfit bytes.toList position := by
  obtain ⟨hbytes, s, hs⟩ | ⟨k, hk, herror⟩ := decode_cases bytes
  · constructor
    · intro herror
      exact nomatch hs.symm.trans herror
    · intro hmisfit
      exact absurd hbytes hmisfit.not_wellFormed
  · rw [herror, Except.error.injEq]
    constructor
    · rintro rfl
      exact hk
    · intro hmisfit
      exact hk.unique hmisfit

theorem forall₂_shortest_iff {groups : List (List UInt8)} {us : List Nat}
    (h : List.Forall₂ Group groups us) :
    List.Forall₂ Shortest groups us ↔ groups = us.map encodeUnit := by
  induction h with
  | nil => simp
  | cons hg _ ih => simp [hg.shortest_iff, ih]

theorem lt_of_groups {groups : List (List UInt8)} {us : List Nat}
    (h : List.Forall₂ Group groups us) : ∀ u ∈ us, u < 0x10000 := by
  induction h with
  | nil => simp
  | cons hg _ ih => simpa using ⟨hg.lt, ih⟩

theorem units_ofUnits {groups : List (List UInt8)} {us : List Nat}
    (h : List.Forall₂ Group groups us) (hpaired : Paired us) : units (ofUnits us) = us := by
  rw [ofUnits, units_joinUnits hpaired (lt_of_groups h)]
  simp [units]

/-- Bytes are what their text encodes to exactly if they are canonical. -/
theorem encode_eq_iff {bytes : Bytes} {s : String} {groups : List (List UInt8)} {us : List Nat}
    (hs : decode bytes = .ok s) (h : List.Forall₂ Group groups us)
    (hbytes : groups.flatten = bytes.toList) :
    encode s = bytes ↔ List.Forall₂ Shortest groups us ∧ Paired us := by
  rw [decode_of_groups h hbytes] at hs
  cases hs
  rw [forall₂_shortest_iff h, ← Array.toList_inj, encode_eq, ← hbytes, String.toList_ofList]
  constructor
  · intro heq
    obtain ⟨hgroups, hus⟩ := groups_unique (groups_units (ofUnits us)) h heq
    rw [hus] at hgroups
    exact ⟨hgroups.symm, hus ▸ paired_units _⟩
  · rintro ⟨hgroups, hpaired⟩
    rw [units_ofUnits h hpaired, hgroups]

/-- **Modified UTF-8 is a bijection between strings and canonical bytes.**  What is encoded is read
back, and holds no zero byte and none that leads four.  Bytes are decoded exactly if they are groups
one after another, the error is the position of the first byte that does not fit, and what is decoded
encodes to the same bytes exactly if every group is shortest and every surrogate is in a pair. -/
theorem encode_decode_canonical (s : String) (bytes : Bytes) :
    (decode (encode s) = .ok s ∧ ∀ b ∈ encode s, b ≠ 0 ∧ b < 0xF0) ∧
    ((∃ t, decode bytes = .ok t) ↔ WellFormed bytes.toList) ∧
    (∀ position, decode bytes = .error position ↔ Misfit bytes.toList position) ∧
    ∀ t groups us, decode bytes = .ok t → List.Forall₂ Group groups us →
      groups.flatten = bytes.toList →
      (encode t = bytes ↔ List.Forall₂ Shortest groups us ∧ Paired us) :=
  ⟨⟨decode_encode s, fun _ => mem_encode⟩, exists_decode_iff bytes, decode_eq_error_iff bytes,
    fun _ _ _ ht h hbytes => encode_eq_iff ht h hbytes⟩

theorem encode_decode_canonical_zero : encode "a\x00" = #[0x61, 0xC0, 0x80] := by
  have hgroups : List.Forall₂ Group [[0x61], [0xC0, 0x80]] [0x61, 0] :=
    .cons (.one (by decide)) (.cons (.two (x := 0) (y := 0) (by decide) (by decide)) .nil)
  have hshortest : List.Forall₂ Shortest [[0x61], [0xC0, 0x80]] [0x61, 0] := by
    rw [forall₂_shortest_iff hgroups]
    decide
  have hpaired : Paired [0x61, 0] := .single rfl rfl (.single rfl rfl .nil)
  exact ((encode_decode_canonical "" #[0x61, 0xC0, 0x80]).2.2.2 "a\x00" _ _ (by decide +kernel) hgroups
    rfl).2 ⟨hshortest, hpaired⟩

end ClassFile.ModifiedUtf8
