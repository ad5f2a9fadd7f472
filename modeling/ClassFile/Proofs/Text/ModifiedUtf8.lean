/-
# Strings survive their encoding

The bytes of a character are the groups of its UTF-16 code units (`encodeChar_eq`): the encoder's
arithmetic on bits gives the digits of units in groups.  A unit below 2^16 is read back from its group,
and the characters of a text are joined again from their units (`joinUnits_units`), because a unit that
stands alone is never the first half of a pair.
-/
import ClassFile.Proofs.Text.Groups
import Mathlib.Algebra.Order.Ring.Nat

namespace ClassFile.ModifiedUtf8

/-! ## 1. Characters as groups of units -/

/-- The UTF-16 code units of one character: itself, or a surrogate pair above U+FFFF. -/
def charUnits (c : Char) : List Nat :=
  if c.toNat < 0x10000 then [c.toNat]
  else [0xD800 + (c.toNat - 0x10000) / 0x400, 0xDC00 + (c.toNat - 0x10000) % 0x400]

/-- The UTF-16 code units of a text. -/
def units (s : List Char) : List Nat := s.flatMap charUnits

/-- A character is outside of the range of surrogates. -/
theorem char_toNat_bounds (c : Char) : c.toNat < 0xD800 ∨ 0xDFFF < c.toNat ∧ c.toNat < 0x110000 :=
  c.valid

/-- The group of bytes of one unit: the shortest form, but two bytes for zero. -/
def encodeUnit (u : Nat) : List UInt8 :=
  if u ≠ 0 ∧ u < 0x80 then [UInt8.ofNat u]
  else if u < 0x800 then [UInt8.ofNat (0xC0 + u / 0x40), UInt8.ofNat (0x80 + u % 0x40)]
  else [UInt8.ofNat (0xE0 + u / 0x1000), UInt8.ofNat (0x80 + u / 0x40 % 0x40),
    UInt8.ofNat (0x80 + u % 0x40)]

/-- The group of a unit carries the unit. -/
theorem group_encodeUnit {u : Nat} (hu : u < 0x10000) : Group (encodeUnit u) u := by
  unfold encodeUnit
  split
  · rename_i hone
    exact .one hone.2
  · split
    · have h := Group.two (x := u / 0x40) (y := u % 0x40) (by omega) (by omega)
      rwa [show u / 0x40 * 0x40 + u % 0x40 = u by omega] at h
    · have h := Group.three (x := u / 0x1000) (y := u / 0x40 % 0x40) (z := u % 0x40) (by omega)
        (by omega) (by omega)
      rwa [show u / 0x1000 * 0x1000 + u / 0x40 % 0x40 * 0x40 + u % 0x40 = u by omega] at h

/-- The last bits of a number. -/
theorem low_eq (code : UInt32) (i : Nat) (hi : i < 8) :
    (code &&& UInt32.ofNat (2 ^ i - 1)).toUInt8 = UInt8.ofNat (code.toNat % 2 ^ i) := by
  have hpow : 2 ^ i ≤ 2 ^ 7 := Nat.pow_le_pow_right (by decide) (by omega)
  rw [← UInt8.toNat_inj, UInt32.toNat_toUInt8, UInt32.toNat_and,
    UInt32.toNat_ofNat_of_lt' (by rw [UInt32.size]; omega), Nat.and_two_pow_sub_one_eq_mod,
    UInt8.toNat_ofNat']

/-- The last bits of a number under a mark that leaves them free. -/
theorem marked_eq (code : UInt32) (i lead : Nat) (hi : i < 8) (hlead : 2 ^ i * (lead + 1) ≤ 256) :
    (code &&& UInt32.ofNat (2 ^ i - 1)).toUInt8 ||| UInt8.ofNat (2 ^ i * lead) =
      UInt8.ofNat (2 ^ i * lead + code.toNat % 2 ^ i) := by
  have hmod : code.toNat % 2 ^ i < 2 ^ i := Nat.mod_lt _ (Nat.two_pow_pos i)
  rw [Nat.mul_succ] at hlead
  rw [low_eq code i hi, ← UInt8.toNat_inj, UInt8.toNat_or, toNat_ofNat_of_lt (by omega),
    toNat_ofNat_of_lt (by omega), toNat_ofNat_of_lt (by omega), Nat.or_comm,
    ← Nat.two_pow_add_eq_or_of_lt hmod]

theorem toNat_shiftRight (code : UInt32) (i : Nat) (hi : i < 32) :
    (code >>> UInt32.ofNat i).toNat = code.toNat / 2 ^ i := by
  rw [UInt32.toNat_shiftRight, UInt32.toNat_ofNat_of_lt' (by rw [UInt32.size]; omega),
    Nat.mod_eq_of_lt hi, Nat.shiftRight_eq_div_pow]

/-- The second byte of a low surrogate, whose mark covers one of the bits. -/
theorem lowPart_eq (code : UInt32) :
    (code &&& 0x1F).toUInt8 ||| 0xB0 = UInt8.ofNat (0xB0 + code.toNat % 0x10) := by
  have hall : ∀ m < 0x20, UInt8.ofNat m ||| 0xB0 = UInt8.ofNat (0xB0 + m % 0x10) := by decide
  have hbits := hall (code.toNat % 0x20) (Nat.mod_lt _ (by decide))
  rw [Nat.mod_mod_of_dvd _ (by decide)] at hbits
  have hlow : (code &&& 0x1F).toUInt8 = UInt8.ofNat (code.toNat % 0x20) :=
    low_eq code 5 (by decide)
  rw [hlow, hbits]

/-- The second byte of a high surrogate, whose bits count planes from the first supplementary
one. -/
theorem plane_eq (code : UInt32) (hcode : 0x10000 ≤ code.toNat) (hlt : code.toNat < 0x110000) :
    ((code >>> 16 &&& 0x0F).toUInt8 - 1) &&& 0x0F ||| 0xA0 =
      UInt8.ofNat (0xA0 + (code.toNat / 0x10000 - 1)) := by
  have hall : ∀ plane < 17, plane ≠ 0 →
      ((UInt8.ofNat (plane % 0x10)) - 1) &&& 0x0F ||| 0xA0 = UInt8.ofNat (0xA0 + (plane - 1)) := by
    decide
  have hshift : (code >>> 16).toNat = code.toNat / 0x10000 := toNat_shiftRight code 16 (by decide)
  have hlow : (code >>> 16 &&& 0x0F).toUInt8 = UInt8.ofNat ((code >>> 16).toNat % 0x10) :=
    low_eq (code >>> 16) 4 (by decide)
  rw [hlow, hshift, hall _ (by omega) (by omega)]

/-- The group of the high surrogate of a supplementary character. -/
theorem encodeUnit_high {n : Nat} (hn : 0x10000 ≤ n) (hlt : n < 0x110000) :
    encodeUnit (0xD800 + (n - 0x10000) / 0x400) =
      [0xED, UInt8.ofNat (0xA0 + (n / 0x10000 - 1)), UInt8.ofNat (0x80 + n / 0x400 % 0x40)] := by
  generalize hu : 0xD800 + (n - 0x10000) / 0x400 = u
  have hfirst : 0xE0 + u / 0x1000 = 0xED := by omega
  have hsecond : 0x80 + u / 0x40 % 0x40 = 0xA0 + (n / 0x10000 - 1) := by omega
  have hthird : u % 0x40 = n / 0x400 % 0x40 := by omega
  rw [encodeUnit, if_neg (by omega), if_neg (by omega), hfirst, hsecond, hthird]
  rfl

/-- The group of its low surrogate. -/
theorem encodeUnit_low {n : Nat} (hn : 0x10000 ≤ n) :
    encodeUnit (0xDC00 + (n - 0x10000) % 0x400) =
      [0xED, UInt8.ofNat (0xB0 + n / 0x40 % 0x10), UInt8.ofNat (0x80 + n % 0x40)] := by
  generalize hu : 0xDC00 + (n - 0x10000) % 0x400 = u
  have hfirst : 0xE0 + u / 0x1000 = 0xED := by omega
  have hsecond : 0x80 + u / 0x40 % 0x40 = 0xB0 + n / 0x40 % 0x10 := by omega
  have hthird : u % 0x40 = n % 0x40 := by omega
  rw [encodeUnit, if_neg (by omega), if_neg (by omega), hfirst, hsecond, hthird]
  rfl

/-- The bytes of a character are the groups of its units. -/
theorem encodeChar_eq (c : Char) : encodeChar c = (charUnits c).flatMap encodeUnit := by
  have hsix (code : UInt32) :
      (code &&& 0x3F).toUInt8 ||| 0x80 = UInt8.ofNat (0x80 + code.toNat % 0x40) :=
    marked_eq code 6 2 (by decide) (by decide)
  have hfive (code : UInt32) :
      (code &&& 0x1F).toUInt8 ||| 0xC0 = UInt8.ofNat (0xC0 + code.toNat % 0x20) :=
    marked_eq code 5 6 (by decide) (by decide)
  have hfour (code : UInt32) :
      (code &&& 0x0F).toUInt8 ||| 0xE0 = UInt8.ofNat (0xE0 + code.toNat % 0x10) :=
    marked_eq code 4 14 (by decide) (by decide)
  have hshift6 : (c.val >>> 6).toNat = c.toNat / 0x40 := toNat_shiftRight c.val 6 (by decide)
  have hshift10 : (c.val >>> 10).toNat = c.toNat / 0x400 := toNat_shiftRight c.val 10 (by decide)
  have hshift12 : (c.val >>> 12).toNat = c.toNat / 0x1000 := toNat_shiftRight c.val 12 (by decide)
  have hval : c.val.toNat = c.toNat := rfl
  by_cases hzero : c = '\x00'
  · subst hzero
    decide
  have hne : c.toNat ≠ 0 := fun h => hzero (Char.toNat_inj.1 h)
  have hsize : c.utf8Size = if c.toNat ≤ 0x7F then 1 else if c.toNat ≤ 0x7FF then 2
    else if c.toNat ≤ 0xFFFF then 3 else 4 := rfl
  rw [encodeChar, if_neg hzero, hsize, charUnits]
  by_cases hone : c.toNat < 0x80
  · have hbyte : c.val.toUInt8 = UInt8.ofNat c.toNat := by
      rw [← UInt8.toNat_inj, UInt32.toNat_toUInt8, UInt8.toNat_ofNat', hval]
    rw [if_pos (by omega), if_pos (by omega), List.flatMap_singleton, encodeUnit,
      if_pos ⟨hne, hone⟩]
    simp [hbyte]
  rw [if_neg (by omega)]
  by_cases htwo : c.toNat < 0x800
  · rw [if_pos (by omega), if_pos (by omega), List.flatMap_singleton, encodeUnit, if_neg (by omega),
      if_pos htwo]
    simp only [hfive, hsix, hshift6, hval]
    rw [Nat.mod_eq_of_lt (a := c.toNat / 0x40) (by omega)]
  rw [if_neg (by omega)]
  by_cases hthree : c.toNat < 0x10000
  · rw [if_pos (by omega), if_pos hthree, List.flatMap_singleton, encodeUnit, if_neg (by omega),
      if_neg htwo]
    simp only [hfour, hsix, hshift6, hshift12, hval]
    rw [Nat.mod_eq_of_lt (a := c.toNat / 0x1000) (by omega)]
  · have hge : 0x10000 ≤ c.toNat := by omega
    have hbound : c.toNat < 0x110000 := by
      have := char_toNat_bounds c
      omega
    rw [if_neg (by omega), if_neg hthree]
    simp only [List.flatMap_cons, List.flatMap_nil, plane_eq c.val hge hbound, lowPart_eq, hsix,
      hshift6, hshift10, hval, encodeUnit_high hge hbound, encodeUnit_low hge]
    rfl

/-! ## 2. Units of characters -/

theorem charUnits_lt (c : Char) : ∀ u ∈ charUnits c, u < 0x10000 := by
  have hc := char_toNat_bounds c
  unfold charUnits
  split
  · simpa using ‹_›
  · simp only [List.mem_cons, List.not_mem_nil, or_false, forall_eq_or_imp, forall_eq]
    omega

theorem joinUnits_cons {u : Nat} (hu : isHigh u = false) (done : Array Char) (us : List Nat) :
    joinUnits done (u :: us) = joinUnits (done.push (charOfUnit u)) us := by
  cases us with
  | nil => simp [joinUnits]
  | cons v us => simp [joinUnits, hu]

/-- The units of a character are joined to the character. -/
theorem joinUnits_charUnits (done : Array Char) (c : Char) (us : List Nat) :
    joinUnits done (charUnits c ++ us) = joinUnits (done.push c) us := by
  have hc := char_toNat_bounds c
  unfold charUnits
  split
  · have hhigh : isHigh c.toNat = false := by
      simp only [isHigh, Bool.and_eq_false_iff, decide_eq_false_iff_not]
      omega
    have hlow : isLow c.toNat = false := by
      simp only [isLow, Bool.and_eq_false_iff, decide_eq_false_iff_not]
      omega
    rw [List.cons_append, List.nil_append, joinUnits_cons hhigh, charOfUnit, hhigh, hlow]
    simp
  · rename_i hge
    have hhigh : isHigh (0xD800 + (c.toNat - 0x10000) / 0x400) = true := by
      simp only [isHigh, Bool.and_eq_true, decide_eq_true_eq]
      omega
    have hlow : isLow (0xDC00 + (c.toNat - 0x10000) % 0x400) = true := by
      simp only [isLow, Bool.and_eq_true, decide_eq_true_eq]
      omega
    have hpair : charOfPair (0xD800 + (c.toNat - 0x10000) / 0x400)
        (0xDC00 + (c.toNat - 0x10000) % 0x400) = c := by
      rw [charOfPair, show 0x10000 + (0xD800 + (c.toNat - 0x10000) / 0x400 - 0xD800) * 0x400 +
        (0xDC00 + (c.toNat - 0x10000) % 0x400 - 0xDC00) = c.toNat by omega, Char.ofNat_toNat]
    simp only [List.cons_append, List.nil_append, joinUnits, hhigh, hlow, Bool.and_self, if_true,
      hpair]

/-- **The units of a text are joined to the text.** -/
theorem joinUnits_units (done : Array Char) (s : List Char) :
    joinUnits done (units s) = done ++ s := by
  induction s generalizing done with
  | nil => simp [units, joinUnits]
  | cons c s ih =>
    have hunits : units (c :: s) = charUnits c ++ units s := List.flatMap_cons
    rw [hunits, joinUnits_charUnits, ih]
    simp

/-- The bytes of a text are the groups of its units. -/
theorem groups_units (s : List Char) :
    List.Forall₂ Group ((units s).map encodeUnit) (units s) := by
  rw [List.forall₂_map_left_iff, List.forall₂_same]
  intro u hu
  obtain ⟨c, -, hc⟩ := List.mem_flatMap.1 hu
  exact group_encodeUnit (charUnits_lt c u hc)

theorem flatten_encodeUnit (s : List Char) : ((units s).map encodeUnit).flatten = encodeChars s := by
  simp [encodeChars, units, funext encodeChar_eq, ← List.flatMap_def, List.flatMap_assoc]

/-- **Decoding undoes encoding**, for every string. -/
theorem decode_encode (s : String) : decode (encode s) = .ok s := by
  have hunits : decodeUnits 0 #[] (encodeChars s.toList) = .ok (#[] ++ (units s.toList).toArray) := by
    rw [← flatten_encodeUnit]
    exact decodeUnits_flatten (groups_units s.toList) 0 #[]
  have hjoin : ofUnits (units s.toList) = s.toList := by
    rw [ofUnits, joinUnits_units]
    simp
  rw [decode, encode, hunits, Except.map]
  simp [hjoin]

end ClassFile.ModifiedUtf8
