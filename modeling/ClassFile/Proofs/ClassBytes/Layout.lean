/-
# What stands where in a string of bytes

`b.Has offset l` says that the bytes `l` stand in `b` from an offset on.  What is written one behind
another can be taken apart (`Has.left`, `Has.right`), down to words, which are then read back
(`Has.u8At`, `Has.u16At`, ...); and what a step moves over once, it moves over as often as it stands
there (`Has.iterate`).  Where some bytes are overwritten, the others stay (`Has.setList_apart`).
-/
import ClassFile.ClassBytes.Basic
import ClassFile.Proofs.Stateful
import Mathlib.Data.List.Induction

namespace ClassFile

/-! ## 1. Bytes at an offset -/

theorem length_flatMap_wordBytes (words : List UInt16) :
    (words.flatMap fun w => wordBytes 2 w.toNat).length = 2 * words.length := by
  simp only [List.length_flatMap, length_wordBytes, List.map_const', List.sum_replicate_nat,
    Nat.mul_comm]

/-- The bytes stand from an offset on. -/
def Bytes.Has (b : Bytes) (offset : Nat) (l : List UInt8) : Prop :=
  ∃ before after, b.toList = before ++ (l ++ after) ∧ before.length = offset

namespace Bytes.Has

variable {b : Bytes} {offset : Nat} {l l' : List UInt8}

theorem left (h : b.Has offset (l ++ l')) : b.Has offset l := by
  obtain ⟨before, after, hb, hlength⟩ := h
  exact ⟨before, l' ++ after, by rw [hb, List.append_assoc], hlength⟩

theorem right (h : b.Has offset (l ++ l')) : b.Has (offset + l.length) l' := by
  obtain ⟨before, after, hb, rfl⟩ := h
  exact ⟨before ++ l, after, by rw [hb, List.append_assoc, List.append_assoc], List.length_append⟩

/-- What stands behind some bytes, at an offset that is known otherwise. -/
theorem behind (h : b.Has offset (l ++ l')) {offset' : Nat} (hoffset : offset' = offset + l.length) :
    b.Has offset' l' := hoffset ▸ h.right

theorem head {x : UInt8} (h : b.Has offset (x :: l)) : b.Has offset [x] :=
  (show b.Has offset ([x] ++ l) from h).left

theorem tail {x : UInt8} (h : b.Has offset (x :: l)) : b.Has (offset + 1) l :=
  (show b.Has offset ([x] ++ l) from h).right

theorem slice? (h : b.Has offset l) : b.slice? offset l.length = some l.toArray := by
  obtain ⟨before, after, hb, rfl⟩ := h
  have hsize : b.size = before.length + (l.length + after.length) := by
    rw [← Array.length_toList, hb, List.length_append, List.length_append]
  rw [Bytes.slice?, if_pos (by omega), Option.some.injEq, ← Array.toList_inj, Array.toList_extract,
    List.extract_eq_take_drop, hb, List.drop_left, Nat.add_sub_cancel_left, List.take_left]

theorem bytesAt (h : b.Has offset l) : b.bytesAt offset l.length = .ok l.toArray := by
  rw [Bytes.bytesAt, h.slice?]

/-! ## 2. Words -/

theorem wordAt {w n : Nat} (h : b.Has offset (wordBytes w n)) (hn : n < Nat.pow 256 w) :
    b.wordAt w offset = .ok n := by
  have hslice := h.slice?
  rw [length_wordBytes] at hslice
  rw [Bytes.wordAt, Bytes.word?, hslice, Option.map_some, wordValue_wordBytes,
    Nat.mod_eq_of_lt hn]

theorem u8At {v : UInt8} (h : b.Has offset [v]) : b.u8At offset = .ok v := by
  have hword : b.Has offset (wordBytes 1 v.toNat) := by simpa [wordBytes] using h
  rw [Bytes.u8At, hword.wordAt v.toNat_lt, Except.map, UInt8.ofNat_toNat]

theorem u16At {v : UInt16} (h : b.Has offset (wordBytes 2 v.toNat)) : b.u16At offset = .ok v := by
  rw [Bytes.u16At, h.wordAt v.toNat_lt, Except.map, UInt16.ofNat_toNat]

theorem u32At {v : UInt32} (h : b.Has offset (wordBytes 4 v.toNat)) : b.u32At offset = .ok v := by
  rw [Bytes.u32At, h.wordAt v.toNat_lt, Except.map, UInt32.ofNat_toNat]

theorem u64At {v : UInt64} (h : b.Has offset (wordBytes 8 v.toNat)) : b.u64At offset = .ok v := by
  rw [Bytes.u64At, h.wordAt v.toNat_lt, Except.map, UInt64.ofNat_toNat]

theorem i32At {v : Int32} (h : b.Has offset (wordBytes 4 v.toUInt32.toNat)) :
    b.i32At offset = .ok v := by
  rw [Bytes.i32At, h.u32At]
  rfl

theorem i64At {v : Int64} (h : b.Has offset (wordBytes 8 v.toUInt64.toNat)) :
    b.i64At offset = .ok v := by
  rw [Bytes.i64At, h.u64At]
  rfl

theorem singleAt {v : Single} (h : b.Has offset (wordBytes 4 v.bits.toNat)) :
    b.singleAt offset = .ok v := by
  rw [Bytes.singleAt, h.u32At]
  rfl

theorem doubleAt {v : Double} (h : b.Has offset (wordBytes 8 v.bits.toNat)) :
    b.doubleAt offset = .ok v := by
  rw [Bytes.doubleAt, h.u64At]
  rfl

theorem i16At {v : Int16} (h : b.Has offset (wordBytes 2 v.toUInt16.toNat)) :
    b.i16At offset = .ok v := by
  rw [Bytes.i16At, h.u16At]
  rfl

/-- A count that fits two bytes. -/
theorem count {n : Nat} (h : b.Has offset (wordBytes 2 (UInt16.ofNat n).toNat)) (hn : n ≤ 65535) :
    b.u16At offset = .ok (UInt16.ofNat n) ∧ (UInt16.ofNat n).toNat = n :=
  ⟨h.u16At, UInt16.toNat_ofNat_of_lt' (show n < 65536 by omega)⟩

/-- The parts of a list stand one behind another. -/
theorem flatMap {α : Type} {encode : α → List UInt8} {as : List α} {a : α}
    (h : b.Has offset (as.flatMap encode)) (ha : a ∈ as) :
    ∃ o, offset ≤ o ∧ b.Has o (encode a) := by
  obtain ⟨before, after, rfl⟩ := List.append_of_mem ha
  rw [List.flatMap_append, List.flatMap_cons] at h
  exact ⟨_, Nat.le_add_right _ _, h.right.left⟩

/-- A part of a list stands at its place, if all of them are of one length. -/
theorem entry {α : Type} {encode : α → List UInt8} {k : Nat} (hk : ∀ a, (encode a).length = k)
    {as : List α} (h : b.Has offset (as.flatMap encode)) {i : Nat} (hi : i < as.length) :
    b.Has (offset + k * i) (encode as[i]) := by
  induction as generalizing offset i with
  | nil => exact absurd hi (Nat.not_lt_zero _)
  | cons a as ih =>
    rw [List.flatMap_cons] at h
    cases i with
    | zero => exact h.left
    | succ i =>
      have hrest := ih h.right (Nat.lt_of_succ_lt_succ hi)
      rw [hk, Nat.add_assoc, Nat.add_comm k, ← Nat.mul_succ] at hrest
      exact hrest

/-! ## 3. Steps from part to part -/

/-- **A step that moves over each part moves over all of them.** -/
theorem iterate {α : Type} {encode : α → List UInt8} {step : Nat → Except Error Nat} {as : List α}
    (hstep : ∀ a ∈ as, ∀ o, b.Has o (encode a) → step o = .ok (o + (encode a).length))
    (h : b.Has offset (as.flatMap encode)) :
    iterateM step as.length offset = .ok (offset + (as.flatMap encode).length) := by
  induction as generalizing offset with
  | nil => rfl
  | cons a as ih =>
    rw [List.flatMap_cons] at h
    rw [List.length_cons, iterateM, hstep a (by simp) offset h.left, List.flatMap_cons,
      List.length_append, ← Nat.add_assoc]
    exact ih (fun x hx => hstep x (by simp [hx])) h.right

end Bytes.Has

/-- What a step keeps is kept by repeating it. -/
theorem iterateM_keeps {α : Type} {P : α → Prop} {step : α → Except Error α}
    (hstep : ∀ a b, P a → step a = .ok b → P b) {count : Nat} {a b : α} (ha : P a)
    (h : iterateM step count a = .ok b) : P b := by
  induction count generalizing a with
  | zero => exact Except.ok.inj h ▸ ha
  | succ count ih =>
    unfold iterateM at h
    cases hs : step a with
    | error e =>
      rw [hs] at h
      exact nomatch h
    | ok a' =>
      rw [hs] at h
      exact ih (hstep a a' ha hs) h

/-! ## 4. What has been read -/

namespace Bytes.Has

variable {b : Bytes} {offset : Nat} {l l' : List UInt8}

theorem le_size (h : b.Has offset l) : offset + l.length ≤ b.size := by
  obtain ⟨before, after, hb, rfl⟩ := h
  rw [← Array.length_toList, hb, List.length_append, List.length_append]
  omega

theorem nil (h : offset ≤ b.size) : b.Has offset [] :=
  ⟨b.toList.take offset, b.toList.drop offset, (List.take_append_drop offset b.toList).symm, by
    rw [List.length_take, Array.length_toList, Nat.min_eq_left h]⟩

theorem append (h : b.Has offset l) (h' : b.Has (offset + l.length) l') : b.Has offset (l ++ l') := by
  obtain ⟨before, after, hb, rfl⟩ := h
  obtain ⟨before', after', hb', hlength⟩ := h'
  have hsplit : before ++ l = before' :=
    List.append_inj_left (by rw [List.append_assoc, ← hb, hb'])
      (List.length_append.trans hlength.symm)
  refine ⟨before, after', ?_, rfl⟩
  rw [hb', ← hsplit, List.append_assoc, List.append_assoc]

theorem cons {x : UInt8} (h : b.Has offset [x]) (h' : b.Has (offset + 1) l) :
    b.Has offset (x :: l) := h.append h'

end Bytes.Has

/-- **A word tells its digits**: as many digits as it was read from write it again. -/
theorem wordBytes_wordValue (ds : List UInt8) : wordBytes ds.length (wordValue ds) = ds := by
  induction ds using List.reverseRecOn with
  | nil => rfl
  | append_singleton ds d ih =>
    have hd := d.toNat_lt
    have hdiv : (wordValue ds * 256 + d.toNat) / 256 = wordValue ds := by omega
    have hlast : UInt8.ofNat (wordValue ds * 256 + d.toNat) = d := by
      apply UInt8.toNat_inj.1
      rw [UInt8.toNat_ofNat']
      omega
    rw [List.length_append, List.length_singleton, wordValue_append_singleton, wordBytes, hdiv, ih,
      hlast]

namespace Bytes

variable {b : Bytes} {offset : Nat}

theorem has_of_bytesAt {length : Nat} {s : Bytes} (h : b.bytesAt offset length = .ok s) :
    b.Has offset s.toList ∧ s.size = length := by
  unfold bytesAt at h
  cases hslice : b.slice? offset length with
  | none =>
    rw [hslice] at h
    exact nomatch h
  | some s' =>
    rw [hslice] at h
    cases h
    unfold slice? at hslice
    split at hslice
    · rename_i hle
      cases hslice
      refine ⟨⟨b.toList.take offset, b.toList.drop (offset + length), ?_, ?_⟩, ?_⟩
      · rw [Array.toList_extract, List.extract_eq_take_drop, Nat.add_sub_cancel_left,
          ← List.drop_drop, List.take_append_drop, List.take_append_drop]
      · rw [List.length_take, Array.length_toList, Nat.min_eq_left (by omega)]
      · rw [Array.size_extract]
        omega
    · exact nomatch hslice

theorem has_of_wordAt {w n : Nat} (h : b.wordAt w offset = .ok n) :
    b.Has offset (wordBytes w n) ∧ n < Nat.pow 256 w := by
  unfold wordAt word? at h
  cases hslice : b.slice? offset w with
  | none =>
    rw [hslice] at h
    exact nomatch h
  | some s =>
    rw [hslice] at h
    cases h
    obtain ⟨hat, hsize⟩ := has_of_bytesAt (b := b) (by rw [bytesAt, hslice])
    have hlength : s.toList.length = w := Array.length_toList.trans hsize
    refine ⟨?_, hlength ▸ wordValue_lt s.toList⟩
    rw [← hlength, wordBytes_wordValue]
    exact hat

theorem has_of_u8At {v : UInt8} (h : b.u8At offset = .ok v) : b.Has offset [v] := by
  obtain ⟨n, hn, rfl⟩ := map_eq_ok_iff.1 h
  have hat := (has_of_wordAt hn).1
  simpa [wordBytes] using hat

theorem has_of_u16At {v : UInt16} (h : b.u16At offset = .ok v) :
    b.Has offset (wordBytes 2 v.toNat) := by
  obtain ⟨n, hn, rfl⟩ := map_eq_ok_iff.1 h
  obtain ⟨hat, hlt⟩ := has_of_wordAt hn
  rwa [UInt16.toNat_ofNat_of_lt' hlt]

theorem has_of_u32At {v : UInt32} (h : b.u32At offset = .ok v) :
    b.Has offset (wordBytes 4 v.toNat) := by
  obtain ⟨n, hn, rfl⟩ := map_eq_ok_iff.1 h
  obtain ⟨hat, hlt⟩ := has_of_wordAt hn
  rwa [UInt32.toNat_ofNat_of_lt' hlt]

theorem has_of_u64At {v : UInt64} (h : b.u64At offset = .ok v) :
    b.Has offset (wordBytes 8 v.toNat) := by
  obtain ⟨n, hn, rfl⟩ := map_eq_ok_iff.1 h
  obtain ⟨hat, hlt⟩ := has_of_wordAt hn
  rwa [UInt64.toNat_ofNat_of_lt' hlt]

theorem has_of_i32At {v : Int32} (h : b.i32At offset = .ok v) :
    b.Has offset (wordBytes 4 v.toUInt32.toNat) := by
  obtain ⟨n, hn, rfl⟩ := map_eq_ok_iff.1 h
  exact has_of_u32At hn

theorem has_of_i64At {v : Int64} (h : b.i64At offset = .ok v) :
    b.Has offset (wordBytes 8 v.toUInt64.toNat) := by
  obtain ⟨n, hn, rfl⟩ := map_eq_ok_iff.1 h
  exact has_of_u64At hn

theorem has_of_singleAt {v : Single} (h : b.singleAt offset = .ok v) :
    b.Has offset (wordBytes 4 v.bits.toNat) := by
  obtain ⟨n, hn, rfl⟩ := map_eq_ok_iff.1 h
  exact has_of_u32At hn

theorem has_of_doubleAt {v : Double} (h : b.doubleAt offset = .ok v) :
    b.Has offset (wordBytes 8 v.bits.toNat) := by
  obtain ⟨n, hn, rfl⟩ := map_eq_ok_iff.1 h
  exact has_of_u64At hn

end Bytes

/-! ## 5. What is overwritten -/

/-- One byte after another. -/
theorem Bytes.has_iff {b : Bytes} {offset : Nat} {l : List UInt8} :
    b.Has offset l ↔ offset + l.length ≤ b.size ∧ ∀ k < l.length, b[offset + k]? = l[k]? := by
  constructor
  · intro h
    refine ⟨h.le_size, fun k hk => ?_⟩
    obtain ⟨before, after, hb, rfl⟩ := h
    rw [← Array.getElem?_toList, hb, List.getElem?_append_right (Nat.le_add_right ..),
      Nat.add_sub_cancel_left, List.getElem?_append_left hk]
  · rintro ⟨hsize, hget⟩
    have hl : (b.toList.drop offset).take l.length = l := by
      apply List.ext_getElem?
      intro k
      rw [List.getElem?_take]
      split
      · rename_i hk
        rw [List.getElem?_drop, Array.getElem?_toList, hget k hk]
      · rename_i hk
        rw [List.getElem?_eq_none (Nat.le_of_not_lt hk)]
    refine ⟨b.toList.take offset, (b.toList.drop offset).drop l.length, ?_, ?_⟩
    · have hsplit := List.take_append_drop l.length (b.toList.drop offset)
      rw [hl] at hsplit
      rw [hsplit, List.take_append_drop]
    · rw [List.length_take, Array.length_toList]
      omega

/-- The bytes after some of them have been overwritten. -/
theorem Bytes.getElem?_setList (b : Bytes) (position : Nat) (ds : List UInt8) (i : Nat) :
    (b.setList position ds)[i]? =
      if position ≤ i ∧ i < position + ds.length ∧ i < b.size then ds[i - position]? else b[i]? := by
  induction ds generalizing b position with
  | nil => rw [setList, if_neg (by rw [List.length_nil]; omega)]
  | cons d ds ih =>
    rw [setList, ih, Array.size_setIfInBounds, List.length_cons]
    by_cases hi : i = position
    · subst hi
      rw [if_neg (by omega), Array.getElem?_setIfInBounds_self, Nat.sub_self]
      by_cases hsize : i < b.size
      · rw [if_pos hsize, if_pos (by omega)]
        rfl
      · rw [if_neg hsize, if_neg (by omega), Array.getElem?_eq_none (Nat.le_of_not_lt hsize)]
    · rw [Array.getElem?_setIfInBounds_ne (Ne.symm hi)]
      by_cases hin : position + 1 ≤ i ∧ i < position + 1 + ds.length ∧ i < b.size
      · rw [if_pos hin, if_pos (by omega), show i - position = (i - (position + 1)) + 1 by omega,
          List.getElem?_cons_succ]
      · rw [if_neg hin, if_neg (by omega)]

namespace Bytes.Has

variable {b : Bytes} {offset : Nat} {l : List UInt8}

/-- What is appended changes nothing. -/
theorem appended (h : b.Has offset l) {b' : Bytes} (hb : b.toList <+: b'.toList) :
    b'.Has offset l := by
  obtain ⟨before, after, hb', hlength⟩ := h
  obtain ⟨more, hmore⟩ := hb
  exact ⟨before, after ++ more, by rw [← hmore, hb', List.append_assoc, List.append_assoc], hlength⟩

/-- What is written over other bytes stands there. -/
theorem setList (hsize : offset + l.length ≤ b.size) : (b.setList offset l).Has offset l := by
  refine has_iff.2 ⟨by rwa [size_setList], fun k hk => ?_⟩
  rw [getElem?_setList, if_pos (by omega), Nat.add_sub_cancel_left]

/-- What is written elsewhere changes nothing. -/
theorem setList_apart (h : b.Has offset l) {position : Nat} {ds : List UInt8}
    (hapart : position + ds.length ≤ offset ∨ offset + l.length ≤ position) :
    (b.setList position ds).Has offset l := by
  obtain ⟨hsize, hget⟩ := has_iff.1 h
  refine has_iff.2 ⟨by rwa [size_setList], fun k hk => ?_⟩
  rw [getElem?_setList, if_neg (by omega), hget k hk]

end Bytes.Has

/-! ## 6. A class file as a whole -/

/-- A step that is taken once. -/
theorem iterateM_one {α : Type} {step : α → Except Error α} {a b : α} (h : step a = .ok b) :
    iterateM step 1 a = .ok b := by
  rw [iterateM, h]
  rfl

namespace ClassBytes

variable {c : ClassBytes} {i : ConstantIndex} {o : Nat}

/-- The offset of a record is looked up where it was kept. -/
theorem itemOffset_eq_ok_iff : c.itemOffset i = .ok o ↔ c.itemOffsets[i.toNat]? = some o ∧ o ≠ 0 := by
  unfold itemOffset
  split
  · rename_i offset hsome
    rw [hsome, Except.ok.injEq, Option.some.injEq]
    exact ⟨fun h => ⟨h, h ▸ Nat.succ_ne_zero offset⟩, fun h => h.1⟩
  · rename_i hnone
    refine ⟨nofun, fun ⟨hsome, hne⟩ => ?_⟩
    obtain ⟨offset, rfl⟩ := Nat.exists_eq_succ_of_ne_zero hne
    exact absurd hsome (hnone offset)

/-- An index at which no offset was kept still has the 0 that it had at first, and is that of no
record. -/
theorem itemOffset_ne_ok {n : Nat} (h : c.itemOffsets[i.toNat]? = (Array.replicate n 0)[i.toNat]?) :
    c.itemOffset i ≠ .ok o := by
  intro ho
  obtain ⟨hsome, hne⟩ := itemOffset_eq_ok_iff.1 ho
  rw [h, Array.getElem?_replicate] at hsome
  split at hsome
  · exact hne (Option.some.inj hsome).symm
  · cases hsome

end ClassBytes

/-- **A class file is accepted** if its magic number is right and everything in it is found: the
records, the class behind them, and its attributes. -/
theorem ClassBytes.ofBytes_eq_ok {b : Bytes} {count attributes : UInt16} {found : Array Nat}
    {header o o' : Nat} {c : ClassBytes} (hmagic : b.u32At 0 = .ok magicNumber)
    (hcount : b.u16At 8 = .ok count) (hrecords : indexRecords b count.toNat 1 10
      (Array.replicate (max count.toNat 1) 0) = .ok (found, header))
    (hfind : findAttributes b header = .ok o) (hattributes : b.u16At o = .ok attributes)
    (hall : iterateM (fun (c, offset) => c.indexAttribute offset) attributes.toNat
      ((⟨b, found, header, o, #[], none⟩ : ClassBytes), o + 2) = .ok (c, o')) : ofBytes b = .ok c := by
  refine bind_eq_ok_iff.2 ⟨magicNumber, hmagic, ?_⟩
  rw [if_neg (not_not_intro rfl)]
  exact bind_eq_ok_iff.2 ⟨count, hcount, bind_eq_ok_iff.2 ⟨_, hrecords, bind_eq_ok_iff.2 ⟨o, hfind,
    bind_eq_ok_iff.2 ⟨attributes, hattributes, bind_eq_ok_iff.2 ⟨_, hall, rfl⟩⟩⟩⟩⟩

end ClassFile
