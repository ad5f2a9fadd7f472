/-
# What a copied pool has

A record that can be copied stands in the class file as it is written (`Canonical.has_of_recordAt`), as
long as each text there is written in the canonical way.  The records that are copied are those that
were found when the class file was accepted (`Copyable.scanned`), one behind another up to the end of the
pool.  So the copy has a record just where the class file has one, and is written as the same bytes
(`copyOf_records`).

A class file may have equal records, which the operations on a pool never give it.  So copied pools are
not coherent; `Recalls` is what is left of it: of equal records, the first one is remembered.
-/
import ClassFile.Proofs.ClassBytes.Survival
import ClassFile.Proofs.ConstantPool.Copy

namespace ClassFile

/-! ## 1. Records that are read are written there -/

theorem HandleKind.tag_of_ofTag? {b : UInt8} {k : HandleKind} (h : ofTag? b = some k) : k.tag = b :=
  by
  have hk := List.find?_some h
  exact beq_iff_eq.1 hk

namespace ClassBytes

open ConstantPool Constant

variable {c : ClassBytes} {b : Bytes} {p : ConstantPool}

/-- **The texts of a class file are written in the canonical way**: each is what writing some string
gives. -/
def Canonical (c : ClassBytes) : Prop :=
  ∀ i o length s, c.itemOffset i = .ok o → c.bytes.u8At o = .ok Tag.utf8.byte →
    c.bytes.u16At (o + 1) = .ok length → c.bytes.bytesAt (o + 3) length.toNat = .ok s →
    ∃ text, s = ModifiedUtf8.encode text

/-- **No record takes more indices than the class file has.** -/
def Contained (c : ClassBytes) : Prop :=
  ∀ i o tag, c.itemOffset i = .ok o → recordTag c.bytes o = .ok tag →
    i.toNat + tag.width ≤ c.itemCount.toNat

/-- A text that is read is written there. -/
theorem Canonical.has_of_readUtf8 (hc : c.Canonical) {i : ConstantIndex} {text : String}
    (h : c.readUtf8 i = .ok text) : ∃ o, c.itemOffset i = .ok o ∧
      c.bytes.Has o (Constant.utf8 text).encoded ∧ (Constant.utf8 text).Short := by
  obtain ⟨o, htag, h⟩ := bind_eq_ok_iff.1 h
  obtain ⟨o', ho, htag⟩ := bind_eq_ok_iff.1 htag
  obtain ⟨byte, hbyte, htag⟩ := bind_eq_ok_iff.1 htag
  split at htag
  · rename_i hutf8
    cases htag
    subst hutf8
    obtain ⟨length, hlength, h⟩ := bind_eq_ok_iff.1 h
    obtain ⟨s, hs, h⟩ := bind_eq_ok_iff.1 h
    obtain ⟨text', rfl⟩ := hc i o length s ho hbyte hlength hs
    rw [ModifiedUtf8.decode_encode] at h
    cases h
    obtain ⟨hat, hsize⟩ := Bytes.has_of_bytesAt hs
    have hword : UInt16.ofNat (ModifiedUtf8.encode text).size = length := by
      rw [hsize, UInt16.ofNat_toNat]
    refine ⟨o, ho, (Bytes.has_of_u8At hbyte).cons ?_, ?_⟩
    · rw [fieldBytes, hword]
      refine (Bytes.has_of_u16At hlength).append ?_
      rw [length_wordBytes]
      exact hat
    · rintro text' ⟨⟩
      have := length.toNat_lt
      omega
  · cases htag

/-- **A record that can be copied stands where its index says**, as it is written. -/
theorem Canonical.has_of_recordAt (hc : c.Canonical) {n : Nat} {i : ConstantIndex} {k : Constant}
    (h : recordAt c n i = .ok k) :
    ∃ o, c.itemOffset i = .ok o ∧ c.bytes.Has o k.encoded ∧ k.Short := by
  obtain ⟨o, ho, h⟩ := bind_eq_ok_iff.1 h
  obtain ⟨byte, hbyte, h⟩ := bind_eq_ok_iff.1 h
  have htag : ∀ {t : Tag}, Tag.ofByte? byte = some t → c.bytes.Has o [t.byte] := fun ht =>
    Tag.byte_of_ofByte? ht ▸ Bytes.has_of_u8At hbyte
  have hone : ∀ {t : Tag} (make : ConstantIndex → Constant), Tag.ofByte? byte = some t →
      (do return make (← c.bytes.u16At (o + 1)) : Except Error Constant) = .ok k →
      (∀ a, (make a).encoded = t.byte :: wordBytes 2 a.toNat) → (∀ a, (make a).Short) →
      ∃ o, c.itemOffset i = .ok o ∧ c.bytes.Has o k.encoded ∧ k.Short := by
    intro t make ht hk hmake hshort
    obtain ⟨a, ha, hk⟩ := bind_eq_ok_iff.1 hk
    cases hk
    exact ⟨o, ho, hmake a ▸ (htag ht).cons (Bytes.has_of_u16At ha), hshort a⟩
  have htwo : ∀ {t : Tag} {a : UInt16} (make : UInt16 → UInt16 → Constant),
      Tag.ofByte? byte = some t → c.bytes.u16At (o + 1) = .ok a →
      (do return make a (← c.bytes.u16At (o + 3)) : Except Error Constant) = .ok k →
      (∀ a b, (make a b).encoded = t.byte :: (wordBytes 2 a.toNat ++ wordBytes 2 b.toNat)) →
      (∀ a b, (make a b).Short) →
      ∃ o, c.itemOffset i = .ok o ∧ c.bytes.Has o k.encoded ∧ k.Short := by
    intro t a make ht ha hk hmake hshort
    obtain ⟨b, hb, hk⟩ := bind_eq_ok_iff.1 hk
    cases hk
    refine ⟨o, ho, hmake a b ▸ (htag ht).cons ((Bytes.has_of_u16At ha).append ?_), hshort a b⟩
    rw [length_wordBytes]
    exact Bytes.has_of_u16At hb
  split at h
  · exact nomatch h
  · obtain ⟨text, htext, h⟩ := bind_eq_ok_iff.1 h
    cases h
    exact hc.has_of_readUtf8 htext
  · rename_i ht
    obtain ⟨v, hv, h⟩ := bind_eq_ok_iff.1 h
    cases h
    exact ⟨o, ho, (htag ht).cons (Bytes.has_of_i32At hv), nofun⟩
  · rename_i ht
    obtain ⟨v, hv, h⟩ := bind_eq_ok_iff.1 h
    cases h
    exact ⟨o, ho, (htag ht).cons (Bytes.has_of_singleAt hv), nofun⟩
  · rename_i ht
    obtain ⟨v, hv, h⟩ := bind_eq_ok_iff.1 h
    cases h
    exact ⟨o, ho, (htag ht).cons (Bytes.has_of_i64At hv), nofun⟩
  · rename_i ht
    obtain ⟨v, hv, h⟩ := bind_eq_ok_iff.1 h
    cases h
    exact ⟨o, ho, (htag ht).cons (Bytes.has_of_doubleAt hv), nofun⟩
  · rename_i ht
    exact hone .classRef ht h (fun _ => rfl) fun _ => nofun
  · rename_i ht
    exact hone .string ht h (fun _ => rfl) fun _ => nofun
  · rename_i ht
    exact hone .module ht h (fun _ => rfl) fun _ => nofun
  · rename_i ht
    exact hone .package ht h (fun _ => rfl) fun _ => nofun
  · rename_i ht
    exact hone .methodType ht h (fun _ => rfl) fun _ => nofun
  · rename_i ht
    obtain ⟨a, ha, h⟩ := bind_eq_ok_iff.1 h
    exact htwo .fieldRef ht ha h (fun _ _ => rfl) fun _ _ => nofun
  · rename_i ht
    obtain ⟨a, ha, h⟩ := bind_eq_ok_iff.1 h
    exact htwo (.methodRef · · false) ht ha h (fun _ _ => rfl) fun _ _ => nofun
  · rename_i ht
    obtain ⟨a, ha, h⟩ := bind_eq_ok_iff.1 h
    exact htwo (.methodRef · · true) ht ha h (fun _ _ => rfl) fun _ _ => nofun
  · rename_i ht
    obtain ⟨a, ha, h⟩ := bind_eq_ok_iff.1 h
    exact htwo .nameAndType ht ha h (fun _ _ => rfl) fun _ _ => nofun
  · rename_i ht
    obtain ⟨byte', hbyte', h⟩ := bind_eq_ok_iff.1 h
    split at h
    · rename_i kind hkind
      obtain ⟨m, hm, h⟩ := bind_eq_ok_iff.1 h
      cases h
      obtain rfl := HandleKind.tag_of_ofTag? hkind
      exact ⟨o, ho, (htag ht).cons ((Bytes.has_of_u8At hbyte').cons (Bytes.has_of_u16At hm)), nofun⟩
    · exact nomatch h
  · rename_i ht
    obtain ⟨a, ha, h⟩ := bind_eq_ok_iff.1 h
    obtain ⟨_, -, h⟩ := bind_eq_ok_iff.1 h
    exact htwo .dynamic ht ha h (fun _ _ => rfl) fun _ _ => nofun
  · rename_i ht
    obtain ⟨a, ha, h⟩ := bind_eq_ok_iff.1 h
    obtain ⟨_, -, h⟩ := bind_eq_ok_iff.1 h
    exact htwo .invokeDynamic ht ha h (fun _ _ => rfl) fun _ _ => nofun

end ClassBytes

/-! ## 2. What copying leaves behind -/

namespace ConstantPool

open Constant

variable {p p' : ConstantPool} {source : ClassBytes}

/-- **Of equal records the first one is remembered.**  A copied pool may have equal records, which the
operations on a pool never give it. -/
structure Recalls (p : ConstantPool) : Prop where
  laid : p.records.Laid 1
  room : p.records.nextOffset ≤ 65535
  linked : p.lookup.Linked
  placed : ∀ c i, p.lookup.get? c = some i → p.get? i = some c
  first : ∀ c j, p.get? j = some c → ∃ i, p.lookup.get? c = some i ∧ i ≤ j

theorem recalls_empty : empty.Recalls where
  laid := OffsetTable.laid_startingAt 1
  room := by decide
  linked := InternTable.linked_empty
  placed c i hi := by
    have hnone : empty.lookup.get? c = none := InternTable.get?_empty c
    rw [hnone] at hi
    exact nomatch hi
  first c j hj := by simp [get?_empty] at hj

/-- Placing a record, also where an equal one is there. -/
def place (p : ConstantPool) (c : Constant) : ConstantPool :=
  { p with
    records := (p.records.push c).2
    lookup := (p.lookup.insert c (UInt16.ofNat p.records.nextOffset)).2 }

theorem nextOffset_place {c : Constant} (hroom : p.records.nextOffset + width c ≤ 65535) :
    (p.place c).records.nextOffset = p.records.nextOffset + width c :=
  OffsetTable.nextOffset_push (lt_of_room hroom)

theorem Recalls.place (hp : p.Recalls) {c : Constant}
    (hroom : p.records.nextOffset + width c ≤ 65535) : (p.place c).Recalls := by
  have hnext : (UInt16.ofNat p.records.nextOffset).toNat = p.records.nextOffset :=
    UInt16.toNat_ofNat_of_lt' (show p.records.nextOffset < 65536 by omega)
  have hget : ∀ j d, (p.place c).get? j = some d ↔
      p.get? j = some d ∨ j = UInt16.ofNat p.records.nextOffset ∧ d = c := by
    intro j d
    show (p.records.push c).2.get? j.toNat = some d ↔ p.records.get? j.toNat = some d ∨ _
    rw [(hp.laid.push (lt_of_room hroom)).get?_eq_some_iff width_pos, OffsetTable.toList_push, List.mem_append,
      hp.laid.get?_eq_some_iff width_pos, List.mem_singleton, Prod.mk.injEq, ← UInt16.toNat_inj,
      hnext]
  have hlookup : ∀ d, (p.place c).lookup.get? d =
      if d = c then some ((p.lookup.get? c).getD (UInt16.ofNat p.records.nextOffset))
      else p.lookup.get? d := hp.linked.get?_insert c (UInt16.ofNat p.records.nextOffset)
  refine ⟨hp.laid.push (lt_of_room hroom),
    (nextOffset_place hroom).trans_le hroom, hp.linked.insert _ _, fun d i hi => ?_, fun d j hj => ?_⟩
  · rw [hlookup] at hi
    rw [hget]
    split at hi
    · rename_i hd
      subst hd
      cases hold : p.lookup.get? d with
      | some k =>
        rw [hold] at hi
        cases hi
        exact .inl (hp.placed d k hold)
      | none =>
        rw [hold] at hi
        cases hi
        exact .inr ⟨rfl, rfl⟩
    · exact .inl (hp.placed d i hi)
  · rw [hlookup]
    rcases (hget j d).1 hj with hj | ⟨rfl, rfl⟩
    · obtain ⟨i, hi, hij⟩ := hp.first d j hj
      refine ⟨i, ?_, hij⟩
      split
      · rename_i hd
        rw [← hd, hi, Option.getD_some]
      · exact hi
    · rw [if_pos rfl]
      refine ⟨_, rfl, ?_⟩
      cases hold : p.lookup.get? d with
      | none => exact UInt16.le_refl _
      | some k =>
        have hmem := (hp.laid.get?_eq_some_iff width_pos).1 (hp.placed d k hold)
        have hbounds := (hp.laid.bounds hmem).2
        rw [Option.getD_some, UInt16.le_iff_toNat_le, hnext]
        exact Nat.le_trans (Nat.le_add_right _ _) hbounds

/-- **Copying records is placing those of the source in turn.** -/
theorem copyable_of_returns {index : Nat} (hindex : p.records.nextOffset = index)
    (h : Returns (copyRecords source index) p () p') :
    ∃ l, Copyable source p.bootstrap.entries.size index l ∧
      p' = l.foldl (fun p e => p.place e.2) p := by
  generalize hn : source.itemCount.toNat - index = n
  induction n using Nat.strongRecOn generalizing index p with
  | ind n ih =>
    unfold copyRecords at h
    split at h
    · rename_i hlt
      obtain ⟨_, _, hget, h⟩ := returns_bind.1 h
      obtain ⟨rfl, rfl⟩ := returns_get.1 hget
      obtain ⟨c, _, hread, h⟩ := returns_bind.1 h
      obtain ⟨hc, rfl⟩ := returns_lift.1 hread
      obtain ⟨i, p₁, hpush, h⟩ := returns_bind.1 h
      obtain ⟨hroom, rfl, rfl⟩ := returns_push.1 hpush
      obtain ⟨_, p₂, hremember, h⟩ := returns_bind.1 h
      obtain rfl := returns_remember.1 hremember
      have hpos := Constant.width_pos c
      obtain ⟨l, hl, rfl⟩ := ih (source.itemCount.toNat - (index + width c)) (by omega)
        (p := p.place c) (hindex ▸ nextOffset_place hroom) h rfl
      exact ⟨(index, c) :: l, .record hlt hc (hindex ▸ hroom) hl, rfl⟩
    · rename_i hle
      obtain ⟨-, rfl⟩ := returns_pure.1 h
      exact ⟨[], .done (Nat.le_of_not_lt hle), rfl⟩

/-- The records that are copied stand one behind another. -/
theorem Copyable.placed {bootstraps index : Nat} {l : List (Nat × Constant)}
    (h : Copyable source bootstraps index l) (hp : p.Recalls)
    (hindex : p.records.nextOffset = index) :
    (l.foldl (fun p e => p.place e.2) p).Recalls ∧
      (l.foldl (fun p e => p.place e.2) p).records.toList = p.records.toList ++ l := by
  induction h generalizing p with
  | done h => exact ⟨hp, (List.append_nil _).symm⟩
  | @record index c rest h hc hroom hrest ih =>
    obtain ⟨hr, hl⟩ := ih (p := p.place c) (hp.place (hindex ▸ hroom))
      (hindex ▸ nextOffset_place (hindex ▸ hroom))
    refine ⟨hr, hl.trans ?_⟩
    show (p.records.push c).2.toList ++ rest = _
    rw [OffsetTable.toList_push, hindex, List.append_assoc]
    rfl

/-- Copying a bootstrap table leaves the records as they are. -/
theorem records_of_copyBootstrap (b : Bytes) (count offset : Nat) :
    Leads (fun p p' : ConstantPool => p'.records = p.records ∧ p'.lookup = p.lookup)
      (copyBootstrap b count offset) := by
  induction count generalizing offset with
  | zero =>
    intro p u p' hret
    obtain ⟨-, rfl⟩ := returns_pure.1 hret
    exact ⟨rfl, rfl⟩
  | succ count ih =>
    intro p u p' hret
    obtain ⟨handle, _, hread, hret⟩ := returns_bind.1 hret
    obtain ⟨-, rfl⟩ := returns_lift.1 hread
    obtain ⟨length, _, hread, hret⟩ := returns_bind.1 hret
    obtain ⟨-, rfl⟩ := returns_lift.1 hread
    obtain ⟨arguments, _, hread, hret⟩ := returns_bind.1 hret
    obtain ⟨-, rfl⟩ := returns_lift.1 hread
    obtain ⟨k, p₁, hintern, hret⟩ := returns_bind.1 hret
    cases (internBootstrap_apply ⟨handle, arguments⟩ p).symm.trans hintern
    have hrest := ih _ _ _ _ hret
    exact hrest

/-- **A copied pool has the records that can be copied**, and remembers the first of equal ones. -/
theorem copyable_of_copyOf {table : Option Nat} (h : copyOf source table = .ok p) :
    ∃ bootstraps l, Copyable source bootstraps 1 l ∧ p.records.toList = l ∧ p.Recalls := by
  have hcopy : ∃ p₁, p₁.records = empty.records ∧ p₁.lookup = empty.lookup ∧
      Returns (copyRecords source 1) p₁ () p := by
    unfold copyOf at h
    dsimp only at h
    split at h
    · rename_i pool hrun
      cases h
      cases table with
      | none => exact ⟨empty, rfl, rfl, hrun⟩
      | some offset =>
        obtain ⟨count, _, hread, hrest⟩ := returns_bind.1 hrun
        obtain ⟨-, rfl⟩ := returns_lift.1 hread
        obtain ⟨_, p₁, htable, hrecords⟩ := returns_bind.1 hrest
        obtain ⟨hr, hl⟩ := records_of_copyBootstrap _ _ _ _ _ _ htable
        exact ⟨p₁, hr, hl, hrecords⟩
    · exact nomatch h
  obtain ⟨p₁, hrecords, hlookup, hret⟩ := hcopy
  have hp₁ : p₁.Recalls := by
    obtain ⟨records, lookup, bootstrap, types⟩ := p₁
    cases hrecords
    cases hlookup
    exact ⟨recalls_empty.laid, recalls_empty.room, recalls_empty.linked, recalls_empty.placed,
      recalls_empty.first⟩
  obtain ⟨l, hl, rfl⟩ := copyable_of_returns (hrecords ▸ rfl) hret
  obtain ⟨hr, hlist⟩ := hl.placed hp₁ (hrecords ▸ rfl)
  exact ⟨_, l, hl, by rw [hlist, hrecords]; rfl, hr⟩

/-! ## 3. Where the records of the source are -/

open ClassBytes

/-- Walking over records changes no offset of those before. -/
theorem indexRecords_before {b : Bytes} {count index offset header : Nat} {offsets found : Array Nat}
    (h : indexRecords b count index offset offsets = .ok (found, header)) :
    found.size = offsets.size ∧ ∀ i < index, found[i]? = offsets[i]? := by
  generalize hn : count - index = n
  induction n using Nat.strongRecOn generalizing index offset offsets with
  | ind n ih =>
    rw [indexRecords] at h
    split at h
    · obtain ⟨tag, -, h⟩ := bind_eq_ok_iff.1 h
      obtain ⟨length, -, h⟩ := bind_eq_ok_iff.1 h
      have hpos := tag.width_pos
      obtain ⟨hsize, hbefore⟩ := ih (count - (index + tag.width)) (by omega) h rfl
      refine ⟨hsize.trans (by simp), fun i hi => ?_⟩
      rw [hbefore i (by omega), Array.getElem?_setIfInBounds, if_neg (by omega)]
    · cases h
      exact ⟨rfl, fun _ _ => rfl⟩

/-- **The records that can be copied are those that were found**, as they stand one behind another up
to the end of the pool. -/
theorem Copyable.scanned (hcanonical : source.Canonical) (hcontained : source.Contained)
    {bootstraps index : Nat} {l : List (Nat × Constant)} (h : Copyable source bootstraps index l) :
    ∀ {offset header : Nat} {offsets : Array Nat}, index ≤ source.itemCount.toNat →
      offset ≤ source.bytes.size →
      indexRecords source.bytes source.itemCount.toNat index offset offsets =
        .ok (source.itemOffsets, header) →
      OffsetTable.Consecutive index l source.itemCount.toNat ∧
      source.bytes.Has offset (l.flatMap fun e => e.2.encoded) ∧
      header = offset + (l.flatMap fun e => e.2.encoded).length ∧
      ∀ i, (∀ e ∈ l, e.1 ≠ i) → source.itemOffsets[i]? = offsets[i]? := by
  induction h with
  | @done index hle =>
    intro offset header offsets hindex hle' hrun
    rw [indexRecords, if_neg (Nat.not_lt_of_le hle)] at hrun
    cases hrun
    exact ⟨Nat.le_antisymm hindex hle, .nil hle', rfl, fun _ _ => rfl⟩
  | @record index c rest hlt hc hroom hrest ih =>
    intro offset header offsets hindex _ hrun
    have hnat : (UInt16.ofNat index).toNat = index :=
      UInt16.toNat_ofNat_of_lt' (show index < 65536 by omega)
    rw [indexRecords, if_pos hlt] at hrun
    obtain ⟨tag, htag, hrun⟩ := bind_eq_ok_iff.1 hrun
    obtain ⟨length, hlength, hrun⟩ := bind_eq_ok_iff.1 hrun
    obtain ⟨hsize, hbefore⟩ := indexRecords_before hrun
    obtain ⟨o, ho, hat, hshort⟩ := hcanonical.has_of_recordAt hc
    obtain rfl : o = offset := by
      have hpos := tag.width_pos
      have hsome := (itemOffset_eq_ok_iff.1 ho).1
      rw [hnat, hbefore index (by omega), Array.getElem?_setIfInBounds, if_pos rfl] at hsome
      split at hsome
      · exact (Option.some.inj hsome).symm
      · cases hsome
    cases (recordTag_encoded hat).symm.trans htag
    cases (recordLength_encoded hshort hat).symm.trans hlength
    have hle := hcontained _ o c.tag ho htag
    rw [hnat] at hle
    obtain ⟨hconsecutive, hbehind, rfl, hother⟩ := ih hle hat.le_size hrun
    refine ⟨⟨rfl, hconsecutive⟩, ?_, ?_, fun i hi => ?_⟩
    · rw [List.flatMap_cons]
      exact hat.append hbehind
    · rw [List.flatMap_cons, List.length_append, Nat.add_assoc]
    · rw [hother i fun e he => hi e (by simp [he]), Array.getElem?_setIfInBounds,
        if_neg (hi (index, c) (by simp))]

/-! ## 4. The copy of a class file -/

/-- The copy has a record just where the reader has one, and its records are the bytes of the source
from the count of the pool on. -/
theorem copyOf_records {b : Bytes} (hsource : ofBytes b = .ok source) (hcount : b.u16At 8 ≠ .ok 0)
    (hcontained : source.Contained) (hcanonical : source.Canonical) {table : Option Nat}
    (hcopy : copyOf source table = .ok p) :
    p.Recalls ∧ (∀ i, (∃ k, p.get? i = some k) ↔ ∃ o, source.itemOffset i = .ok o) ∧
      b.u16At 8 = .ok p.count ∧ b.bytesAt 8 (source.header - 8) = .ok (p.put .empty) := by
  obtain ⟨rfl, ⟨count, hread, hrun⟩, -⟩ := located_of_ofBytes hsource
  obtain ⟨bootstraps, l, hl, hlist, hp⟩ := copyable_of_copyOf hcopy
  have hpos : 0 < count.toNat := by
    refine Nat.pos_of_ne_zero fun hzero => hcount ?_
    rw [hread, show count = 0 from UInt16.toNat_inj.1 hzero]
  have hsize : source.itemOffsets.size = count.toNat := by
    rw [(indexRecords_before hrun).1, Array.size_replicate]
    omega
  have hitems : source.itemCount = count := by
    rw [ClassBytes.itemCount, hsize, UInt16.ofNat_toNat]
  rw [show max count.toNat 1 = count.toNat by omega, ← hitems] at hrun
  have hat := Bytes.has_of_u16At hread
  obtain ⟨hconsecutive, hrecords, hheader, hother⟩ := hl.scanned hcanonical hcontained
    (show 1 ≤ source.itemCount.toNat by rw [hitems]; omega) hat.le_size hrun
  have hlength : source.header = 10 + (l.flatMap fun e => e.2.encoded).length := hheader
  have hnext : p.records.nextOffset = count.toNat := by
    have hlaid := hp.laid.stop_eq
    have hstop := hconsecutive.stop_eq
    rw [hlist] at hlaid
    rw [hlaid, ← hstop, hitems]
  have hcount' : p.count = count := by rw [ConstantPool.count, hnext, UInt16.ofNat_toNat]
  refine ⟨hp, fun i => ⟨?_, ?_⟩, hcount' ▸ hread, ?_⟩
  · rintro ⟨k, hk⟩
    have hmem := (hp.laid.get?_eq_some_iff width_pos).1 hk
    rw [hlist] at hmem
    have hcopied : ∀ {index : Nat} {l : List (Nat × Constant)}, Copyable source bootstraps index l →
        (i.toNat, k) ∈ l → recordAt source bootstraps i = .ok k := by
      intro index l hl
      induction hl with
      | done => simp
      | @record index c rest _ hc _ _ ih =>
        intro hmem
        rcases List.mem_cons.1 hmem with heq | hmem
        · cases heq
          rwa [UInt16.ofNat_toNat] at hc
        · exact ih hmem
    obtain ⟨o, ho, -⟩ := hcanonical.has_of_recordAt (hcopied hl hmem)
    exact ⟨o, ho⟩
  · rintro ⟨o, ho⟩
    by_contra hnone
    exact itemOffset_ne_ok (hother i.toNat fun e he hi => hnone ⟨e.2,
      (hp.laid.get?_eq_some_iff width_pos).2 (hlist ▸ hi ▸ he)⟩) ho
  · have hall := hat.append (show source.bytes.Has (8 + _) _ by
      rw [length_wordBytes]
      exact hrecords)
    have hbytes := hall.bytesAt
    rw [List.length_append, length_wordBytes] at hbytes
    rw [show source.header - 8 = 2 + (l.flatMap fun e => e.2.encoded).length by omega, hbytes,
      Except.ok.injEq, ← Array.toList_inj, ConstantPool.toList_put, hcount', hlist]
    rfl

/-- Asking for a record that is there gives the first index that it has, and adds nothing. -/
theorem Recalls.intern_again (hp : p.Recalls) {j : ConstantIndex} {k : Constant}
    (hj : p.get? j = some k) :
    ∃ i, (p.get? i = some k ∧ ∀ j, p.get? j = some k → i ≤ j) ∧ Returns (intern k) p i p := by
  obtain ⟨i, hi, -⟩ := hp.first k j hj
  refine ⟨i, ⟨hp.placed k i hi, fun j' hj' => ?_⟩, returns_intern.2 (.inl ⟨hi, rfl⟩)⟩
  obtain ⟨i', hi', hle⟩ := hp.first k j' hj'
  cases hi.symm.trans hi'
  exact hle

end ConstantPool

end ClassFile
