/-
# The records of a class file that was accepted

The walk over the records of a pool takes the length of a record from its tag, or from the two bytes
behind the tag, and goes on behind the record without asking whether the input reaches that far
(`indexRecords`).  What it finds are records that adjoin: each begins where the one before it ends, in the
numbering as well as in the bytes (`indexRecords_adjoining`).  If the last of them is cut off, the walk does
not notice.

What notices is the search for the attributes of the class, which reads behind the last record
(`header_le`).  So in a class file that was accepted every record is inside of the input (`Whole`), and no
reading of records can run out of it (`Supplied`), whatever index it starts from.  It may fail all the
same: an index in a record may be that of no record or of one of another kind, and what should be a text
may not be one.
-/
import ClassFile.Proofs.ClassBytes.Assembled
import ClassFile.Proofs.ClassBytes.Copied

namespace ClassFile

/-! ## 1. Readings that do not run out of input -/

/-- The reading does not run out of input; it may fail for another reason. -/
def Supplied {α : Type} (x : Except Error α) : Prop :=
  ∀ offset needed, x ≠ .error (.unexpectedEof offset needed)

namespace Supplied

variable {α β : Type} {x : Except Error α}

theorem ok (a : α) : Supplied (.ok a : Except Error α) := nofun

theorem error {e : Error} (he : ∀ offset needed, e ≠ .unexpectedEof offset needed) :
    Supplied (.error e : Except Error α) :=
  fun offset needed h => he offset needed (Except.error.inj h)

/-- What comes second need only be looked at for what the first reading gives. -/
theorem bind {f : α → Except Error β} (hx : Supplied x) (hf : ∀ a, x = .ok a → Supplied (f a)) :
    Supplied (x >>= f) := by
  intro offset needed h
  rcases bind_eq_error_iff.1 h with h | ⟨a, ha, h⟩
  · exact hx offset needed h
  · exact hf a ha offset needed h

theorem map {f : α → β} (hx : Supplied x) : Supplied (x.map f) := by
  cases x with
  | error e => exact error fun offset needed he => hx offset needed (he ▸ rfl)
  | ok a => exact ok (f a)

end Supplied

namespace Bytes

variable {b : Bytes} {offset : Nat}

theorem supplied_bytesAt {length : Nat} (h : offset + length ≤ b.size) :
    Supplied (b.bytesAt offset length) := by
  unfold bytesAt
  split
  · exact .ok _
  · rename_i hnone
    exact absurd (slice?_eq_none_iff.1 hnone) (Nat.not_lt.2 h)

theorem supplied_wordAt {w : Nat} (h : offset + w ≤ b.size) : Supplied (b.wordAt w offset) := by
  unfold wordAt
  split
  · exact .ok _
  · rename_i hnone
    exact absurd (word?_eq_none_iff.1 hnone) (Nat.not_lt.2 h)

theorem supplied_u8At (h : offset + 1 ≤ b.size) : Supplied (b.u8At offset) :=
  (supplied_wordAt h).map

theorem supplied_u16At (h : offset + 2 ≤ b.size) : Supplied (b.u16At offset) :=
  (supplied_wordAt h).map

theorem supplied_i32At (h : offset + 4 ≤ b.size) : Supplied (b.i32At offset) :=
  (supplied_wordAt h).map.map

theorem supplied_i64At (h : offset + 8 ≤ b.size) : Supplied (b.i64At offset) :=
  (supplied_wordAt h).map.map

theorem supplied_singleAt (h : offset + 4 ≤ b.size) : Supplied (b.singleAt offset) :=
  (supplied_wordAt h).map.map

theorem supplied_doubleAt (h : offset + 8 ≤ b.size) : Supplied (b.doubleAt offset) :=
  (supplied_wordAt h).map.map

end Bytes

/-! ## 2. Records that adjoin -/

/-- A record that the walk over a pool finds: its index and its offset, and its tag and its length. -/
structure PoolRecord where
  index : Nat
  offset : Nat
  tag : Constant.Tag
  length : Nat
  deriving DecidableEq, Repr

/-- The tag is the one that stands at the offset, and the length is the one that goes with it. -/
structure PoolRecord.Stands (b : Bytes) (r : PoolRecord) : Prop where
  tag : recordTag b r.offset = .ok r.tag
  length : recordLength b r.offset r.tag = .ok r.length

/-- **Records one behind another**, from an index and an offset on: the first one has these, and the next
one has the index and the offset behind it.  Behind the last one, the indices below `count` are used up,
and `stop` is its end. -/
def Adjoining (b : Bytes) (count : Nat) : Nat → Nat → List PoolRecord → Nat → Prop
  | index, offset, [], stop => count ≤ index ∧ offset = stop
  | index, offset, r :: rest, stop =>
      index < count ∧ r.index = index ∧ r.offset = offset ∧ r.Stands b ∧
        Adjoining b count (index + r.tag.width) (offset + r.length) rest stop

/-- There is no record without a tag and two more bytes. -/
theorem three_le_of_recordLength {b : Bytes} {offset length : Nat} {tag : Constant.Tag}
    (h : recordLength b offset tag = .ok length) : 3 ≤ length := by
  cases tag
  case utf8 =>
    obtain ⟨n, -, rfl⟩ := map_eq_ok_iff.1 h
    exact Nat.le_add_right 3 n.toNat
  all_goals
    cases h
    decide

namespace Adjoining

variable {b : Bytes} {count index offset stop : Nat} {rs : List PoolRecord} {r s : PoolRecord}

theorem le (h : Adjoining b count index offset rs stop) : offset ≤ stop := by
  induction rs generalizing index offset with
  | nil => exact Nat.le_of_eq h.2
  | cons r rs ih => exact Nat.le_trans (Nat.le_add_right _ _) (ih h.2.2.2.2)

/-- Each record is read off where it is. -/
theorem stands (h : Adjoining b count index offset rs stop) (hr : r ∈ rs) : r.Stands b := by
  induction rs generalizing index offset with
  | nil => cases hr
  | cons a rs ih =>
    rcases List.mem_cons.1 hr with rfl | hr
    · exact h.2.2.2.1
    · exact ih h.2.2.2.2 hr

/-- Each record is in the range of the indices and in the range of the bytes. -/
theorem bounds (h : Adjoining b count index offset rs stop) (hr : r ∈ rs) :
    index ≤ r.index ∧ r.index < count ∧ offset ≤ r.offset ∧ r.offset + r.length ≤ stop := by
  induction rs generalizing index offset with
  | nil => cases hr
  | cons a rs ih =>
    obtain ⟨hlt, rfl, rfl, -, hrest⟩ := h
    rcases List.mem_cons.1 hr with rfl | hr
    · exact ⟨Nat.le_refl _, hlt, Nat.le_refl _, hrest.le⟩
    · obtain ⟨hindex, hcount, hoffset, hstop⟩ := ih hrest hr
      exact ⟨Nat.le_trans (Nat.le_add_right _ _) hindex, hcount,
        Nat.le_trans (Nat.le_add_right _ _) hoffset, hstop⟩

/-- **The record with the smaller index ends before the other one begins.** -/
theorem apart (h : Adjoining b count index offset rs stop) (hr : r ∈ rs) (hs : s ∈ rs)
    (hlt : r.index < s.index) : r.offset + r.length ≤ s.offset := by
  induction rs generalizing index offset with
  | nil => cases hr
  | cons a rs ih =>
    obtain ⟨-, rfl, rfl, -, hrest⟩ := h
    rcases List.mem_cons.1 hr with rfl | hr' <;> rcases List.mem_cons.1 hs with rfl | hs'
    · exact absurd hlt (Nat.lt_irrefl _)
    · exact (hrest.bounds hs').2.2.1
    · have hbehind := (hrest.bounds hr').1
      omega
    · exact ih hrest hr' hs'

end Adjoining

/-- **The walk over a pool finds records that adjoin.**  Each offset is kept at the index of its record, and
nothing is kept elsewhere. -/
theorem indexRecords_adjoining {b : Bytes} {count index offset header : Nat} {offsets found : Array Nat}
    (h : indexRecords b count index offset offsets = .ok (found, header))
    (hsize : count ≤ offsets.size) : ∃ rs, Adjoining b count index offset rs header ∧
      (∀ r ∈ rs, found[r.index]? = some r.offset) ∧
      ∀ i, (∀ r ∈ rs, r.index ≠ i) → found[i]? = offsets[i]? := by
  induction index, offset, offsets using indexRecords.induct count with
  | case1 index offset offsets hlt ih =>
    rw [indexRecords, if_pos hlt] at h
    obtain ⟨tag, htag, h⟩ := bind_eq_ok_iff.1 h
    obtain ⟨length, hlength, h⟩ := bind_eq_ok_iff.1 h
    obtain ⟨rs, hrs, hkept, hother⟩ := ih tag length h (by simpa using hsize)
    have hpos := tag.width_pos
    have hhead : found[index]? = some offset := by
      rw [(ConstantPool.indexRecords_before h).2 index (by omega), Array.getElem?_setIfInBounds,
        if_pos rfl, if_pos (by omega)]
    refine ⟨⟨index, offset, tag, length⟩ :: rs, ⟨hlt, rfl, rfl, ⟨htag, hlength⟩, hrs⟩, fun r hr => ?_,
      fun i hi => ?_⟩
    · rcases List.mem_cons.1 hr with rfl | hr
      · exact hhead
      · exact hkept r hr
    · rw [hother i fun r hr => hi r (List.mem_cons_of_mem _ hr), Array.getElem?_setIfInBounds,
        if_neg (hi _ List.mem_cons_self)]
  | case2 index offset offsets hge =>
    rw [indexRecords, if_neg hge] at h
    cases h
    exact ⟨[], ⟨Nat.le_of_not_lt hge, rfl⟩, fun r hr => absurd hr List.not_mem_nil, fun _ _ => rfl⟩

namespace ClassBytes

open ConstantPool

variable {c : ClassBytes} {i : ConstantIndex}

/-! ## 3. Reading whole records -/

/-- **Every record is inside of the input**, from its tag to the end that the tag implies. -/
def Whole (c : ClassBytes) : Prop := ∀ i o, c.itemOffset i = .ok o →
  ∃ tag length, recordTag c.bytes o = .ok tag ∧ recordLength c.bytes o tag = .ok length ∧
    o + length ≤ c.bytes.size

theorem supplied_itemOffset (c : ClassBytes) (i : ConstantIndex) : Supplied (c.itemOffset i) := by
  unfold itemOffset
  split
  · exact .ok _
  · exact .error nofun

namespace Whole

/-- There are at least three bytes of a record. -/
theorem three_le (h : c.Whole) {o : Nat} (ho : c.itemOffset i = .ok o) : o + 3 ≤ c.bytes.size := by
  obtain ⟨tag, length, -, hlength, hle⟩ := h i o ho
  have := three_le_of_recordLength hlength
  omega

theorem supplied_tag (h : c.Whole) {o : Nat} (ho : c.itemOffset i = .ok o) :
    Supplied (c.bytes.u8At o) := by
  have := h.three_le ho
  exact Bytes.supplied_u8At (by omega)

/-- A record with a tag that was looked at is as long as the tag implies. -/
theorem length (h : c.Whole) {o : Nat} {byte : UInt8} {tag : Constant.Tag}
    (ho : c.itemOffset i = .ok o) (hbyte : c.bytes.u8At o = .ok byte)
    (htag : Constant.Tag.ofByte? byte = some tag) :
    ∃ length, recordLength c.bytes o tag = .ok length ∧ o + length ≤ c.bytes.size := by
  obtain ⟨tag', length, htag', hlength, hle⟩ := h i o ho
  obtain rfl : tag' = tag := by
    obtain ⟨byte', hbyte', htag'⟩ := bind_eq_ok_iff.1 htag'
    cases hbyte.symm.trans hbyte'
    rw [htag] at htag'
    exact (Except.ok.inj htag').symm
  exact ⟨length, hlength, hle⟩

theorem supplied_itemWithTag (h : c.Whole) (tag : Constant.Tag) (expected : Expected) :
    Supplied (c.itemWithTag i tag expected) := by
  refine (c.supplied_itemOffset i).bind fun o ho => (h.supplied_tag ho).bind fun byte _ => ?_
  split
  · exact .ok _
  · exact .error nofun

/-- A record that has the tag it has to have is as long as the tag implies. -/
theorem length_of_itemWithTag (h : c.Whole) {tag : Constant.Tag} {expected : Expected} {o : Nat}
    (ho : c.itemWithTag i tag expected = .ok o) :
    ∃ length, recordLength c.bytes o tag = .ok length ∧ o + length ≤ c.bytes.size := by
  obtain ⟨o', ho', hrest⟩ := bind_eq_ok_iff.1 ho
  obtain ⟨byte, hbyte, hrest⟩ := bind_eq_ok_iff.1 hrest
  split at hrest
  · rename_i htag
    cases hrest
    exact h.length ho' hbyte (htag ▸ tag.ofByte?_byte)
  · cases hrest

theorem supplied_readUtf8 (h : c.Whole) (i : ConstantIndex) : Supplied (c.readUtf8 i) := by
  refine (h.supplied_itemWithTag .utf8 .utf8).bind fun o ho => ?_
  obtain ⟨length, hlength, hle⟩ := h.length_of_itemWithTag ho
  obtain ⟨n, hn, rfl⟩ := map_eq_ok_iff.1 hlength
  refine (Bytes.supplied_u16At (by omega)).bind fun n' hn' => ?_
  cases hn.symm.trans hn'
  refine (Bytes.supplied_bytesAt (by omega)).bind fun s _ => ?_
  split
  · exact .ok _
  · exact .error nofun

theorem supplied_utf8At (h : c.Whole) {offset : Nat} (hle : offset + 2 ≤ c.bytes.size) :
    Supplied (c.utf8At offset) :=
  (Bytes.supplied_u16At hle).bind fun i _ => h.supplied_readUtf8 i

theorem supplied_readClass (h : c.Whole) (i : ConstantIndex) : Supplied (c.readClass i) := by
  refine (h.supplied_itemWithTag .classRef .classRef).bind fun o ho => ?_
  obtain ⟨_, ⟨⟩, hle⟩ := h.length_of_itemWithTag ho
  exact h.supplied_utf8At (by omega)

theorem supplied_readNameAndType (h : c.Whole) (i : ConstantIndex) :
    Supplied (c.readNameAndType i) := by
  refine (h.supplied_itemWithTag .nameAndType .nameAndType).bind fun o ho => ?_
  obtain ⟨_, ⟨⟩, hle⟩ := h.length_of_itemWithTag ho
  refine (h.supplied_utf8At (by omega)).bind fun name _ => ?_
  exact (h.supplied_utf8At (by omega)).bind fun descriptor _ => .ok _

theorem supplied_readMember (h : c.Whole) (i : ConstantIndex) : Supplied (c.readMember i) := by
  refine (c.supplied_itemOffset i).bind fun o ho => (h.supplied_tag ho).bind fun byte hbyte => ?_
  cases htag : Constant.Tag.ofByte? byte with
  | none => exact .error nofun
  | some tag =>
    cases tag
    -- the three kinds of references are equally long
    case fieldRef | methodRef | interfaceMethodRef =>
      obtain ⟨_, ⟨⟩, hle⟩ := h.length ho hbyte htag
      refine (Bytes.supplied_u16At (by omega)).bind fun owner _ => ?_
      refine (h.supplied_readClass owner).bind fun _ _ => ?_
      refine (Bytes.supplied_u16At (by omega)).bind fun nameAndType _ => ?_
      exact (h.supplied_readNameAndType nameAndType).bind fun _ _ => .ok _
    all_goals exact .error nofun

theorem supplied_readMethodHandle (h : c.Whole) (i : ConstantIndex) :
    Supplied (c.readMethodHandle i) := by
  refine (h.supplied_itemWithTag .methodHandle .methodHandle).bind fun o ho => ?_
  obtain ⟨_, ⟨⟩, hle⟩ := h.length_of_itemWithTag ho
  refine (Bytes.supplied_u8At (by omega)).bind fun kind _ => ?_
  split
  · exact .error nofun
  · refine (Bytes.supplied_u16At (by omega)).bind fun member _ => ?_
    exact (h.supplied_readMember member).bind fun _ _ => .ok _

/-- **Copying a record** does not run out of input, however long the bootstrap table of the copy is. -/
theorem supplied_recordAt (h : c.Whole) (bootstraps : Nat) (i : ConstantIndex) :
    Supplied (recordAt c bootstraps i) := by
  refine (c.supplied_itemOffset i).bind fun o ho => (h.supplied_tag ho).bind fun byte hbyte => ?_
  have hone : ∀ make : ConstantIndex → Constant,
      Supplied (do return make (← c.bytes.u16At (o + 1)) : Except Error Constant) := fun make =>
    (Bytes.supplied_u16At (h.three_le ho)).bind fun _ _ => .ok _
  have htwo : ∀ make : UInt16 → UInt16 → Constant, o + 5 ≤ c.bytes.size →
      Supplied (do return make (← c.bytes.u16At (o + 1)) (← c.bytes.u16At (o + 3)) :
        Except Error Constant) := fun make hle =>
    (Bytes.supplied_u16At (by omega)).bind fun _ _ =>
      (Bytes.supplied_u16At (by omega)).bind fun _ _ => .ok _
  have hentry : ∀ make : UInt16 → UInt16 → Constant, o + 5 ≤ c.bytes.size → Supplied (do
      let bootstrap ← c.bytes.u16At (o + 1)
      (if bootstrap.toNat < bootstraps then .ok () else .error (.missingBootstrapMethod bootstrap) :
        Except Error Unit)
      return make bootstrap (← c.bytes.u16At (o + 3)) : Except Error Constant) := by
    intro make hle
    refine (Bytes.supplied_u16At (by omega)).bind fun bootstrap _ => Supplied.bind ?_ fun _ _ =>
      (Bytes.supplied_u16At (by omega)).bind fun _ _ => .ok _
    split
    · exact .ok _
    · exact .error nofun
  cases htag : Constant.Tag.ofByte? byte with
  | none => exact .error nofun
  | some tag =>
    obtain ⟨length, hlength, hle⟩ := h.length ho hbyte htag
    cases tag
    case utf8 => exact (h.supplied_readUtf8 i).bind fun _ _ => .ok _
    case integer =>
      cases hlength
      exact (Bytes.supplied_i32At (by omega)).bind fun _ _ => .ok _
    case float =>
      cases hlength
      exact (Bytes.supplied_singleAt (by omega)).bind fun _ _ => .ok _
    case long =>
      cases hlength
      exact (Bytes.supplied_i64At hle).bind fun _ _ => .ok _
    case double =>
      cases hlength
      exact (Bytes.supplied_doubleAt hle).bind fun _ _ => .ok _
    case classRef | string | methodType | module | package => exact hone _
    case fieldRef | methodRef | interfaceMethodRef | nameAndType =>
      cases hlength
      exact htwo _ hle
    case methodHandle =>
      cases hlength
      refine (Bytes.supplied_u8At (by omega)).bind fun kind _ => ?_
      split
      · exact (Bytes.supplied_u16At (by omega)).bind fun _ _ => .ok _
      · exact .error nofun
    case dynamic | invokeDynamic =>
      cases hlength
      exact hentry _ hle

end Whole

/-! ## 4. Class files that were accepted -/

/-- The search for the attributes of the class reads the header behind the pool. -/
theorem header_le {b : Bytes} {header o : Nat} (h : findAttributes b header = .ok o) :
    header + 8 ≤ b.size := by
  obtain ⟨interfaces, hinterfaces, -⟩ := bind_eq_ok_iff.1 h
  exact (Bytes.has_of_u16At hinterfaces).le_size

/-- **What was found when a class file was accepted**: records that adjoin up to the class behind the pool,
and they are just those that are looked up. -/
theorem adjoining_of_ofBytes {b : Bytes} (h : ofBytes b = .ok c) : ∃ count rs,
    b.u16At 8 = .ok count ∧ Adjoining b count.toNat 1 10 rs c.header ∧
      ∀ i o, c.itemOffset i = .ok o ↔ ∃ r ∈ rs, r.index = i.toNat ∧ r.offset = o := by
  obtain ⟨-, ⟨count, hcount, hfound⟩, -⟩ := located_of_ofBytes h
  obtain ⟨rs, hrs, hkept, hother⟩ := indexRecords_adjoining hfound (by simp)
  refine ⟨count, rs, hcount, hrs, fun i o => ⟨fun ho => ?_, ?_⟩⟩
  · by_contra hnone
    refine itemOffset_ne_ok (hother i.toNat fun r hr hi => hnone ⟨r, hr, hi, ?_⟩) ho
    have hoffset := hkept r hr
    rw [hi, (itemOffset_eq_ok_iff.1 ho).1] at hoffset
    exact (Option.some.inj hoffset).symm
  · rintro ⟨r, hr, hi, rfl⟩
    have hle := (hrs.bounds hr).2.2.1
    exact itemOffset_eq_ok_iff.2 ⟨hi ▸ hkept r hr, by omega⟩

/-- **In a class file that was accepted every record is inside of the input.** -/
theorem whole_of_ofBytes {b : Bytes} (h : ofBytes b = .ok c) : c.Whole := by
  obtain ⟨count, rs, -, hrs, hoffset⟩ := adjoining_of_ofBytes h
  obtain ⟨hbytes, -, hattributes⟩ := located_of_ofBytes h
  intro i o ho
  obtain ⟨r, hr, -, rfl⟩ := (hoffset i o).1 ho
  have hstands := hrs.stands hr
  have hstop := (hrs.bounds hr).2.2.2
  have hheader := header_le hattributes
  rw [hbytes]
  exact ⟨r.tag, r.length, hstands.tag, hstands.length, by omega⟩

/-- **The records of a class file that was accepted are complete.**  Their offsets go up with their indices,
each ends where the next one begins, and the last one ends at the class behind the pool, of which the
header is inside of the input.  The index of a record is its first one, and no other index is that of a
record.  And no reading of a record, from any index, runs out of input, nor does copying one. -/
theorem ofBytes_complete {b : Bytes} (h : ofBytes b = .ok c) :
    (∃ count rs, b.u16At 8 = .ok count ∧ Adjoining b count.toNat 1 10 rs c.header ∧
      ∀ i o, c.itemOffset i = .ok o ↔ ∃ r ∈ rs, r.index = i.toNat ∧ r.offset = o) ∧
    (∀ i j o o', c.itemOffset i = .ok o → c.itemOffset j = .ok o' → i < j → o < o') ∧
    c.header + 8 ≤ b.size ∧
    ∀ i, Supplied (c.readUtf8 i) ∧ Supplied (c.readClass i) ∧ Supplied (c.readNameAndType i) ∧
      Supplied (c.readMember i) ∧ Supplied (c.readMethodHandle i) ∧
      ∀ bootstraps, Supplied (recordAt c bootstraps i) := by
  have hwhole := whole_of_ofBytes h
  obtain ⟨count, rs, hcount, hrs, hoffset⟩ := adjoining_of_ofBytes h
  refine ⟨⟨count, rs, hcount, hrs, hoffset⟩, fun i j o o' ho ho' hij => ?_,
    header_le (located_of_ofBytes h).2.2, fun i => ⟨hwhole.supplied_readUtf8 i,
      hwhole.supplied_readClass i, hwhole.supplied_readNameAndType i, hwhole.supplied_readMember i,
      hwhole.supplied_readMethodHandle i, fun bootstraps => hwhole.supplied_recordAt bootstraps i⟩⟩
  obtain ⟨r, hr, hri, rfl⟩ := (hoffset i o).1 ho
  obtain ⟨s, hs, hsj, rfl⟩ := (hoffset j o').1 ho'
  have hapart := hrs.apart hr hs (by rw [hri, hsj]; exact UInt16.lt_iff_toNat_lt.1 hij)
  have hlength := three_le_of_recordLength (hrs.stands hr).length
  omega

/-- A class file with a number that takes the indices 1 and 2, and a text at the index 3. -/
def wideBytes : Bytes :=
  #[0xca, 0xfe, 0xba, 0xbe, 0, 0, 0, 55, 0, 4, 5, 0, 0, 0, 0, 0, 0, 0, 7, 1, 0, 1, 0x54, 0, 0x21, 0, 0,
    0, 0, 0, 0, 0, 0, 0, 0, 0, 0]

/-- The same class file with where things are in it. -/
def wideSource : ClassBytes := ⟨wideBytes, #[0, 10, 0, 19], 23, 35, #[], none⟩

theorem ofBytes_wide : ofBytes wideBytes = .ok wideSource := by
  have hmagic : wideBytes.u32At 0 = .ok magicNumber := by decide +kernel
  have hcount : wideBytes.u16At 8 = .ok 4 := by decide +kernel
  have hrecords : indexRecords wideBytes 4 1 10 (Array.replicate 4 0) =
      .ok (wideSource.itemOffsets, 23) := by decide +kernel
  have hfind : findAttributes wideBytes 23 = .ok 35 := by decide +kernel
  have hattributes : wideBytes.u16At 35 = .ok 0 := by decide +kernel
  exact ofBytes_eq_ok hmagic hcount hrecords hfind hattributes rfl

/-- The second index of the number is that of no record; the text is no class, but asking for one does not
run out of input. -/
theorem ofBytes_complete_wide : ofBytes wideBytes = .ok wideSource ∧
    wideSource.itemOffset 1 = .ok 10 ∧ wideSource.itemOffset 2 = .error (.invalidConstantIndex 2) ∧
    wideSource.itemOffset 3 = .ok 19 ∧ (10 : Nat) < 19 ∧ 23 + 8 ≤ wideBytes.size ∧
    Supplied (wideSource.readClass 3) := by
  obtain ⟨-, hup, hheader, hsupplied⟩ := ofBytes_complete ofBytes_wide
  exact ⟨ofBytes_wide, rfl, rfl, rfl, hup 1 3 10 19 rfl rfl (by decide), hheader, (hsupplied 3).2.1⟩

end ClassBytes

end ClassFile
