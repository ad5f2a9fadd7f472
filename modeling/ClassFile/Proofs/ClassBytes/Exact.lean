/-
# Copies are exact

A pool that was built by its operations and written into a class is copied back as it was
(`HoldsExactly.copyOf`): its records are distinct and stand where their indices say, and its bootstrap
entries are distinct, so that none of them moves up.  Together with what a copy of any class file has
(`copyOf_records`), this says that copying and writing lose nothing in either order (`copyOf_exact`).
-/
import ClassFile.Proofs.ClassBytes.Copied

namespace ClassFile

namespace ClassBytes

open ConstantPool

variable {c : ClassBytes} {p : ConstantPool}

/-! ## 1. A bootstrap table that was written -/

/-- The entries of a bootstrap table are read as they are written. -/
theorem entriesAt_encoded {b : Bytes} {es : List BootstrapEntry}
    (hes : ∀ e ∈ es, e.arguments.length ≤ 65535) : ∀ {o : Nat},
      b.Has o (es.flatMap BootstrapEntry.encoded) → entriesAt b es.length o = .ok es := by
  induction es with
  | nil =>
    intro o _
    rfl
  | cons e es ih =>
    intro o h
    rw [List.flatMap_cons] at h
    obtain ⟨hcount, hlength⟩ := h.left.right.left.count (hes e (by simp))
    have harguments := h.left.right.right
    simp only [length_wordBytes] at hcount harguments
    have hwords : wordsAt b e.arguments.length (o + 4) = .ok e.arguments :=
      mapM_range_eq_ok fun i hi => harguments.word hi
    have hrest := ih (fun x hx => hes x (by simp [hx])) h.right
    rw [e.length_encoded, ← Nat.add_assoc] at hrest
    refine bind_eq_ok_iff.2 ⟨e.handle, h.left.left.u16At, bind_eq_ok_iff.2 ⟨_, hcount, ?_⟩⟩
    rw [hlength]
    exact bind_eq_ok_iff.2 ⟨e.arguments, hwords, bind_eq_ok_iff.2 ⟨es, hrest, rfl⟩⟩

/-- A table that was numbered has no entry twice. -/
theorem nodup_of_numbered {t : BootstrapTable} (ht : t.Numbered) (hsize : t.entries.size ≤ 65535) :
    t.entries.toList.Nodup := by
  rw [List.nodup_iff_getElem?_ne_getElem?]
  intro i j hij hj hsame
  rw [Array.length_toList] at hj
  rw [Array.getElem?_toList, Array.getElem?_toList] at hsame
  obtain ⟨e, he⟩ : ∃ e, t.entries[j]? = some e := ⟨_, Array.getElem?_eq_getElem hj⟩
  have hnumber : ∀ k, k ≤ j → t.entries[k]? = some e → t.lookup.get? e = some (UInt16.ofNat k) := by
    intro k hk hget
    have hnat : (UInt16.ofNat k).toNat = k :=
      UInt16.toNat_ofNat_of_lt' (show k < 65536 by omega)
    exact (ht.lookup_iff (by omega) e _).2 (hnat.symm ▸ hget)
  have hfirst := hnumber i (Nat.le_of_lt hij) (hsame.trans he)
  have heq := congrArg UInt16.toNat
    (Option.some.inj (hfirst.symm.trans (hnumber j (Nat.le_refl j) he)))
  rw [UInt16.toNat_ofNat_of_lt' (show i < 65536 by omega),
    UInt16.toNat_ofNat_of_lt' (show j < 65536 by omega)] at heq
  exact Nat.ne_of_lt hij heq

/-! ## 2. Records that were written -/

/-- Without a bootstrap table, the copy has just the records that can be copied. -/
theorem copyOf_none_of_copyable {l : List (Nat × Constant)} (hl : Copyable c 0 1 l) :
    ∃ q, ConstantPool.copyOf c none = .ok q ∧ q.records.toList = l ∧ q.bootstrap.entries = #[] := by
  obtain ⟨q, hq, hbootstrap, hrecords⟩ := hl.returns (p := empty) rfl rfl
  refine ⟨q, ?_, hrecords, congrArg BootstrapTable.entries hbootstrap⟩
  unfold ConstantPool.copyOf
  dsimp only
  split
  · rename_i pool hrun
    cases hq.symm.trans hrun
    rfl
  · rename_i e pool hrun
    cases hq.symm.trans hrun

namespace HoldsPool

/-- **A record that was written can be copied**, where the copy has as many bootstrap methods. -/
theorem recordAt (h : c.HoldsPool p) (hp : p.Coherent) {i : ConstantIndex} {k : Constant}
    (hi : p.get? i = some k) : recordAt c p.bootstrap.entries.size i = .ok k := by
  obtain ⟨o, ho, hbyte, hat⟩ := h.found hi
  have hentry : ∀ b, k.bootstrap? = some b →
      (if b.toNat < p.bootstrap.entries.size then .ok () else .error (.missingBootstrapMethod b) :
        Except Error Unit) = .ok () := fun b hb => if_pos ((hp.fits i k hi).bootstrap b hb)
  refine bind_eq_ok_iff.2 ⟨o, ho, bind_eq_ok_iff.2 ⟨_, hbyte, ?_⟩⟩
  rw [Constant.Tag.ofByte?_byte]
  cases k with
  | utf8 text => exact bind_eq_ok_iff.2 ⟨text, h.readUtf8 (text?_eq_some_iff.2 hi), rfl⟩
  | integer v => exact bind_eq_ok_iff.2 ⟨v, hat.i32At, rfl⟩
  | float v => exact bind_eq_ok_iff.2 ⟨v, hat.singleAt, rfl⟩
  | long v => exact bind_eq_ok_iff.2 ⟨v, hat.i64At, rfl⟩
  | double v => exact bind_eq_ok_iff.2 ⟨v, hat.doubleAt, rfl⟩
  | classRef j | string j | methodType j | module j | package j =>
    exact bind_eq_ok_iff.2 ⟨j, hat.u16At, rfl⟩
  | fieldRef a b | nameAndType a b =>
    exact bind_eq_ok_iff.2 ⟨a, hat.left.u16At, bind_eq_ok_iff.2 ⟨b, hat.right.u16At, rfl⟩⟩
  | methodRef a b interface =>
    cases interface <;>
    exact bind_eq_ok_iff.2 ⟨a, hat.left.u16At, bind_eq_ok_iff.2 ⟨b, hat.right.u16At, rfl⟩⟩
  | methodHandle kind m =>
    refine bind_eq_ok_iff.2 ⟨kind.tag, hat.head.u8At, ?_⟩
    rw [HandleKind.ofTag?_tag]
    exact bind_eq_ok_iff.2 ⟨m, hat.tail.u16At, rfl⟩
  | dynamic b m | invokeDynamic b m =>
    exact bind_eq_ok_iff.2 ⟨b, hat.left.u16At, bind_eq_ok_iff.2 ⟨(), hentry b rfl,
      bind_eq_ok_iff.2 ⟨m, hat.right.u16At, rfl⟩⟩⟩

end HoldsPool

namespace HoldsExactly

open OffsetTable in
/-- All records that were written can be copied. -/
theorem copyable (h : c.HoldsExactly p) (hp : p.Coherent) :
    Copyable c p.bootstrap.entries.size 1 p.records.toList := by
  have hcount : c.itemCount.toNat = p.records.nextOffset := by
    have := hp.room
    rw [itemCount, h.size]
    exact UInt16.toNat_ofNat_of_lt' (show p.records.nextOffset < 65536 by omega)
  suffices hall : ∀ {l : List (Nat × Constant)} {index : Nat},
      Consecutive index l p.records.nextOffset → (∀ e ∈ l, e ∈ p.records.toList) →
      Copyable c p.bootstrap.entries.size index l from hall hp.laid fun _ he => he
  intro l
  induction l with
  | nil =>
    intro index hl _
    obtain rfl : index = p.records.nextOffset := hl
    exact .done (Nat.le_of_eq hcount)
  | cons e l ih =>
    intro index hl hmem
    obtain ⟨placed, k⟩ := e
    obtain ⟨rfl, hrest⟩ := hl
    have hwidth : 0 < width k := k.width_pos
    have hle := hrest.le
    have hroom := hp.room
    have hnat : (UInt16.ofNat placed).toNat = placed :=
      UInt16.toNat_ofNat_of_lt' (show placed < 65536 by omega)
    have hget : p.get? (UInt16.ofNat placed) = some k :=
      hp.mem_records_iff.2 (hnat.symm ▸ hmem (placed, k) (by simp))
    exact .record (by omega) (h.recordAt hp hget) (by omega)
      (ih hrest fun e he => hmem e (by simp [he]))

/-- **A pool that was written is copied back.** -/
theorem copyOf (h : c.HoldsExactly p) (hp : p.Coherent) :
    ∃ q, copyOf c c.bootstrapTable = .ok q ∧ q.records.toList = p.records.toList ∧
      q.bootstrap.entries = p.bootstrap.entries := by
  have hl := h.copyable hp
  cases htable : c.bootstrapTable with
  | none =>
    have hnone := h.absent htable
    rw [hnone] at hl ⊢
    exact copyOf_none_of_copyable hl
  | some o =>
    have hat := h.table o htable
    obtain ⟨hcount, hnat⟩ := hat.left.count h.entries
    have hlist := entriesAt_encoded
      (fun e he => h.modest.arguments e (Array.mem_toList_iff.1 he)) hat.right
    rw [length_wordBytes] at hlist
    have hlength : p.bootstrap.entries.toList.length = p.bootstrap.entries.size :=
      Array.length_toList
    have hnodup := nodup_of_numbered hp.bootstrap h.entries
    obtain ⟨q, hq, hrecords, hentries⟩ := (copyOf_bootstrap_iff hcount (hnat.symm ▸ hlist)
      (hlength.symm ▸ hl)).2 hnodup
    refine ⟨q, hq, hrecords, Array.toList_inj.1 (List.ext_getElem? fun i => ?_)⟩
    rw [Array.getElem?_toList]
    exact hentries i

end HoldsExactly

end ClassBytes

namespace ConstantPool

open ClassBytes

/-! ## 3. Copies -/

/-- The pool is the one of a class file: it has the records that were found there, is written as they
stand there, and finds each of them again at its first index. -/
structure IsOf (p : ConstantPool) (source : ClassBytes) : Prop where
  found : ∀ i, (∃ k, p.get? i = some k) ↔ ∃ o, source.itemOffset i = .ok o
  count : source.bytes.u16At 8 = .ok p.count
  written : source.bytes.bytesAt 8 (source.header - 8) = .ok (p.put .empty)
  again : ∀ j k, p.get? j = some k →
    ∃ i, (p.get? i = some k ∧ ∀ j, p.get? j = some k → i ≤ j) ∧ Returns (intern k) p i p

/-- Two pools have the same records, which they find again at the same indices, and the same bootstrap
methods. -/
structure Same (p q : ConstantPool) : Prop where
  record : ∀ i, q.get? i = p.get? i
  lookup : ∀ k, q.lookup.get? k = p.lookup.get? k
  count : q.count = p.count
  entries : q.bootstrap.entries = p.bootstrap.entries
  written : q.put .empty = p.put .empty

variable {p q : ConstantPool}

/-- The records of a coherent pool, one behind another, tell all that is known of them. -/
theorem Coherent.same (hp : p.Coherent) (hq : q.Recalls)
    (hrecords : q.records.toList = p.records.toList)
    (hentries : q.bootstrap.entries = p.bootstrap.entries) : p.Same q := by
  have hrecord : ∀ i, q.get? i = p.get? i := fun i => Option.ext fun k => by
    rw [show q.get? i = some k ↔ (i.toNat, k) ∈ q.records.toList from
      hq.laid.get?_eq_some_iff Constant.width_pos, hrecords, hp.mem_records_iff]
  have hcount : q.count = p.count := by
    have hnext := hq.laid.stop_eq
    rw [hrecords, ← hp.laid.stop_eq] at hnext
    rw [ConstantPool.count, hnext]
    rfl
  refine ⟨hrecord, fun k => Option.ext fun i => ?_, hcount, hentries, ?_⟩
  · rw [hp.lookup_iff, ← hrecord]
    constructor
    · exact hq.placed k i
    · intro hi
      obtain ⟨j, hj, -⟩ := hq.first k i hi
      have hplaced := hq.placed k j hj
      rw [hrecord] at hi hplaced
      rwa [hp.index_unique hi hplaced]
  · rw [← Array.toList_inj, toList_put, toList_put, hcount, hrecords]

/-- **Copying and writing are exact.**  A copy of a class file, if there is one, is the pool of it, as
long as its pool is counted, no record takes an index behind the others, and the texts are written in the
canonical way.  And a pool that was built by its operations, written into a class, has a copy, which is
the same pool, as long as its strings and tables fit their counts. -/
theorem copyOf_exact (b : Bytes) (source : ClassBytes) (offset : Option Nat) (p : ConstantPool)
    (rs : List Request) (table : Option RawAttribute) (w : ClassWriter)
    (attributes : List RawAttribute) (classRef : ConstantIndex) :
    (ofBytes b = .ok source → b.u16At 8 ≠ .ok 0 → source.Contained → source.Canonical →
      copyOf source offset = .ok p → p.IsOf source) ∧
    ((run rs empty).IsTable table → w.Writable (run rs empty) table attributes →
      ∃ c q, ofBytes (w.assemble (run rs empty) classRef attributes) = .ok c ∧
        (∀ i, (∃ o, c.itemOffset i = .ok o) ↔ ∃ k, (run rs empty).get? i = some k) ∧
        copyOf c c.bootstrapTable = .ok q ∧ (run rs empty).Same q) := by
  constructor
  · intro hsource hcount hcontained hcanonical hcopy
    obtain ⟨hp, hfound, hread, hwritten⟩ :=
      copyOf_records hsource hcount hcontained hcanonical hcopy
    obtain ⟨rfl, -⟩ := located_of_ofBytes hsource
    exact ⟨hfound, hread, hwritten, fun j k hj => hp.intern_again hj⟩
  · intro htable hw
    obtain ⟨hp, -⟩ := coherent_run rs coherent_empty
    obtain ⟨c, hc, hexact⟩ := ofBytes_assemble hp.inOrder htable hw classRef
    obtain ⟨q, hcopy, hrecords, hentries⟩ := hexact.copyOf hp
    obtain ⟨-, -, -, -, hq⟩ := copyable_of_copyOf hcopy
    refine ⟨c, q, hc, fun i => ⟨?_, ?_⟩, hcopy, hp.same hq hrecords hentries⟩
    · rintro ⟨o, ho⟩
      exact hexact.vacant i o ho
    · rintro ⟨k, hk⟩
      obtain ⟨o, ho, -⟩ := hexact.record i k hk
      exact ⟨o, ho⟩

/-! ## 4. A pool with a record twice -/

/-- A class file whose pool has one string twice. -/
def twinBytes : Bytes :=
  #[0xca, 0xfe, 0xba, 0xbe, 0, 0, 0, 55, 0, 3, 1, 0, 1, 0x54, 1, 0, 1, 0x54, 0, 0x21, 0, 0, 0, 0, 0, 0,
    0, 0, 0, 0, 0, 0]

/-- The same class file with where things are in it. -/
def twinSource : ClassBytes := ⟨twinBytes, #[0, 10, 14], 18, 30, #[], none⟩

theorem ofBytes_twin : ofBytes twinBytes = .ok twinSource := by
  have hmagic : twinBytes.u32At 0 = .ok magicNumber := by decide +kernel
  have hcount : twinBytes.u16At 8 = .ok 3 := by decide +kernel
  have hrecords : indexRecords twinBytes 3 1 10 (Array.replicate 3 0) =
      .ok (twinSource.itemOffsets, 18) := by decide +kernel
  have hfind : findAttributes twinBytes 18 = .ok 30 := by decide +kernel
  have hattributes : twinBytes.u16At 30 = .ok 0 := by decide +kernel
  exact ofBytes_eq_ok hmagic hcount hrecords hfind hattributes rfl

/-- It has records at the indices 1 and 2. -/
theorem itemOffset_twin {i : ConstantIndex} {o : Nat} (h : twinSource.itemOffset i = .ok o) :
    i.toNat = 1 ∧ o = 10 ∨ i.toNat = 2 ∧ o = 14 := by
  obtain ⟨hsome, hne⟩ := itemOffset_eq_ok_iff.1 h
  have hlt : i.toNat < 3 := (Array.getElem?_eq_some_iff.1 hsome).1
  generalize i.toNat = n at hsome hlt ⊢
  obtain rfl | rfl | rfl : n = 0 ∨ n = 1 ∨ n = 2 := by omega
  · exact absurd (Option.some.inj hsome).symm hne
  · exact .inl ⟨rfl, (Option.some.inj hsome).symm⟩
  · exact .inr ⟨rfl, (Option.some.inj hsome).symm⟩

/-- The copy of it keeps both strings, and finds the first of them; and a pool with the nested constant
has a copy. -/
theorem copyOf_exact_twin :
    (∃ p, copyOf twinSource none = .ok p ∧ p.records.toList = [(1, .utf8 "T"), (2, .utf8 "T")] ∧
      p.IsOf twinSource) ∧
    ∃ table c q, ofBytes ((ClassWriter.start ⟨.maxStack, .empty⟩).assemble
        (run [.loadable nestedConstant, .utf8 "BootstrapMethods"] empty) 0 [table]) = .ok c ∧
      copyOf c c.bootstrapTable = .ok q ∧
      (run [.loadable nestedConstant, .utf8 "BootstrapMethods"] empty).Same q := by
  constructor
  · have hl : Copyable twinSource 0 1 [(1, .utf8 "T"), (2, .utf8 "T")] :=
      .record (by decide) (by decide +kernel) (by decide) <|
        .record (by decide) (by decide +kernel) (by decide) <| .done (by decide)
    obtain ⟨p, hcopy, hrecords, -⟩ := copyOf_none_of_copyable hl
    have hcount : twinBytes.u16At 8 = .ok 3 := by decide +kernel
    refine ⟨p, hcopy, hrecords,
      (copyOf_exact twinBytes twinSource none p [] none (.start ⟨.maxStack, .empty⟩) [] 0).1
        ofBytes_twin ?_ ?_ ?_ hcopy⟩
    · rw [hcount]
      simp
    · intro i o tag ho htag
      have htag' : ∀ o, o = 10 ∨ o = 14 → recordTag twinBytes o = .ok .utf8 := by
        rintro o (rfl | rfl) <;> decide +kernel
      rcases itemOffset_twin ho with ⟨hi, rfl⟩ | ⟨hi, rfl⟩
      · cases (htag' 10 (by simp)).symm.trans htag
        rw [hi]
        decide
      · cases (htag' 14 (by simp)).symm.trans htag
        rw [hi]
        decide
    · intro i o length s ho _ hlength hs
      have hread : ∀ o, o = 10 ∨ o = 14 → twinBytes.u16At (o + 1) = .ok 1 ∧
          twinBytes.bytesAt (o + 3) 1 = .ok (ModifiedUtf8.encode "T") := by
        rintro o (rfl | rfl) <;> constructor <;> decide +kernel
      have ho' : o = 10 ∨ o = 14 := by
        rcases itemOffset_twin ho with ⟨-, rfl⟩ | ⟨-, rfl⟩ <;> simp
      cases (hread o ho').1.symm.trans hlength
      cases (hread o ho').2.symm.trans hs
      exact ⟨"T", rfl⟩
  · obtain ⟨i, p, table, hact, htable, hw⟩ := writable_nested
    have hrun : run [.loadable nestedConstant, .utf8 "BootstrapMethods"] empty =
        run [.utf8 "BootstrapMethods"] p := by
      have hfirst : (Request.loadable nestedConstant).act empty = (.ok (.record i), p) := hact
      rw [run, List.foldl_cons, hfirst]
      rfl
    rw [← hrun] at htable hw
    obtain ⟨c, q, hc, -, hcopy, hsame⟩ := (copyOf_exact twinBytes twinSource none .empty _ (some table)
      _ [table] 0).2 htable hw
    exact ⟨table, c, q, hc, hcopy, hsame⟩

end ConstantPool

end ClassFile
