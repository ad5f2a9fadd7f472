/-
# Copied bootstrap tables

Copying a pool gives every entry of the bootstrap table to the table of the new pool in turn, as if it
were asked for.  An entry that equals an earlier one is not placed again, and those behind it move up.
So the copied table has the entries of the source without repetitions (`copyOf_bootstrap`), which are
the same under the same numbers just where the source repeats no entry (`copyOf_bootstrap_iff`); then
copied records of dynamic constants mean what they did.
-/
import ClassFile.ConstantPool.Copy
import ClassFile.Proofs.ClassBytes.Layout
import ClassFile.Proofs.ConstantPool.Coherent
import Mathlib.Data.List.Induction

namespace ClassFile

/-! ## 1. Lists without repetitions -/

section Dups

variable {α : Type} [BEq α] [LawfulBEq α]

theorem eraseDups_concat (l : List α) (a : α) :
    (l ++ [a]).eraseDups = if a ∈ l then l.eraseDups else l.eraseDups ++ [a] := by
  rw [List.eraseDups_append]
  split
  · rename_i ha
    simp [List.removeAll, ha]
  · rename_i ha
    simp [List.removeAll, ha, List.eraseDups_cons]

theorem nodup_eraseDups (l : List α) : l.eraseDups.Nodup := by
  induction l using List.reverseRecOn with
  | nil => simp
  | append_singleton l a ih =>
    rw [eraseDups_concat]
    split
    · exact ih
    · rename_i ha
      rw [List.nodup_append]
      refine ⟨ih, List.nodup_singleton a, fun b hb c hc hbc => ha ?_⟩
      rw [← List.mem_singleton.1 hc, ← hbc]
      exact List.mem_eraseDups.1 hb

theorem length_eraseDups_le (l : List α) : l.eraseDups.length ≤ l.length := by
  induction l using List.reverseRecOn with
  | nil => simp
  | append_singleton l a ih =>
    rw [eraseDups_concat, List.length_append, List.length_singleton]
    split
    · exact Nat.le_succ_of_le ih
    · rw [List.length_append, List.length_singleton]
      exact Nat.succ_le_succ ih

/-- A list without repetitions is all that is left of it. -/
theorem eraseDups_eq_self_iff {l : List α} : l.eraseDups = l ↔ l.Nodup := by
  constructor
  · intro h
    exact h ▸ nodup_eraseDups l
  · intro h
    induction l using List.reverseRecOn with
    | nil => simp
    | append_singleton l a ih =>
      obtain ⟨hl, -, hdisjoint⟩ := List.nodup_append.1 h
      rw [eraseDups_concat, if_neg fun ha => hdisjoint a ha a (by simp) rfl, ih hl]

end Dups

/-! ## 2. Interning entries in turn -/

namespace BootstrapTable

/-- The table after the entries of a list. -/
def internAll (t : BootstrapTable) (es : List BootstrapEntry) : BootstrapTable :=
  es.foldl (fun t e => (t.intern e).2) t

/-- **A table of entries that were interned in turn** has each of them once. -/
theorem internAll_empty {es : List BootstrapEntry} (hlength : es.length ≤ 65535) :
    (empty.internAll es).Numbered ∧ (empty.internAll es).entries.toList = es.eraseDups := by
  induction es using List.reverseRecOn with
  | nil => exact ⟨numbered_empty, by simp [internAll, empty]⟩
  | append_singleton es e ih =>
    rw [List.length_append, List.length_singleton] at hlength
    obtain ⟨ht, hentries⟩ := ih (Nat.le_of_succ_le hlength)
    have hsize : (empty.internAll es).entries.size ≤ es.length := by
      rw [← Array.length_toList, hentries]
      exact length_eraseDups_le es
    rw [show empty.internAll (es ++ [e]) = ((empty.internAll es).intern e).2 by
      simp [internAll], eraseDups_concat]
    refine ⟨(ht.intern e).1, ?_⟩
    cases hk : (empty.internAll es).lookup.get? e with
    | some k =>
      have hmem : e ∈ es := by
        have hat := (ht.lookup_iff (by omega) e k).1 hk
        rw [← List.mem_eraseDups, ← hentries]
        exact Array.mem_toList_iff.2 (Array.mem_of_getElem? hat)
      rw [ht.intern_again hk (by omega), if_pos hmem, hentries]
    | none =>
      have hnew : e ∉ es := by
        rw [← List.mem_eraseDups, ← hentries]
        intro hmem
        obtain ⟨i, hi⟩ := List.getElem?_of_mem hmem
        rw [Array.getElem?_toList] at hi
        have hlt : i < (empty.internAll es).entries.size := (Array.getElem?_eq_some_iff.1 hi).1
        have hnumber : (UInt16.ofNat i).toNat = i :=
          UInt16.toNat_ofNat_of_lt' (show i < 65536 by omega)
        have hget := (ht.lookup_iff (by omega) e (UInt16.ofNat i)).2 (by rw [hnumber, hi])
        rw [hk] at hget
        cases hget
      rw [intern_of_new hk, if_neg hnew, Array.toList_push, hentries]

end BootstrapTable

/-! ## 3. The table of the source -/

/-- The entries of the bootstrap table of a class file, as they stand in it from an offset on. -/
def ClassBytes.entriesAt (b : Bytes) : Nat → Nat → Except Error (List BootstrapEntry)
  | 0, _ => return []
  | count + 1, offset => do
    let handle ← b.u16At offset
    let length := (← b.u16At (offset + 2)).toNat
    let arguments ← ConstantPool.wordsAt b length (offset + 4)
    return ⟨handle, arguments⟩ :: (← entriesAt b count (offset + 4 + 2 * length))

namespace ConstantPool

open ClassBytes

variable {p p' : ConstantPool} {source : ClassBytes}

/-- Copying the entries of a table is interning them in turn. -/
theorem copyBootstrap_apply {b : Bytes} {count : Nat} : ∀ {offset : Nat} {es : List BootstrapEntry}
    {p : ConstantPool}, entriesAt b count offset = .ok es → es.length = count ∧
      Returns (copyBootstrap b count offset) p () { p with bootstrap := p.bootstrap.internAll es } := by
  induction count with
  | zero =>
    intro offset es p hes
    cases hes
    exact ⟨rfl, rfl⟩
  | succ count ih =>
    intro offset es p hes
    obtain ⟨handle, hhandle, hes⟩ := bind_eq_ok_iff.1 hes
    obtain ⟨length, hlength, hes⟩ := bind_eq_ok_iff.1 hes
    obtain ⟨arguments, harguments, hes⟩ := bind_eq_ok_iff.1 hes
    obtain ⟨rest, hrest, hes⟩ := bind_eq_ok_iff.1 hes
    cases hes
    obtain ⟨hcount, hret⟩ := ih (p := { p with
      bootstrap := (p.bootstrap.intern ⟨handle, arguments⟩).2 }) hrest
    refine ⟨congrArg Nat.succ hcount, ?_⟩
    exact returns_bind.2 ⟨handle, p, returns_lift.2 ⟨hhandle, rfl⟩,
      returns_bind.2 ⟨length, p, returns_lift.2 ⟨hlength, rfl⟩,
      returns_bind.2 ⟨arguments, p, returns_lift.2 ⟨harguments, rfl⟩,
      returns_bind.2 ⟨_, _, internBootstrap_apply _ p, hret⟩⟩⟩⟩

/-! ## 4. The records of the source -/

/-- From an index on, these are the records of the source with their indices, and each can be copied
into a pool with so many bootstrap methods. -/
inductive Copyable (source : ClassBytes) (bootstraps : Nat) : Nat → List (Nat × Constant) → Prop
  | done {index : Nat} (h : source.itemCount.toNat ≤ index) : Copyable source bootstraps index []
  | record {index : Nat} {c : Constant} {rest : List (Nat × Constant)}
      (h : index < source.itemCount.toNat)
      (hc : recordAt source bootstraps (UInt16.ofNat index) = .ok c)
      (hroom : index + width c ≤ 65535) (hrest : Copyable source bootstraps (index + width c) rest) :
      Copyable source bootstraps index ((index, c) :: rest)

/-- The records are copied to the indices that they have. -/
theorem Copyable.returns {bootstraps index : Nat} {l : List (Nat × Constant)}
    (h : Copyable source bootstraps index l) {p : ConstantPool}
    (hindex : p.records.nextOffset = index) (hsize : p.bootstrap.entries.size = bootstraps) :
    ∃ p', Returns (copyRecords source index) p () p' ∧ p'.bootstrap = p.bootstrap ∧
      p'.records.toList = p.records.toList ++ l := by
  induction h generalizing p with
  | done h =>
    unfold copyRecords
    rw [if_neg (Nat.not_lt_of_le h)]
    exact ⟨p, returns_pure.2 ⟨rfl, rfl⟩, rfl, (List.append_nil _).symm⟩
  | @record index c rest h hc hroom hrest ih =>
    obtain ⟨p', hret, hbootstrap, hrecords⟩ := ih (p := { p with
      records := (p.records.push c).2
      lookup := (p.lookup.insert c (UInt16.ofNat p.records.nextOffset)).2 })
      ((OffsetTable.nextOffset_push (lt_of_room (hindex ▸ hroom))).trans (hindex ▸ rfl)) hsize
    refine ⟨p', ?_, hbootstrap, ?_⟩
    · unfold copyRecords
      rw [if_pos h]
      refine returns_bind.2 ⟨p, p, returns_get.2 ⟨rfl, rfl⟩, ?_⟩
      rw [hsize]
      refine returns_bind.2 ⟨c, p, returns_lift.2 ⟨hc, rfl⟩, ?_⟩
      refine returns_bind.2 ⟨_, _, returns_push.2 ⟨hindex ▸ hroom, rfl, rfl⟩, ?_⟩
      exact returns_bind.2 ⟨(), _, returns_remember.2 rfl, hret⟩
    · rw [hrecords, OffsetTable.toList_push, hindex, List.append_assoc]
      rfl

/-- Copying records leaves the bootstrap table as it is. -/
theorem bootstrap_of_copyRecords (source : ClassBytes) (index : Nat) :
    Leads (fun p p' : ConstantPool => p'.bootstrap = p.bootstrap) (copyRecords source index) := by
  generalize hn : source.itemCount.toNat - index = n
  induction n using Nat.strongRecOn generalizing index with
  | ind n ih =>
    intro p u p' hret
    unfold copyRecords at hret
    split at hret
    · obtain ⟨_, _, hget, hret⟩ := returns_bind.1 hret
      obtain ⟨rfl, rfl⟩ := returns_get.1 hget
      obtain ⟨c, _, hc, hret⟩ := returns_bind.1 hret
      obtain ⟨-, rfl⟩ := returns_lift.1 hc
      obtain ⟨i, p₁, hpush, hret⟩ := returns_bind.1 hret
      obtain ⟨-, -, rfl⟩ := returns_push.1 hpush
      obtain ⟨_, p₂, hremember, hret⟩ := returns_bind.1 hret
      obtain rfl := returns_remember.1 hremember
      have := Constant.width_pos c
      have hrest := ih (source.itemCount.toNat - (index + width c)) (by omega) _ rfl _ _ _ hret
      exact hrest
    · obtain ⟨-, rfl⟩ := returns_pure.1 hret
      rfl

/-! ## 5. Copied pools -/

variable {offset : Nat} {count : UInt16} {es : List BootstrapEntry}

/-- Copying a pool is copying the bootstrap table and then the records. -/
theorem copyOf_eq_ok_iff : copyOf source (some offset) = .ok p ↔ ∃ count p₁,
    source.bytes.u16At offset = .ok count ∧
      Returns (copyBootstrap source.bytes count.toNat (offset + 2)) empty () p₁ ∧
      Returns (copyRecords source 1) p₁ () p := by
  constructor
  · intro hcopy
    unfold copyOf at hcopy
    dsimp only at hcopy
    split at hcopy
    · rename_i pool hrun
      cases hcopy
      obtain ⟨count, _, hread, hrest⟩ := returns_bind.1 hrun
      obtain ⟨hcount, rfl⟩ := returns_lift.1 hread
      obtain ⟨_, p₁, htable, hrecords⟩ := returns_bind.1 hrest
      exact ⟨count, p₁, hcount, htable, hrecords⟩
    · exact nomatch hcopy
  · rintro ⟨count, p₁, hcount, htable, hrecords⟩
    have hrun : Returns (do
        let count ← source.bytes.u16At offset
        copyBootstrap source.bytes count.toNat (offset + 2)
        copyRecords source 1 : PoolM Unit) empty () p :=
      returns_bind.2 ⟨count, _, returns_lift.2 ⟨hcount, rfl⟩,
        returns_bind.2 ⟨(), p₁, htable, hrecords⟩⟩
    unfold copyOf
    dsimp only
    split
    · rename_i pool hrun'
      cases hrun.symm.trans hrun'
      rfl
    · rename_i e pool hrun'
      cases hrun.symm.trans hrun'

/-- **A copied table has the entries of the source without repetitions.** -/
theorem copyOf_bootstrap (hcount : source.bytes.u16At offset = .ok count)
    (hes : entriesAt source.bytes count.toNat (offset + 2) = .ok es)
    (hcopy : copyOf source (some offset) = .ok p) :
    p.bootstrap.entries.toList = es.eraseDups := by
  obtain ⟨_, p₁, hcount', htable, hrecords⟩ := copyOf_eq_ok_iff.1 hcopy
  cases hcount.symm.trans hcount'
  obtain ⟨hlength, hret⟩ := copyBootstrap_apply (p := empty) hes
  cases hret.symm.trans htable
  have hlt := count.toNat_lt
  rw [bootstrap_of_copyRecords source 1 _ _ _ hrecords]
  exact (BootstrapTable.internAll_empty (by omega)).2

/-- **Every entry keeps its number in the copied table just if the source repeats none.** -/
theorem copyOf_bootstrap_iff (hcount : source.bytes.u16At offset = .ok count)
    (hes : entriesAt source.bytes count.toNat (offset + 2) = .ok es)
    {l : List (Nat × Constant)} (hl : Copyable source es.length 1 l) :
    (∃ p, copyOf source (some offset) = .ok p ∧ p.records.toList = l ∧
      ∀ i : Nat, p.bootstrap.entries[i]? = es[i]?) ↔ es.Nodup := by
  constructor
  · rintro ⟨p, hcopy, -, hentries⟩
    rw [← eraseDups_eq_self_iff, ← copyOf_bootstrap hcount hes hcopy]
    exact List.ext_getElem? fun i => by rw [Array.getElem?_toList, hentries i]
  · intro hnodup
    obtain ⟨hlength, hret⟩ := copyBootstrap_apply (p := empty) hes
    have hlt := count.toNat_lt
    obtain ⟨-, hentries⟩ := BootstrapTable.internAll_empty (show es.length ≤ 65535 by omega)
    rw [eraseDups_eq_self_iff.2 hnodup] at hentries
    obtain ⟨p, hp, hbootstrap, hrecords⟩ := hl.returns
      (p := { empty with bootstrap := empty.bootstrap.internAll es }) rfl
      ((Array.length_toList).symm.trans (congrArg List.length hentries))
    refine ⟨p, copyOf_eq_ok_iff.2 ⟨count, _, hcount, hret, hp⟩, hrecords, fun i => ?_⟩
    rw [hbootstrap, ← Array.getElem?_toList]
    exact congrArg (·[i]?) hentries

/-- A bootstrap table of two entries, without records, keeps its entries. -/
theorem copyOf_bootstrap_iff_two : ∃ p,
    copyOf ⟨#[0, 2, 0, 5, 0, 0, 0, 5, 0, 1, 0, 7], #[0], 0, 0, #[2, 6], some 0⟩ (some 0) = .ok p ∧
      p.records.toList = [] ∧
      ∀ i : Nat, p.bootstrap.entries[i]? = [(⟨5, []⟩ : BootstrapEntry), ⟨5, [7]⟩][i]? := by
  have hcount : Bytes.u16At #[0, 2, 0, 5, 0, 0, 0, 5, 0, 1, 0, 7] 0 = .ok 2 := by decide +kernel
  exact (copyOf_bootstrap_iff hcount (by decide +kernel) (.done (by decide))).2 (by decide)

/-! ## 6. A source that repeats an entry -/

/-- A class file with a bootstrap table of three entries, the first two alike, and a call site that
refers to the second one. -/
def repeatedBytes : Bytes :=
  #[0xca, 0xfe, 0xba, 0xbe, 0, 0, 0, 55, 0, 14, 1, 0, 1, 0x54, 7, 0, 1, 1, 0, 1, 0x66, 1, 0, 1, 0x67,
    1, 0, 3, 0x28, 0x29, 0x56, 12, 0, 3, 0, 5, 12, 0, 4, 0, 5, 10, 0, 2, 0, 6, 10, 0, 2, 0, 7,
    15, 6, 0, 8, 15, 6, 0, 9, 18, 0, 1, 0, 6, 1, 0, 16, 0x42, 0x6f, 0x6f, 0x74, 0x73, 0x74, 0x72, 0x61,
    0x70, 0x4d, 0x65, 0x74, 0x68, 0x6f, 0x64, 0x73, 0, 0x21, 0, 2, 0, 0, 0, 0, 0, 0, 0, 0, 0, 1,
    0, 13, 0, 0, 0, 14, 0, 3, 0, 10, 0, 0, 0, 10, 0, 0, 0, 11, 0, 0]

/-- The same class file with where things are in it. -/
def repeatedSource : ClassBytes :=
  ⟨repeatedBytes, #[0, 10, 14, 17, 21, 25, 31, 36, 41, 46, 51, 55, 59, 64], 83, 95, #[105, 109, 113],
    some 103⟩

theorem ofBytes_repeated : ofBytes repeatedBytes = .ok repeatedSource := by
  have hmagic : repeatedBytes.u32At 0 = .ok magicNumber := by decide +kernel
  have hcount : repeatedBytes.u16At 8 = .ok 14 := by decide +kernel
  have hrecords : indexRecords repeatedBytes 14 1 10 (Array.replicate 14 0) =
      .ok (repeatedSource.itemOffsets, 83) := by decide +kernel
  have hfind : findAttributes repeatedBytes 83 = .ok 95 := by decide +kernel
  have hattributes : repeatedBytes.u16At 95 = .ok 1 := by decide +kernel
  -- before its attributes have been gone through, the bootstrap table is not known
  have hattribute : (⟨repeatedBytes, repeatedSource.itemOffsets, 83, 95, #[], none⟩ :
      ClassBytes).indexAttribute 97 = .ok (repeatedSource, 117) := by
    refine bind_eq_ok_iff.2 ⟨14, by decide +kernel, bind_eq_ok_iff.2 ⟨"BootstrapMethods", by decide +kernel, ?_⟩⟩
    exact bind_eq_ok_iff.2 ⟨3, by decide +kernel, bind_eq_ok_iff.2 ⟨#[105, 109, 113], by decide +kernel, rfl⟩⟩
  exact ofBytes_eq_ok hmagic hcount hrecords hfind hattributes (iterateM_one hattribute)

/-- Every record of it can be copied, if its bootstrap table keeps its three entries. -/
theorem copyable_repeated : ∃ l, Copyable repeatedSource 3 1 l :=
  have hlt : ∀ i, i < 14 → i < repeatedSource.itemCount.toNat := fun i hi => hi
  ⟨_, .record (hlt 1 (by decide)) (c := .utf8 "T") (by decide +kernel) (by decide) <|
    .record (hlt 2 (by decide)) (c := .classRef 1) (by decide +kernel) (by decide) <|
    .record (hlt 3 (by decide)) (c := .utf8 "f") (by decide +kernel) (by decide) <|
    .record (hlt 4 (by decide)) (c := .utf8 "g") (by decide +kernel) (by decide) <|
    .record (hlt 5 (by decide)) (c := .utf8 "()V") (by decide +kernel) (by decide) <|
    .record (hlt 6 (by decide)) (c := .nameAndType 3 5) (by decide +kernel) (by decide) <|
    .record (hlt 7 (by decide)) (c := .nameAndType 4 5) (by decide +kernel) (by decide) <|
    .record (hlt 8 (by decide)) (c := .methodRef 2 6 false) (by decide +kernel) (by decide) <|
    .record (hlt 9 (by decide)) (c := .methodRef 2 7 false) (by decide +kernel) (by decide) <|
    .record (hlt 10 (by decide)) (c := .methodHandle .invokeStatic 8) (by decide +kernel) (by decide) <|
    .record (hlt 11 (by decide)) (c := .methodHandle .invokeStatic 9) (by decide +kernel) (by decide) <|
    .record (hlt 12 (by decide)) (c := .invokeDynamic 1 6) (by decide +kernel) (by decide) <|
    .record (hlt 13 (by decide)) (c := .utf8 "BootstrapMethods") (by decide +kernel) (by decide) <|
    .done (by decide)⟩

/-- **No copy of it has its bootstrap table.** -/
theorem copyOf_repeated : ofBytes repeatedBytes = .ok repeatedSource ∧
    (∃ l, Copyable repeatedSource 3 1 l) ∧
    entriesAt repeatedBytes 3 105 = .ok [⟨10, []⟩, ⟨10, []⟩, ⟨11, []⟩] ∧
    ¬ ∃ p, copyOf repeatedSource repeatedSource.bootstrapTable = .ok p ∧
      ∀ i : Nat, p.bootstrap.entries[i]? =
        [(⟨10, []⟩ : BootstrapEntry), ⟨10, []⟩, ⟨11, []⟩][i]? := by
  have hcount : repeatedSource.bytes.u16At 103 = .ok 3 := by decide +kernel
  have hes : entriesAt repeatedBytes 3 105 = .ok [⟨10, []⟩, ⟨10, []⟩, ⟨11, []⟩] := by decide +kernel
  refine ⟨ofBytes_repeated, copyable_repeated, hes, fun ⟨p, hcopy, hp⟩ => ?_⟩
  have hentries : p.bootstrap.entries.toList = List.eraseDups [⟨10, []⟩, ⟨10, []⟩, ⟨11, []⟩] :=
    copyOf_bootstrap hcount hes hcopy
  have hsame : p.bootstrap.entries.toList = [⟨10, []⟩, ⟨10, []⟩, ⟨11, []⟩] :=
    List.ext_getElem? fun i => by rw [Array.getElem?_toList, hp i]
  exact absurd (eraseDups_eq_self_iff.1 (hentries.symm.trans hsame)) (by decide)

end ConstantPool

end ClassFile
