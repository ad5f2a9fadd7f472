/-
# Assembled classes are found their way around in

`ClassWriter.assemble` puts a class file together, and `ClassBytes.ofBytes` finds where things are in
it: the records of the pool, then, behind the fields and methods, which it moves over, the attributes
of the class, among them the bootstrap table.  `Writable` says what has to fit: strings and tables their
counts of two bytes, and the payload of an attribute, if another one follows, its length of four.

A class file put together like that is accepted, and holds the pool and no records besides
(`ofBytes_assemble`).
-/
import ClassFile.ClassWriter
import ClassFile.Proofs.ClassBytes.Loadable

namespace ClassFile

/-! ## 1. Tables as they are written -/

/-- Entries that are put one after the other. -/
theorem Bytes.toList_foldl_put {α : Type} {put : Bytes → α → Bytes} {f : α → List UInt8}
    (hput : ∀ b a, (put b a).toList = b.toList ++ f a) (b : Bytes) (as : List α) :
    (as.foldl put b).toList = b.toList ++ as.flatMap f := by
  induction as generalizing b with
  | nil => simp
  | cons a as ih => rw [List.foldl_cons, ih, hput, List.flatMap_cons, List.append_assoc]

theorem Bytes.toList_putU16s (b : Bytes) (words : List UInt16) :
    (b.putU16s words).toList = b.toList ++ (wordBytes 2 (UInt16.ofNat words.length).toNat ++
      words.flatMap fun w => wordBytes 2 w.toNat) := by
  rw [putU16s, toList_foldl_put Bytes.toList_putU16, toList_putU16, List.append_assoc]

theorem Attribute.toList_putTable {α : Type} {put : Bytes → α → Bytes} {encode : α → List UInt8}
    (hput : ∀ b a, (put b a).toList = b.toList ++ encode a) (b : Bytes) (as : List α) :
    (Attribute.putTable put b as).toList =
      b.toList ++ (wordBytes 2 (UInt16.ofNat as.length).toNat ++ as.flatMap encode) := by
  rw [putTable, Bytes.toList_foldl_put hput, Bytes.toList_putU16, List.append_assoc]

theorem BootstrapEntry.toList_put (b : Bytes) (e : BootstrapEntry) :
    (Attribute.putBootstrap b e).toList = b.toList ++ e.encoded := by
  rw [Attribute.putBootstrap, Bytes.toList_putU16s, Bytes.toList_putU16, encoded,
    List.append_assoc]

/-- The bootstrap table as it is written. -/
theorem Attribute.toList_bootstrapMethods (entries : List BootstrapEntry) :
    (Attribute.bootstrapMethods entries).payload.toList =
      wordBytes 2 (UInt16.ofNat entries.length).toNat ++
        entries.flatMap BootstrapEntry.encoded := by
  show (Attribute.putTable Attribute.putBootstrap .empty entries).toList = _
  rw [toList_putTable BootstrapEntry.toList_put]
  rfl

namespace RawAttribute

/-- An attribute as it is written. -/
def encoded (a : RawAttribute) : List UInt8 :=
  wordBytes 2 a.name.toNat ++ (wordBytes 4 (UInt32.ofNat a.payload.size).toNat ++ a.payload.toList)

/-- A table of attributes as it is written. -/
def allEncoded (as : List RawAttribute) : List UInt8 :=
  wordBytes 2 (UInt16.ofNat as.length).toNat ++ as.flatMap encoded

theorem toList_putAll (b : Bytes) (as : List RawAttribute) :
    (putAll b as).toList = b.toList ++ allEncoded as := by
  refine Attribute.toList_putTable (fun b a => ?_) b as
  rw [put, Bytes.toList_putAttribute, encoded, List.append_assoc, List.append_assoc]

/-- The number of attributes, and the length of each, fit their counts. -/
structure Fit (as : List RawAttribute) : Prop where
  count : as.length ≤ 65535
  length : ∀ a ∈ as, a.payload.size < 4294967296

end RawAttribute

/-- A field or a method as it is added to a table. -/
structure WrittenMember where
  access : UInt16
  name : ConstantIndex
  descriptor : ConstantIndex
  attributes : List RawAttribute

/-- A member as it is written. -/
def WrittenMember.encoded (m : WrittenMember) : List UInt8 :=
  wordBytes 2 m.access.toNat ++ (wordBytes 2 m.name.toNat ++ (wordBytes 2 m.descriptor.toNat ++
    RawAttribute.allEncoded m.attributes))

/-- The table is the one of these members, which fit their counts. -/
structure MemberTable.Lists (t : MemberTable) (ms : List WrittenMember) : Prop where
  count : t.count = UInt16.ofNat ms.length
  bytes : t.bytes.toList = ms.flatMap WrittenMember.encoded
  length : ms.length ≤ 65535
  fit : ∀ m ∈ ms, RawAttribute.Fit m.attributes

theorem MemberTable.lists_empty : MemberTable.empty.Lists [] :=
  ⟨rfl, rfl, Nat.zero_le _, by simp⟩

/-- Adding a member, as long as there is room for it. -/
theorem MemberTable.Lists.add {t : MemberTable} {ms : List WrittenMember} (h : t.Lists ms)
    (m : WrittenMember) (hlength : ms.length < 65535) (hm : RawAttribute.Fit m.attributes) :
    (t.add m.access m.name m.descriptor m.attributes).Lists (ms ++ [m]) where
  count := by
    show t.count + 1 = UInt16.ofNat (ms ++ [m]).length
    rw [h.count, List.length_append, UInt16.ofNat_add]
    rfl
  bytes := by
    show (RawAttribute.putAll _ m.attributes).toList = _
    rw [RawAttribute.toList_putAll]
    simp [h.bytes, WrittenMember.encoded, List.append_assoc]
  length := by
    rw [List.length_append]
    exact hlength
  fit x hx := by
    rcases List.mem_append.1 hx with hx | hx
    · exact h.fit x hx
    · exact List.mem_singleton.1 hx ▸ hm

theorem ConstantPool.toList_put (b : Bytes) (p : ConstantPool) :
    (p.put b).toList = b.toList ++ (wordBytes 2 p.count.toNat ++
      p.records.toList.flatMap fun e => e.2.encoded) := by
  rw [put, ← Array.foldl_toList, Bytes.toList_foldl_put (f := fun e => e.2.encoded),
    Bytes.toList_putU16, List.append_assoc]
  · rfl
  · exact fun b e => e.2.toList_put b

/-! ## 2. Moving over members -/

namespace Bytes.Has

variable {b : Bytes} {o : Nat}

theorem skipAttribute {a : RawAttribute} (h : b.Has o a.encoded) (ha : a.payload.size < 4294967296) :
    ClassFile.skipAttribute b o = .ok (o + a.encoded.length) := by
  have hlength : (UInt32.ofNat a.payload.size).toNat = a.payload.size :=
    UInt32.toNat_ofNat_of_lt' ha
  have hread := h.right.left.u32At
  rw [length_wordBytes] at hread
  rw [ClassFile.skipAttribute, hread, Except.map, hlength]
  simp only [RawAttribute.encoded, List.length_append, length_wordBytes, Array.length_toList,
    Except.ok.injEq]
  omega

theorem skipAttributes {as : List RawAttribute} (h : b.Has o (RawAttribute.allEncoded as))
    (has : RawAttribute.Fit as) :
    ClassFile.skipAttributes b o = .ok (o + (RawAttribute.allEncoded as).length) := by
  obtain ⟨hcount, hlength⟩ := h.left.count has.count
  refine bind_eq_ok_iff.2 ⟨_, hcount, ?_⟩
  have hall := iterate (fun a ha o hat => skipAttribute hat (has.length a ha)) h.right
  rw [length_wordBytes] at hall
  rw [hlength, hall, RawAttribute.allEncoded, List.length_append, length_wordBytes, Nat.add_assoc]

theorem skipMembers {t : MemberTable} {ms : List WrittenMember} (ht : t.Lists ms)
    (h : b.Has o (wordBytes 2 t.count.toNat ++ t.bytes.toList)) :
    ClassFile.skipMembers b o = .ok (o + 2 + t.bytes.size) := by
  have hstep : ∀ m ∈ ms, ∀ o, b.Has o m.encoded →
      ClassFile.skipAttributes b (o + 6) = .ok (o + m.encoded.length) := by
    intro m hm o hat
    have hskip := skipAttributes hat.right.right.right (ht.fit m hm)
    simp only [length_wordBytes] at hskip
    rw [show o + 6 = o + 2 + 2 + 2 by omega, hskip]
    simp only [WrittenMember.encoded, List.length_append, length_wordBytes, Except.ok.injEq]
    omega
  rw [ht.count, ht.bytes] at h
  obtain ⟨hcount, hlength⟩ := h.left.count ht.length
  refine bind_eq_ok_iff.2 ⟨_, hcount, ?_⟩
  have hall := iterate hstep h.right
  rw [length_wordBytes] at hall
  rw [hlength, hall, ← ht.bytes, Array.length_toList]

end Bytes.Has

/-! ## 3. Attributes of the class -/

theorem iterateM_add {α : Type} {step : α → Except Error α} {m n : Nat} {a b : α}
    (h : iterateM step m a = .ok b) : iterateM step (m + n) a = iterateM step n b := by
  induction m generalizing a with
  | zero =>
    cases h
    rw [Nat.zero_add]
  | succ m ih =>
    rw [Nat.add_right_comm, iterateM]
    rw [iterateM] at h
    cases hstep : step a with
    | error e =>
      rw [hstep] at h
      cases h
    | ok a' =>
      rw [hstep] at h
      exact ih h

namespace ClassBytes

variable {c : ClassBytes} {p : ConstantPool} {o : Nat}

/-- The entries of a bootstrap table are found. -/
theorem indexBootstrapEntries_encoded {b : Bytes} {es : List BootstrapEntry}
    (hes : ∀ e ∈ es, e.arguments.length ≤ 65535) : ∀ {o : Nat} (found : Array Nat),
      b.Has o (es.flatMap BootstrapEntry.encoded) →
      ∃ offsets : List Nat, indexBootstrapEntries b es.length o found = .ok (found ++ offsets.toArray) ∧
        List.Forall₂ (fun o e => b.Has o e.encoded) offsets es := by
  induction es with
  | nil =>
    intro o found _
    exact ⟨[], by simp [indexBootstrapEntries, iterateM, Except.map], .nil⟩
  | cons e es ih =>
    intro o found h
    rw [List.flatMap_cons] at h
    obtain ⟨hcount, hlength⟩ := h.left.right.left.count (hes e (by simp))
    rw [length_wordBytes] at hcount
    have hnext : o + 4 + 2 * e.arguments.length = o + e.encoded.length := by
      rw [e.length_encoded, Nat.add_assoc]
    obtain ⟨offsets, hall, hat⟩ := ih (fun x hx => hes x (by simp [hx])) (found.push o) h.right
    refine ⟨o :: offsets, ?_, .cons h.left hat⟩
    have hstep : (do
        let arguments ← b.u16At (o + 2)
        return (o + 4 + 2 * arguments.toNat, found.push o)) =
          (.ok (o + e.encoded.length, found.push o) : Except Error (Nat × Array Nat)) := by
      refine bind_eq_ok_iff.2 ⟨_, hcount, ?_⟩
      rw [hlength, hnext]
      rfl
    rw [indexBootstrapEntries, List.length_cons, iterateM]
    dsimp only
    rw [hstep]
    refine hall.trans ?_
    simp

/-- Looking at attributes changes nothing but what is known of the bootstrap table. -/
theorem indexAttribute_keeps {c c' : ClassBytes} {offset next : Nat}
    (h : c.indexAttribute offset = .ok (c', next)) : c'.bytes = c.bytes ∧
      c'.itemOffsets = c.itemOffsets ∧ c'.header = c.header ∧ c'.classAttributes = c.classAttributes := by
  obtain ⟨length, -, h⟩ := bind_eq_ok_iff.1 h
  obtain ⟨name, -, h⟩ := bind_eq_ok_iff.1 h
  split at h
  · obtain ⟨count, -, h⟩ := bind_eq_ok_iff.1 h
    obtain ⟨found, -, h⟩ := bind_eq_ok_iff.1 h
    cases h
    exact ⟨rfl, rfl, rfl, rfl⟩
  · cases h
    exact ⟨rfl, rfl, rfl, rfl⟩

/-- An attribute that is not the bootstrap table is passed over. -/
theorem indexAttribute_other (h : c.HoldsRecords p) {a : RawAttribute} (hat : c.bytes.Has o a.encoded)
    {name : String} (hname : p.text? a.name = some name) (hother : name ≠ "BootstrapMethods")
    (ha : a.payload.size < 4294967296) :
    c.indexAttribute o = .ok (c, o + a.encoded.length) := by
  have hlength : (UInt32.ofNat a.payload.size).toNat = a.payload.size :=
    UInt32.toNat_ofNat_of_lt' ha
  have hread := hat.right.left.u32At
  rw [length_wordBytes] at hread
  refine bind_eq_ok_iff.2 ⟨_, hread, bind_eq_ok_iff.2 ⟨name, h.utf8At hat.left hname, ?_⟩⟩
  rw [if_neg hother, hlength]
  simp only [RawAttribute.encoded, List.length_append, length_wordBytes, Array.length_toList]
  rw [show o + 6 + a.payload.size = o + (2 + (4 + a.payload.size)) by omega]
  rfl

/-- An attribute with a name of its own, whose length fits. -/
def Other (p : ConstantPool) (a : RawAttribute) : Prop :=
  (∃ name, p.text? a.name = some name ∧ name ≠ "BootstrapMethods") ∧ a.payload.size < 4294967296

theorem indexAttribute_others (h : c.HoldsRecords p) {as : List RawAttribute}
    (has : ∀ a ∈ as, Other p a) : ∀ {o : Nat}, c.bytes.Has o (as.flatMap RawAttribute.encoded) →
      iterateM (fun (c, o) => indexAttribute c o) as.length (c, o) =
        .ok (c, o + (as.flatMap RawAttribute.encoded).length) := by
  induction as with
  | nil =>
    intro o _
    rfl
  | cons a as ih =>
    intro o hat
    rw [List.flatMap_cons] at hat
    obtain ⟨⟨name, hname, hother⟩, ha⟩ := has a (by simp)
    rw [List.length_cons, iterateM]
    dsimp only
    rw [indexAttribute_other h hat.left hname hother ha]
    dsimp only
    rw [ih (fun x hx => has x (by simp [hx])) hat.right, List.flatMap_cons, List.length_append,
      Nat.add_assoc]

/-- The bootstrap table is found, with each of its entries. -/
theorem indexAttribute_table (h : c.HoldsRecords p) {a : RawAttribute}
    (hat : c.bytes.Has o a.encoded) (hname : p.text? a.name = some "BootstrapMethods")
    {es : List BootstrapEntry} (hpayload : a.payload = (Attribute.bootstrapMethods es).payload)
    (hcount : es.length ≤ 65535) (hes : ∀ e ∈ es, e.arguments.length ≤ 65535) :
    ∃ offsets : List Nat, c.indexAttribute o =
      .ok ({ c with
        bootstrapOffsets := c.bootstrapOffsets ++ offsets.toArray, bootstrapTable := some (o + 6) },
        o + 6 + (UInt32.ofNat a.payload.size).toNat) ∧
      List.Forall₂ (fun o e => c.bytes.Has o e.encoded) offsets es := by
  have hread := hat.right.left.u32At
  have htable := hat.right.right
  rw [hpayload, Attribute.toList_bootstrapMethods] at htable
  simp only [length_wordBytes] at hread htable
  obtain ⟨hnumber, hlength⟩ := htable.left.count hcount
  have hentries := htable.right
  rw [length_wordBytes] at hentries
  obtain ⟨offsets, hfound, hall⟩ := indexBootstrapEntries_encoded hes c.bootstrapOffsets
    hentries
  refine ⟨offsets, ?_, hall⟩
  refine bind_eq_ok_iff.2 ⟨_, hread, bind_eq_ok_iff.2 ⟨_, h.utf8At hat.left hname, ?_⟩⟩
  rw [if_pos rfl]
  refine bind_eq_ok_iff.2 ⟨_, hnumber, bind_eq_ok_iff.2 ⟨_, ?_, rfl⟩⟩
  rw [hlength]
  exact hfound

end ClassBytes

/-! ## 4. The class file -/

namespace ConstantPool

/-- The attribute of the bootstrap table, which is absent where the table is empty. -/
def IsTable (p : ConstantPool) : Option RawAttribute → Prop
  | none => p.bootstrap.entries = #[]
  | some a => p.text? a.name = some "BootstrapMethods" ∧
      a.payload = (Attribute.bootstrapMethods p.bootstrap.entries.toList).payload

/-- Interning a record leaves the bootstrap table as it is. -/
theorem bootstrap_of_intern {p p' : ConstantPool} {c : Constant} {i : ConstantIndex}
    (hr : Returns (intern c) p i p') : p'.bootstrap = p.bootstrap := by
  rcases returns_intern.1 hr with ⟨-, rfl⟩ | ⟨-, p₁, hpush, hremember⟩
  · rfl
  · obtain ⟨-, -, rfl⟩ := returns_push.1 hpush
    obtain rfl := returns_remember.1 hremember
    rfl

/-- Asking for the bootstrap table gives it, and adds at most its name to the pool. -/
theorem Coherent.bootstrapAttribute? {p p' : ConstantPool} (hp : p.Coherent)
    {table : Option RawAttribute} (hr : Returns bootstrapAttribute? p table p') :
    p'.Coherent ∧ p.Kept p' ∧ p'.IsTable table := by
  obtain ⟨_, _, hget, hr⟩ := returns_bind.1 hr
  obtain ⟨rfl, rfl⟩ := returns_get.1 hget
  dsimp only at hr
  split at hr
  · rename_i hempty
    obtain ⟨rfl, rfl⟩ := returns_pure.1 hr
    exact ⟨hp, .refl _, Array.isEmpty_iff.1 hempty⟩
  · obtain ⟨a, p₁, hnamed, hr⟩ := returns_bind.1 hr
    obtain ⟨rfl, rfl⟩ := returns_pure.1 hr
    obtain ⟨hp', hk, ⟨hname, hpayload⟩, -⟩ := (steady_named _).of_returns hp hnamed
    obtain ⟨i, p₂, hutf8, hpure⟩ := returns_bind.1 hnamed
    obtain ⟨-, rfl⟩ := returns_pure.1 hpure
    exact ⟨hp', hk, hname, by rw [hpayload, bootstrap_of_intern hutf8]⟩

end ConstantPool

namespace ClassWriter

/-- What has to fit for a class to be written with a pool, with these attributes, of which one is the
bootstrap table, if there is one.  An attribute behind which there is no other may be longer than its
length says. -/
structure Writable (w : ClassWriter) (p : ConstantPool) (table : Option RawAttribute)
    (attributes : List RawAttribute) : Prop where
  interfaces : w.header.interfaces.length ≤ 65535
  fields : ∃ ms, w.fields.Lists ms
  methods : ∃ ms, w.methods.Lists ms
  count : attributes.length ≤ 65535
  attributes : ∃ before after, attributes = before ++ (table.toList ++ after) ∧
    (∀ a ∈ before ++ after, ClassBytes.Other p a) ∧
    (after ≠ [] → ∀ a ∈ table, a.payload.size < 4294967296)
  modest : p.Modest
  entries : p.bootstrap.entries.size ≤ 65535

/-- What is written behind the pool. -/
def body (w : ClassWriter) (classRef : ConstantIndex) (attributes : List RawAttribute) :
    List UInt8 :=
  wordBytes 2 w.header.access.toNat ++ (wordBytes 2 classRef.toNat ++
    (wordBytes 2 (w.header.superclass.getD 0).toNat ++
    (wordBytes 2 (UInt16.ofNat w.header.interfaces.length).toNat ++
    (w.header.interfaces.flatMap (fun i => wordBytes 2 i.toNat) ++
    ((wordBytes 2 w.fields.count.toNat ++ w.fields.bytes.toList) ++
    ((wordBytes 2 w.methods.count.toNat ++ w.methods.bytes.toList) ++
    RawAttribute.allEncoded attributes))))))

/-- A class as it is written. -/
theorem toList_assemble (w : ClassWriter) (p : ConstantPool) (classRef : ConstantIndex)
    (attributes : List RawAttribute) :
    (w.assemble p classRef attributes).toList = wordBytes 4 magicNumber.toNat ++
      (wordBytes 2 w.header.version.minor.toNat ++ (wordBytes 2 w.header.version.major.toNat ++
      (wordBytes 2 p.count.toNat ++ (p.records.toList.flatMap (fun e => e.2.encoded) ++
      w.body classRef attributes)))) := by
  simp only [assemble, body, RawAttribute.toList_putAll, MemberTable.put, Version.put,
    Bytes.toList_putBytes, Bytes.toList_putU16, Bytes.toList_putU32, Bytes.toList_putU16s,
    ConstantPool.toList_put, Bytes.empty, List.append_assoc, List.nil_append]

end ClassWriter

namespace ClassBytes

open ConstantPool

/-- Behind the pool, the attributes of the class are found. -/
theorem findAttributes_eq {b : Bytes} {header : Nat} {a₁ a₂ a₃ : UInt16} {interfaces : List UInt16}
    {fields methods : MemberTable} {rest : List UInt8} {ms ms' : List WrittenMember}
    (h : b.Has header (wordBytes 2 a₁.toNat ++ (wordBytes 2 a₂.toNat ++ (wordBytes 2 a₃.toNat ++
      (wordBytes 2 (UInt16.ofNat interfaces.length).toNat ++
      (interfaces.flatMap (fun i => wordBytes 2 i.toNat) ++
      ((wordBytes 2 fields.count.toNat ++ fields.bytes.toList) ++
      ((wordBytes 2 methods.count.toNat ++ methods.bytes.toList) ++ rest))))))))
    (hinterfaces : interfaces.length ≤ 65535) (hfields : fields.Lists ms)
    (hmethods : methods.Lists ms') :
    ∃ o, findAttributes b header = .ok o ∧ b.Has o rest := by
  have hinter := h.right.right.right
  have htables := hinter.right.right
  simp only [length_wordBytes, length_flatMap_wordBytes] at hinter htables
  obtain ⟨hcount, hlength⟩ := hinter.left.count hinterfaces
  have hmembers := htables.right
  simp only [List.length_append, length_wordBytes, Array.length_toList] at hmembers
  have hrest := hmembers.right
  simp only [List.length_append, length_wordBytes, Array.length_toList] at hrest
  refine ⟨header + 8 + 2 * interfaces.length + 2 + fields.bytes.size + 2 + methods.bytes.size, ?_, ?_⟩
  · refine bind_eq_ok_iff.2 ⟨_, hcount, ?_⟩
    rw [hlength]
    refine bind_eq_ok_iff.2 ⟨_, htables.left.skipMembers hfields, ?_⟩
    have hskip := hmembers.left.skipMembers hmethods
    rw [← Nat.add_assoc] at hskip
    exact hskip
  · rw [show header + 8 + 2 * interfaces.length + 2 + fields.bytes.size + 2 + methods.bytes.size =
      header + 2 + 2 + 2 + 2 + 2 * interfaces.length + (2 + fields.bytes.size) +
        (2 + methods.bytes.size) by omega]
    exact hrest

variable {c : ClassBytes} {p : ConstantPool} {w : ClassWriter} {table : Option RawAttribute}
  {attributes : List RawAttribute}

/-- The class file has the records of a pool and no others, and the whole bootstrap table where it says
so. -/
structure HoldsExactly (c : ClassBytes) (p : ConstantPool) : Prop extends c.HoldsPool p where
  size : c.itemOffsets.size = p.records.nextOffset
  vacant : ∀ i o, c.itemOffset i = .ok o → ∃ k, p.get? i = some k
  absent : c.bootstrapTable = none → p.bootstrap.entries = #[]
  table : ∀ o, c.bootstrapTable = some o → c.bytes.Has o
    (wordBytes 2 (UInt16.ofNat p.bootstrap.entries.toList.length).toNat ++
      p.bootstrap.entries.toList.flatMap BootstrapEntry.encoded)

/-- **The attributes of the class are gone through**, and the bootstrap table is found among them. -/
theorem indexAttributes_written (h : c.HoldsRecords p) (hempty : c.bootstrapOffsets = #[])
    (hnone : c.bootstrapTable = none) (hsize : c.itemOffsets.size = p.records.nextOffset)
    (hlt : ∀ i k, p.get? i = some k → i.toNat < c.itemOffsets.size)
    (hvacant : ∀ i o, c.itemOffset i = .ok o → ∃ k, p.get? i = some k) (htable : p.IsTable table)
    (hw : w.Writable p table attributes) {o : Nat}
    (hat : c.bytes.Has o (attributes.flatMap RawAttribute.encoded)) :
    ∃ c' o', iterateM (fun (c, o) => indexAttribute c o) attributes.length (c, o) = .ok (c', o') ∧
      c'.HoldsExactly p := by
  obtain ⟨before, after, hsplit, hothers, hlast⟩ := hw.attributes
  have hbefore : ∀ a ∈ before, Other p a := fun a ha => hothers a (List.mem_append_left _ ha)
  have hafter : ∀ a ∈ after, Other p a := fun a ha => hothers a (List.mem_append_right _ ha)
  rw [hsplit, List.flatMap_append, List.flatMap_append] at hat
  rw [hsplit, List.length_append, List.length_append,
    iterateM_add (indexAttribute_others h hbefore hat.left)]
  cases table with
  | none =>
    have hentries : p.bootstrap.entries = #[] := htable
    have hrest := indexAttribute_others h hafter hat.right.right
    rw [show (none : Option RawAttribute).toList.length + after.length = after.length from
      Nat.zero_add _]
    exact ⟨c, _, hrest, ⟨h, hlt, by simp [hentries], hw.modest, hw.entries⟩, hsize, hvacant,
      fun _ => hentries, fun o ho => nomatch hnone.symm.trans ho⟩
  | some a =>
    obtain ⟨hname, hpayload⟩ := htable
    have hat' := hat.right
    simp only [Option.toList_some, List.flatMap_cons, List.flatMap_nil, List.append_nil] at hat'
    obtain ⟨offsets, hfound, hentries⟩ := indexAttribute_table h hat'.left hname hpayload
      (by simpa using hw.entries) fun e he => hw.modest.arguments e (Array.mem_toList_iff.1 he)
    rw [hempty, Array.empty_append] at hfound
    have hholds : HoldsExactly { c with
        bootstrapOffsets := offsets.toArray
        bootstrapTable := some (o + (before.flatMap RawAttribute.encoded).length + 6) } p := by
      have hbytes := hat'.left.right.right
      rw [hpayload, Attribute.toList_bootstrapMethods] at hbytes
      refine ⟨⟨⟨h.record, h.short⟩, hlt, fun k e he => ?_, hw.modest, hw.entries⟩, hsize, hvacant,
        nofun, fun o ho => Option.some.inj ho ▸ hbytes⟩
      have hk : k < p.bootstrap.entries.toList.length := by
        simpa using (Array.getElem?_eq_some_iff.1 he).1
      have hk' : k < offsets.length := hentries.length_eq ▸ hk
      refine ⟨offsets[k], ?_, ?_⟩
      · show offsets.toArray[k]? = some offsets[k]
        simp [hk']
      · have hentry := hentries.get hk' hk
        have he' : p.bootstrap.entries.toList.get ⟨k, hk⟩ = e := by
          simpa using (Array.getElem?_eq_some_iff.1 he).2
        rw [he'] at hentry
        exact hentry
    rw [show (some a).toList.length + after.length = 1 + after.length from rfl,
      iterateM_add (iterateM_one hfound)]
    cases after with
    | nil => exact ⟨_, _, rfl, hholds⟩
    | cons x after =>
      have hlength : (UInt32.ofNat a.payload.size).toNat = a.payload.size :=
        UInt32.toNat_ofNat_of_lt' (hlast (List.cons_ne_nil x after) a rfl)
      have hnext : o + (before.flatMap RawAttribute.encoded).length + 6 +
          (UInt32.ofNat a.payload.size).toNat =
            o + (before.flatMap RawAttribute.encoded).length + a.encoded.length := by
        simp only [hlength, RawAttribute.encoded, List.length_append, length_wordBytes,
          Array.length_toList]
        omega
      rw [hnext]
      exact ⟨_, _, indexAttribute_others hholds.toHoldsRecords hafter hat'.right, hholds⟩

/-- What is found in front of the class when it is accepted, and what is not looked at any more. -/
theorem located_of_ofBytes {b : Bytes} (h : ofBytes b = .ok c) :
    c.bytes = b ∧ (∃ count, b.u16At 8 = .ok count ∧
      indexRecords b count.toNat 1 10 (Array.replicate (max count.toNat 1) 0) =
        .ok (c.itemOffsets, c.header)) ∧ findAttributes b c.header = .ok c.classAttributes := by
  obtain ⟨magic, -, h⟩ := bind_eq_ok_iff.1 h
  split at h
  · exact nomatch h
  · obtain ⟨count, hcount, h⟩ := bind_eq_ok_iff.1 h
    obtain ⟨⟨found₀, header⟩, hfound, h⟩ := bind_eq_ok_iff.1 h
    obtain ⟨classAttributes, hattributes, h⟩ := bind_eq_ok_iff.1 h
    obtain ⟨attributes, -, h⟩ := bind_eq_ok_iff.1 h
    obtain ⟨⟨c, o⟩, hrun, h⟩ := bind_eq_ok_iff.1 h
    cases h
    obtain ⟨hb, hi, hh, ha⟩ := iterateM_keeps (P := fun found => found.1.bytes = b ∧
      found.1.itemOffsets = found₀ ∧ found.1.header = header ∧
      found.1.classAttributes = classAttributes) (fun _ _ hkept hstep => by
        obtain ⟨hb, hi, hh, ha⟩ := indexAttribute_keeps hstep
        exact ⟨hb.trans hkept.1, hi.trans hkept.2.1, hh.trans hkept.2.2.1, ha.trans hkept.2.2.2⟩)
      ⟨rfl, rfl, rfl, rfl⟩ hrun
    rw [hi, hh, ha]
    exact ⟨hb, ⟨count, hcount, hfound⟩, hattributes⟩

/-- **The records of the pool are found in an assembled class**, and no others, and the class behind
them. -/
theorem indexRecords_assemble (hp : p.InOrder) (hshort : ∀ e ∈ p.records.toList, e.2.Short)
    (w : ClassWriter) (classRef : ConstantIndex) (attributes : List RawAttribute) {b : Bytes}
    (hb : b = w.assemble p classRef attributes) :
    b.u32At 0 = .ok magicNumber ∧ b.u16At 8 = .ok p.count ∧ ∃ found header,
      indexRecords b p.count.toNat 1 10 (Array.replicate (max p.count.toNat 1) 0) =
        .ok (found, header) ∧ b.Has header (w.body classRef attributes) ∧
      found.size = p.records.nextOffset ∧
      ∀ c : ClassBytes, c.bytes = b → c.itemOffsets = found →
        c.HoldsRecords p ∧ ∀ i o, c.itemOffset i = .ok o → ∃ k, p.get? i = some k := by
  have hnext : p.count.toNat = p.records.nextOffset := by
    have := hp.room
    exact UInt16.toNat_ofNat_of_lt' (show p.records.nextOffset < 65536 by omega)
  have hall : b.Has 0 b.toList := ⟨[], [], by simp, rfl⟩
  have hbytes := congrArg Array.toList hb
  rw [ClassWriter.toList_assemble] at hbytes
  rw [hbytes] at hall
  have hcount : b.Has 8 _ := hall.right.right.right
  have hrecords : b.Has 10 _ := hcount.right
  obtain ⟨found, hfound, hsize, hother, hplaced⟩ := indexRecords_encoded
    (Array.replicate (max p.records.nextOffset 1) 0) hp.laid hshort hrecords.left
    (by rw [Array.size_replicate]; exact Nat.le_max_left _ _)
  have hfsize : found.size = p.records.nextOffset := by
    rw [hsize, Array.size_replicate]
    exact Nat.max_eq_left hp.laid.le
  rw [hnext]
  refine ⟨hall.left.u32At, hcount.left.u16At, found, _, hfound, hrecords.right, hfsize, ?_⟩
  rintro c rfl rfl
  refine ⟨⟨fun i k hi => ?_, fun i k hi => hshort _ (hp.mem_records_iff.1 hi)⟩, fun i o hi => ?_⟩
  · obtain ⟨off, hoff, hle, hat⟩ := hplaced _ (hp.mem_records_iff.1 hi)
    exact ⟨off, itemOffset_eq_ok_iff.2 ⟨hoff, by omega⟩, hat⟩
  · by_contra hfree
    exact itemOffset_ne_ok (hother i.toNat fun e he hei =>
      hfree ⟨e.2, hp.mem_records_iff.2 (hei ▸ he)⟩) hi

/-- **An accepted class holds the records** of the pool that was written into it. -/
theorem holdsRecords_of_assemble (hp : p.InOrder) (hshort : ∀ e ∈ p.records.toList, e.2.Short)
    {classRef : ConstantIndex} (h : ofBytes (w.assemble p classRef attributes) = .ok c) :
    c.HoldsRecords p ∧ c.bytes.Has c.header (w.body classRef attributes) := by
  obtain ⟨hbytes, ⟨count, hcount, hrun⟩, -⟩ := located_of_ofBytes h
  obtain ⟨-, hcount', found, header, hfound, hbody, -, hholds⟩ :=
    indexRecords_assemble hp hshort w classRef attributes rfl
  obtain rfl : count = p.count := Except.ok.inj (hcount.symm.trans hcount')
  obtain ⟨rfl, rfl⟩ := Prod.mk.inj (Except.ok.inj (hfound.symm.trans hrun))
  rw [hbytes]
  exact ⟨(hholds c hbytes rfl).1, hbody⟩

/-- **An assembled class is accepted**, and holds the pool that was written into it and no records
besides. -/
theorem ofBytes_assemble (hp : p.InOrder) (htable : p.IsTable table)
    (hw : w.Writable p table attributes) (classRef : ConstantIndex) :
    ∃ c, ofBytes (w.assemble p classRef attributes) = .ok c ∧ c.HoldsExactly p := by
  generalize hb : w.assemble p classRef attributes = b
  obtain ⟨hmagic, hcount, found, header, hfound, hbody, hsize, hholds⟩ :=
    indexRecords_assemble hp hw.modest.short w classRef attributes hb.symm
  obtain ⟨ms, hfields⟩ := hw.fields
  obtain ⟨ms', hmethods⟩ := hw.methods
  obtain ⟨o, ho, hattributes⟩ := findAttributes_eq hbody hw.interfaces hfields hmethods
  obtain ⟨hnumber, hlength⟩ := hattributes.left.count hw.count
  obtain ⟨hrecords, hvacant⟩ := hholds ⟨b, found, header, o, #[], none⟩ rfl rfl
  have hlt : ∀ i k, p.get? i = some k → i.toNat < found.size := fun i k hi => by
    rw [hsize]
    exact hp.lt_next hi
  obtain ⟨c, o', hc, hpool⟩ :=
    indexAttributes_written hrecords rfl rfl hsize hlt hvacant htable hw hattributes.right
  rw [← hlength] at hc
  exact ⟨c, ofBytes_eq_ok hmagic hcount hfound ho hnumber hc, hpool⟩

end ClassBytes

end ClassFile
