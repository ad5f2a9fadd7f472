/-
# What attributes say about declarations

A `Remark` is what an attribute says about a class, a field or a method: a value, a signature, a table
of classes.  `p.Says r a` says that the attribute `a` is the remark `r`, with the constants of the pool
`p`.  The attributes of a declaration say what was declared (section 2), and where they stand in a class
file that has the pool, they are found one after the other, and each is read as the remark that it is
(sections 3 and 4).

No remark has the name of an attribute that stands for something else: annotations, code, a default, or
a flag.
-/
import ClassFile.ClassBytes.Events
import ClassFile.Proofs.ClassBytes.Assembled
import ClassFile.Proofs.ConstantPool.Lasting

namespace ClassFile

open ConstantPool

/-! ## 1. Remarks -/

/-- What an attribute says about a declaration. -/
inductive Remark where
  | value (v : Loadable)
  | sourceFile (text : String)
  | signature (text : String)
  | nestHost (name : String)
  | nestMembers (names : List String)
  | exceptions (names : List String)
  | innerClasses (classes : List InnerClass)
  | bootstrapMethods
  | deprecated

/-- The strings of an inner class are short. -/
structure InnerClass.Short (c : InnerClass) : Prop where
  name : ModifiedUtf8.Fits c.name
  outer : ∀ n ∈ c.outer, ModifiedUtf8.Fits n
  innerName : ∀ n ∈ c.innerName, ModifiedUtf8.Fits n

/-- An entry of the table of inner classes as it is written. -/
def InnerClassEntry.encoded (e : InnerClassEntry) : List UInt8 :=
  wordBytes 2 e.inner.toNat ++ (wordBytes 2 (e.outer.getD 0).toNat ++
    (wordBytes 2 (e.name.getD 0).toNat ++ wordBytes 2 e.access.toNat))

/-- The entry is this inner class. -/
structure ConstantPool.IsInnerClass (p : ConstantPool) (c : InnerClass) (e : InnerClassEntry) :
    Prop where
  inner : p.Names .classRef e.inner c.name
  outer : Option.Rel (fun name i => p.Names .classRef i name) c.outer e.outer
  name : Option.Rel (fun name i => p.text? i = some name) c.innerName e.name
  access : e.access = c.access

namespace Remark

/-- The name of the attribute. -/
def name : Remark → String
  | value _ => "ConstantValue"
  | sourceFile _ => "SourceFile"
  | signature _ => "Signature"
  | nestHost _ => "NestHost"
  | nestMembers _ => "NestMembers"
  | exceptions _ => "Exceptions"
  | innerClasses _ => "InnerClasses"
  | bootstrapMethods => "BootstrapMethods"
  | deprecated => "Deprecated"

/-- The names of attributes that are remarks. -/
def names : List String := ["ConstantValue", "SourceFile", "Signature", "NestHost", "NestMembers",
  "Exceptions", "InnerClasses", "BootstrapMethods", "Deprecated"]

theorem name_mem_names (r : Remark) : r.name ∈ names := by
  cases r <;> simp [name, names]

/-- Strings are short, tables can be counted, and handles are read as they were written.  Of the
bootstrap table nothing like that is known. -/
def Fits : Remark → Prop
  | value v => v.Short ∧ v.Plain
  | sourceFile text | signature text | nestHost text => ModifiedUtf8.Fits text
  | nestMembers names | exceptions names => names.length ≤ 65535 ∧ ∀ n ∈ names, ModifiedUtf8.Fits n
  | innerClasses classes => classes.length ≤ 65535 ∧ ∀ c ∈ classes, c.Short
  | bootstrapMethods => False
  | deprecated => True

/-- The bytes are the remark, with the constants of a pool. -/
def Encodes (p : ConstantPool) : Remark → List UInt8 → Prop
  | value v, l => ∃ i, p.Spells v i ∧ l = wordBytes 2 i.toNat
  | sourceFile text, l | signature text, l => ∃ i, p.text? i = some text ∧ l = wordBytes 2 i.toNat
  | nestHost name, l => ∃ i, p.Names .classRef i name ∧ l = wordBytes 2 i.toNat
  | nestMembers names, l | exceptions names, l =>
    ∃ indices : List ConstantIndex, List.Forall₂ (fun name i => p.Names .classRef i name) names indices ∧
      l = wordBytes 2 (UInt16.ofNat indices.length).toNat ++
        indices.flatMap fun i => wordBytes 2 i.toNat
  | innerClasses classes, l =>
    ∃ entries, List.Forall₂ p.IsInnerClass classes entries ∧
      l = wordBytes 2 (UInt16.ofNat entries.length).toNat ++ entries.flatMap InnerClassEntry.encoded
  | bootstrapMethods, _ => True
  | deprecated, l => l = []

/-- A remark that fits has a length that fits. -/
theorem Encodes.length_lt {p : ConstantPool} {r : Remark} (hr : r.Fits) {l : List UInt8}
    (hl : r.Encodes p l) : l.length < 4294967296 := by
  cases r with
  | value | sourceFile | signature | nestHost =>
    obtain ⟨i, -, rfl⟩ := hl
    rw [length_wordBytes]
    decide
  | nestMembers | exceptions =>
    obtain ⟨indices, hindices, rfl⟩ := hl
    have hcount := hr.1
    rw [hindices.length_eq] at hcount
    rw [List.length_append, length_wordBytes, length_flatMap_wordBytes]
    omega
  | innerClasses =>
    obtain ⟨entries, hentries, rfl⟩ := hl
    have hcount := hr.1
    rw [hentries.length_eq] at hcount
    have hlength : ∀ es : List InnerClassEntry,
        (es.flatMap InnerClassEntry.encoded).length = 8 * es.length := by
      intro es
      simp only [List.length_flatMap, InnerClassEntry.encoded, List.length_append, length_wordBytes,
        List.map_const', List.sum_replicate_nat, Nat.mul_comm]
    rw [List.length_append, length_wordBytes, hlength]
    omega
  | bootstrapMethods => exact hr.elim
  | deprecated =>
    obtain rfl : l = [] := hl
    decide

end Remark

/-- The attribute is this remark. -/
def ConstantPool.Says (p : ConstantPool) (r : Remark) (a : RawAttribute) : Prop :=
  p.text? a.name = some r.name ∧ r.Encodes p a.payload.toList

/-! ## 2. Attributes that are written -/

theorem ConstantPool.lasts_named_remark {a : Attribute} {r : Remark} (hname : a.name = r.name) :
    Lasts (named a) fun x q => r.Encodes q a.payload.toList → q.Says r x := by
  have hfits : ModifiedUtf8.Fits r.name := by
    cases r <;> (rw [Remark.name]; decide)
  refine (lasts_named (hname ▸ hfits)).imp fun x q hx hr => ?_
  exact ⟨hname ▸ hx.1, hx.2 ▸ hr⟩

/-- An attribute that holds a constant, if there is one. -/
theorem lasts_constantAttribute {α : Type} {constant : α → PoolM ConstantIndex}
    {D : α → ConstantIndex → ConstantPool → Prop} {content : ConstantIndex → Attribute}
    {remark : α → Remark} {value : Option α}
    (hconstant : ∀ v, (remark v).Fits → Lasts (constant v) (D v))
    (hname : ∀ v i, (content i).name = (remark v).name)
    (hcontent : ∀ v i q, D v i q → (remark v).Encodes q (content i).payload.toList)
    (hfits : ∀ r ∈ value.toList.map remark, r.Fits) :
    Lasts (constantAttribute constant content value)
      fun as q => List.Forall₂ q.Says (value.toList.map remark) as := by
  cases value with
  | none => exact .pure fun _ => .nil
  | some v =>
    refine ((hconstant v (hfits _ (by simp))).bind fun i => (lasts_named_remark (hname v i)).bind
      fun a => .pure (D := fun as _ => as = [a]) fun _ => rfl).imp ?_
    rintro _ q ⟨i, hi, a, ha, rfl⟩
    exact .cons (ha (hcontent v i q hi)) .nil

theorem toList_putU16_empty (i : UInt16) : (Bytes.empty.putU16 i).toList = wordBytes 2 i.toNat :=
  Bytes.toList_putU16 _ _

theorem lasts_valueAttribute {value : Option Loadable}
    (hfits : ∀ r ∈ value.toList.map Remark.value, r.Fits) :
    Lasts (constantAttribute loadable .constantValue value)
      fun as q => List.Forall₂ q.Says (value.toList.map .value) as :=
  lasts_constantAttribute (fun _ h => lasts_loadable h.1) (fun _ _ => rfl)
    (fun _ i _ h => ⟨i, h, toList_putU16_empty i⟩) hfits

theorem lasts_sourceFileAttribute {text : Option String}
    (hfits : ∀ r ∈ text.toList.map Remark.sourceFile, r.Fits) :
    Lasts (constantAttribute utf8 .sourceFile text)
      fun as q => List.Forall₂ q.Says (text.toList.map .sourceFile) as :=
  lasts_constantAttribute (fun _ h => lasts_utf8 h) (fun _ _ => rfl)
    (fun _ i _ h => ⟨i, h, toList_putU16_empty i⟩) hfits

theorem lasts_signatureAttribute {text : Option String}
    (hfits : ∀ r ∈ text.toList.map Remark.signature, r.Fits) :
    Lasts (constantAttribute utf8 .signature text)
      fun as q => List.Forall₂ q.Says (text.toList.map .signature) as :=
  lasts_constantAttribute (fun _ h => lasts_utf8 h) (fun _ _ => rfl)
    (fun _ i _ h => ⟨i, h, toList_putU16_empty i⟩) hfits

theorem lasts_nestHostAttribute {name : Option String}
    (hfits : ∀ r ∈ name.toList.map Remark.nestHost, r.Fits) :
    Lasts (constantAttribute classRef .nestHost name)
      fun as q => List.Forall₂ q.Says (name.toList.map .nestHost) as :=
  lasts_constantAttribute (fun _ h => lasts_classRef h) (fun _ _ => rfl)
    (fun _ i _ h => ⟨i, h, toList_putU16_empty i⟩) hfits

/-- The remark that something is deprecated, if it is. -/
def Remark.ifDeprecated (deprecated : Bool) : List Remark := if deprecated then [.deprecated] else []

theorem Remark.mem_ifDeprecated {deprecated : Bool} {r : Remark} (h : r ∈ ifDeprecated deprecated) :
    r = .deprecated := by
  cases deprecated with
  | false => exact nomatch h
  | true => exact List.mem_singleton.1 h

theorem lasts_deprecatedAttribute (deprecated : Bool) : Lasts (deprecatedAttribute deprecated)
    fun as q => List.Forall₂ q.Says (Remark.ifDeprecated deprecated) as := by
  have hfits : ModifiedUtf8.Fits "Deprecated" := by decide
  cases deprecated with
  | false => exact .pure fun _ => .nil
  | true =>
    refine ((lasts_utf8 hfits).bind fun i =>
      .pure (D := fun as _ => as = [RawAttribute.mk i .empty]) fun _ => rfl).imp ?_
    rintro _ q ⟨i, hi, rfl⟩
    exact .cons ⟨hi, rfl⟩ .nil

/-- A remark about classes, unless there are none. -/
def Remark.classes (remark : List String → Remark) (names : List String) : List Remark :=
  if names = [] then [] else [remark names]

theorem Remark.mem_classes {remark : List String → Remark} {names : List String} {r : Remark}
    (h : r ∈ classes remark names) : r = remark names := by
  cases names with
  | nil => exact nomatch h
  | cons => exact List.mem_singleton.1 h

/-- An attribute that lists classes, unless there are none. -/
theorem lasts_classesAttribute {content : List ConstantIndex → Attribute}
    {remark : List String → Remark} {names : List String}
    (hnames : (remark names).Fits → ∀ n ∈ names, ModifiedUtf8.Fits n)
    (hname : ∀ is, (content is).name = (remark names).name)
    (hcontent : ∀ is q, List.Forall₂ (fun name i => q.Names .classRef i name) names is →
      (remark names).Encodes q (content is).payload.toList)
    (hfits : ∀ r ∈ Remark.classes remark names, r.Fits) :
    Lasts (do
        if names.isEmpty then return []
        let classes ← names.mapM classRef
        return [← named (content classes)])
      fun as q => List.Forall₂ q.Says (Remark.classes remark names) as := by
  cases names with
  | nil => exact .pure fun _ => .nil
  | cons n ns =>
    have hfits := hfits _ List.mem_cons_self
    refine ((Lasts.mapM fun n hn => lasts_classRef (hnames hfits n hn)).bind fun is =>
      (lasts_named_remark (hname is)).bind fun a => .pure (D := fun as _ => as = [a])
        fun _ => rfl).imp ?_
    rintro _ q ⟨is, his, a, ha, rfl⟩
    exact .cons (ha (hcontent is q his)) .nil

theorem toList_putU16s_empty (words : List UInt16) : (Bytes.empty.putU16s words).toList =
    wordBytes 2 (UInt16.ofNat words.length).toNat ++ words.flatMap fun w => wordBytes 2 w.toNat :=
  Bytes.toList_putU16s _ _

theorem lasts_nestMembersAttribute {names : List String}
    (hfits : ∀ r ∈ Remark.classes .nestMembers names, r.Fits) :
    Lasts (ClassHeader.nestMembersAttribute names)
      fun as q => List.Forall₂ q.Says (Remark.classes .nestMembers names) as :=
  lasts_classesAttribute (fun h => h.2) (fun _ => rfl)
    (fun is _ h => ⟨is, h, toList_putU16s_empty is⟩) hfits

theorem lasts_exceptionsAttribute {names : List String}
    (hfits : ∀ r ∈ Remark.classes .exceptions names, r.Fits) :
    Lasts (MethodWriter.exceptionsAttribute names)
      fun as q => List.Forall₂ q.Says (Remark.classes .exceptions names) as :=
  lasts_classesAttribute (fun h => h.2) (fun _ => rfl)
    (fun is _ h => ⟨is, h, toList_putU16s_empty is⟩) hfits

/-! ## 3. Attributes that are found -/

namespace ClassBytes

variable {c : ClassBytes} {p : ConstantPool}

/-- What was found is this attribute, under its name. -/
structure Locates (c : ClassBytes) (p : ConstantPool) (a : RawAttribute) (f : AttributeAt) : Prop where
  name : p.text? a.name = some f.name
  payload : c.bytes.Has f.payload a.payload.toList

/-- One attribute, whatever its length is written as. -/
theorem HoldsRecords.locates (h : c.HoldsRecords p) {a : RawAttribute}
    (ha : ∃ name, p.text? a.name = some name) {o : Nat} (hat : c.bytes.Has o a.encoded) :
    ∃ f, c.Locates p a f ∧
      c.attributeAt o = .ok (f, o + 6 + (UInt32.ofNat a.payload.size).toNat) := by
  obtain ⟨name, ha⟩ := ha
  have hread := hat.right.left.u32At
  have hpayload := hat.right.right
  rw [length_wordBytes] at hread hpayload
  have hlength : (UInt32.ofNat a.payload.size).toNat ≤ a.payload.toList.length := by
    rw [UInt32.toNat_ofNat', Array.length_toList]
    exact Nat.mod_le _ _
  have hsome := hpayload
  rw [← List.take_append_drop (UInt32.ofNat a.payload.size).toNat a.payload.toList] at hsome
  have hbytes := hsome.left.bytesAt
  rw [List.length_take, Nat.min_eq_left hlength] at hbytes
  exact ⟨⟨name, o + 6⟩, ⟨ha, hpayload⟩, bind_eq_ok_iff.2 ⟨_, h.utf8At hat.left ha,
    bind_eq_ok_iff.2 ⟨_, hread, bind_eq_ok_iff.2 ⟨_, hbytes, rfl⟩⟩⟩⟩

/-- A step from one attribute to the next one. -/
def findNext (c : ClassBytes) : Array AttributeAt × Nat → Except Error (Array AttributeAt × Nat)
  | (found, offset) => do
    let (a, next) ← c.attributeAt offset
    return (found.push a, next)

theorem findNext_eq {f : AttributeAt} {o next : Nat} (h : c.attributeAt o = .ok (f, next))
    (found : Array AttributeAt) : c.findNext (found, o) = .ok (found.push f, next) :=
  bind_eq_ok_iff.2 ⟨_, h, rfl⟩

/-- Several attributes, whose lengths fit. -/
theorem HoldsRecords.locates_all (h : c.HoldsRecords p) {as : List RawAttribute}
    (has : ∀ a ∈ as, ∃ name, p.text? a.name = some name)
    (hlength : ∀ a ∈ as, a.payload.size < 4294967296) :
    ∀ {o : Nat} (found : Array AttributeAt), c.bytes.Has o (as.flatMap RawAttribute.encoded) →
      ∃ fs, List.Forall₂ (c.Locates p) as fs ∧ iterateM c.findNext as.length (found, o) =
        .ok (found ++ fs.toArray, o + (as.flatMap RawAttribute.encoded).length) := by
  induction as with
  | nil => exact fun found _ => ⟨[], .nil, by simp [iterateM]⟩
  | cons a as ih =>
    intro o found hat
    rw [List.flatMap_cons] at hat
    obtain ⟨f, hf, hone⟩ := h.locates (has a (by simp)) hat.left
    obtain ⟨fs, hfs, hall⟩ := ih (fun x hx => has x (by simp [hx]))
      (fun x hx => hlength x (by simp [hx])) (found.push f) hat.right
    have hnext : o + 6 + (UInt32.ofNat a.payload.size).toNat = o + a.encoded.length := by
      rw [UInt32.toNat_ofNat_of_lt' (hlength a (by simp))]
      simp only [RawAttribute.encoded, List.length_append, length_wordBytes, Array.length_toList]
      omega
    refine ⟨f :: fs, .cons hf hfs, ?_⟩
    rw [List.length_cons, iterateM, findNext_eq hone, hnext]
    refine hall.trans ?_
    simp [Nat.add_assoc]

/-- At most one attribute, whose length need not fit. -/
theorem HoldsRecords.locates_last (h : c.HoldsRecords p) {last : Option RawAttribute}
    (hlast : ∀ a ∈ last, ∃ name, p.text? a.name = some name) {o : Nat} (found : Array AttributeAt)
    (hat : c.bytes.Has o (last.toList.flatMap RawAttribute.encoded)) :
    ∃ fs stop, List.Forall₂ (c.Locates p) last.toList fs ∧
      iterateM c.findNext last.toList.length (found, o) = .ok (found ++ fs.toArray, stop) ∧
      (last = none → stop = o) := by
  cases last with
  | none => exact ⟨[], o, .nil, by simp [iterateM], fun _ => rfl⟩
  | some a =>
    rw [Option.toList_some, List.flatMap_singleton] at hat
    obtain ⟨f, hf, hone⟩ := h.locates (hlast a rfl) hat
    refine ⟨[f], o + 6 + (UInt32.ofNat a.payload.size).toNat, .cons hf .nil, ?_, by rintro ⟨⟩⟩
    show iterateM _ 1 _ = .ok (found.push f, _)
    rw [iterateM, findNext_eq hone]
    rfl

/-- **The attributes of a declaration are found.**  The length of the last one need not fit, if nothing
comes behind. -/
theorem HoldsRecords.locates_attributesAt (h : c.HoldsRecords p) {as : List RawAttribute}
    (last : Option RawAttribute) (has : ∀ a ∈ as, ∃ name, p.text? a.name = some name)
    (hlast : ∀ a ∈ last, ∃ name, p.text? a.name = some name)
    (hlength : ∀ a ∈ as, a.payload.size < 4294967296)
    (hcount : (as ++ last.toList).length ≤ 65535) {o : Nat}
    (hat : c.bytes.Has o (RawAttribute.allEncoded (as ++ last.toList))) :
    ∃ fs stop, List.Forall₂ (c.Locates p) (as ++ last.toList) fs ∧
      c.attributesAt o = .ok (fs, stop) ∧
      (last = none → stop = o + (RawAttribute.allEncoded as).length) := by
  obtain ⟨hread, hnumber⟩ := hat.left.count hcount
  have hrest := hat.right
  rw [length_wordBytes, List.flatMap_append] at hrest
  obtain ⟨fs, hfs, hall⟩ := h.locates_all has hlength #[] hrest.left
  obtain ⟨gs, stop, hgs, hone, hstop⟩ := h.locates_last hlast (#[] ++ fs.toArray) hrest.right
  refine ⟨fs ++ gs, stop, List.rel_append hfs hgs, ?_, fun hnone => ?_⟩
  · refine bind_eq_ok_iff.2 ⟨_, hread,
      bind_eq_ok_iff.2 ⟨(#[] ++ fs.toArray ++ gs.toArray, stop), ?_, ?_⟩⟩
    · rw [hnumber, List.length_append]
      exact (iterateM_add hall).trans hone
    · show Except.ok ((#[] ++ fs.toArray ++ gs.toArray).toList, stop) = _
      simp
  · rw [hstop hnone, RawAttribute.allEncoded, List.length_append, length_wordBytes, Nat.add_assoc]

/-- What was found is this remark. -/
structure Finds (c : ClassBytes) (p : ConstantPool) (r : Remark) (f : AttributeAt) : Prop where
  name : f.name = r.name
  payload : ∃ l, r.Encodes p l ∧ c.bytes.Has f.payload l

theorem Locates.finds {r : Remark} {a : RawAttribute} {f : AttributeAt} (hf : c.Locates p a f)
    (ha : p.Says r a) : c.Finds p r f :=
  ⟨Option.some.inj (hf.name.symm.trans ha.1), _, ha.2, hf.payload⟩

theorem finds_of_locates {rs : List Remark} {as : List RawAttribute} {fs : List AttributeAt}
    (has : List.Forall₂ p.Says rs as) (hfs : List.Forall₂ (c.Locates p) as fs) :
    List.Forall₂ (c.Finds p) rs fs := by
  induction has generalizing fs with
  | nil =>
    cases hfs
    exact .nil
  | cons ha _ ih =>
    obtain ⟨f, rest, hf, hrest, rfl⟩ := List.forall₂_cons_left_iff.1 hfs
    exact .cons (hf.finds ha) (ih hrest)

/-- **Remarks are found** where their attributes stand. -/
theorem HoldsRecords.attributesAt (h : c.HoldsRecords p) {rs rs' : List Remark}
    {as : List RawAttribute} (last : Option RawAttribute) (has : List.Forall₂ p.Says rs as)
    (hlast : List.Forall₂ p.Says rs' last.toList) (hlength : ∀ a ∈ as, a.payload.size < 4294967296)
    (hcount : (as ++ last.toList).length ≤ 65535) {o : Nat}
    (hat : c.bytes.Has o (RawAttribute.allEncoded (as ++ last.toList))) :
    ∃ fs stop, List.Forall₂ (c.Finds p) (rs ++ rs') fs ∧ c.attributesAt o = .ok (fs, stop) ∧
      (last = none → stop = o + (RawAttribute.allEncoded as).length) := by
  have hnamed : ∀ {rs : List Remark} {as : List RawAttribute}, List.Forall₂ p.Says rs as →
      ∀ a ∈ as, ∃ name, p.text? a.name = some name := fun has a ha =>
    have ⟨_, _, hsays⟩ := exists_of_forall₂ has ha
    ⟨_, hsays.1⟩
  obtain ⟨fs, stop, hfs, hfound, hstop⟩ := h.locates_attributesAt last (hnamed has)
    (fun a ha => hnamed hlast a (Option.mem_toList.2 ha)) hlength hcount hat
  exact ⟨fs, stop, finds_of_locates (List.rel_append has hlast) hfs, hfound, hstop⟩

/-! ## 4. Attributes that are read -/

/-- Remarks are not found under names of something else. -/
theorem names_ne {rs : List Remark} {fs : List AttributeAt} (hfs : List.Forall₂ (c.Finds p) rs fs)
    {name : String} (hname : ∀ r ∈ rs, r.name ≠ name) : ∀ f ∈ fs, f.name ≠ name := by
  intro f hmem
  obtain ⟨r, hr, hf⟩ := exists_of_forall₂ hfs hmem
  exact hf.name ▸ hname r hr

theorem names_ne_of_not_mem {rs : List Remark} {fs : List AttributeAt}
    (hfs : List.Forall₂ (c.Finds p) rs fs) (name : String) (hname : name ∉ Remark.names) :
    ∀ f ∈ fs, f.name ≠ name :=
  names_ne hfs fun r _ heq => hname (heq ▸ r.name_mem_names)

theorem hasNamed_eq_false {name : String} {fs : List AttributeAt} (h : ∀ f ∈ fs, f.name ≠ name) :
    hasNamed name fs = false := by
  simpa [hasNamed] using h

theorem annotationTables_eq_nil {visible invisible : String} {fs : List AttributeAt}
    (h : ∀ f ∈ fs, f.name ≠ visible ∧ f.name ≠ invisible) :
    annotationTables visible invisible fs = [] := by
  refine List.filterMap_eq_nil_iff.2 fun f hf => ?_
  rw [if_neg (h f hf).1, if_neg (h f hf).2]

theorem lastNamed_eq_none {name : String} {fs : List AttributeAt} (h : ∀ f ∈ fs, f.name ≠ name) :
    lastNamed name fs = none := by
  rw [lastNamed, List.find?_eq_none.2 fun f hf => ?_, Option.map_none]
  simpa using h f (List.mem_reverse.1 hf)

/-- A class that may be absent. -/
theorem HoldsRecords.classAt (h : c.HoldsRecords p) (hp : p.InOrder) {o : Nat} {name : Option String}
    {i : Option ConstantIndex} (hi : Option.Rel (fun name i => p.Names .classRef i name) name i)
    (hat : c.bytes.Has o (wordBytes 2 (i.getD 0).toNat)) : c.classAt o = .ok name := by
  refine bind_eq_ok_iff.2 ⟨_, hat.u16At, ?_⟩
  cases hi with
  | none => rfl
  | @some name i hi =>
    obtain ⟨_, hplaced⟩ := hi.placed
    rw [Option.getD_some, if_neg (hp.ne_zero hplaced)]
    exact bind_eq_ok_iff.2 ⟨name, h.readClass hi, rfl⟩

/-- Classes that are listed. -/
theorem HoldsRecords.classesAt (h : c.HoldsRecords p) {names : List String}
    {indices : List ConstantIndex}
    (hi : List.Forall₂ (fun name i => p.Names .classRef i name) names indices)
    (hcount : names.length ≤ 65535) {o : Nat}
    (hat : c.bytes.Has o (wordBytes 2 (UInt16.ofNat indices.length).toNat ++
      indices.flatMap fun i => wordBytes 2 i.toNat)) : c.classesAt o = .ok names := by
  obtain ⟨hread, hnumber⟩ := hat.left.count (hi.length_eq ▸ hcount)
  refine bind_eq_ok_iff.2 ⟨_, hread, ?_⟩
  rw [hnumber, ← hi.length_eq]
  refine mapM_range_eq_ok fun k hk => ?_
  have hk' : k < indices.length := hi.length_eq ▸ hk
  exact bind_eq_ok_iff.2 ⟨_, hat.right.word hk', h.readClass (hi.get hk hk')⟩

end ClassBytes

/-! ## 5. Declarations that are read -/

namespace Remark

/-- What a remark says about a field. -/
def onField (info : FieldInfo) : Remark → FieldInfo
  | value v => { info with value := some v }
  | signature text => { info with signature := some text }
  | deprecated => { info with deprecated := true }
  | _ => info

/-- What a remark says about a method. -/
def onMethod (info : MethodInfo) : Remark → MethodInfo
  | exceptions names => { info with exceptions := names }
  | signature text => { info with signature := some text }
  | deprecated => { info with deprecated := true }
  | _ => info

/-- What a remark says about the header of a class. -/
def onClass (info : ClassInfo) : Remark → ClassInfo
  | sourceFile text => { info with sourceFile := some text }
  | signature text => { info with signature := some text }
  | nestHost name => { info with nestHost := some name }
  | nestMembers names => { info with nestMembers := names }
  | deprecated => { info with deprecated := true }
  | _ => info

end Remark

namespace ClassBytes

variable {c : ClassBytes} {p : ConstantPool}

theorem HoldsPool.fieldAttribute (h : c.HoldsPool p) (hp : p.Coherent) {r : Remark} (hr : r.Fits)
    {f : AttributeAt} (hf : c.Finds p r f) (info : FieldInfo) :
    c.fieldAttribute info f = .ok (r.onField info) := by
  obtain ⟨name, o⟩ := f
  obtain ⟨rfl, l, hl, hat⟩ := hf
  cases r with
  | value v =>
    obtain ⟨i, hi, rfl⟩ := hl
    exact bind_eq_ok_iff.2 ⟨i, hat.u16At, bind_eq_ok_iff.2 ⟨v, h.readLoadable hp.bootstrap hi hr.2, rfl⟩⟩
  | signature text =>
    obtain ⟨i, hi, rfl⟩ := hl
    exact bind_eq_ok_iff.2 ⟨text, h.utf8At hat hi, rfl⟩
  | _ => rfl

theorem HoldsPool.methodAttribute (h : c.HoldsPool p) {r : Remark} (hr : r.Fits) {f : AttributeAt}
    (hf : c.Finds p r f) (info : MethodInfo) :
    c.methodAttribute info f = .ok (r.onMethod info) := by
  obtain ⟨name, o⟩ := f
  obtain ⟨rfl, l, hl, hat⟩ := hf
  cases r with
  | exceptions names =>
    obtain ⟨indices, hi, rfl⟩ := hl
    exact bind_eq_ok_iff.2 ⟨names, h.classesAt hi hr.1 hat, rfl⟩
  | signature text =>
    obtain ⟨i, hi, rfl⟩ := hl
    exact bind_eq_ok_iff.2 ⟨text, h.utf8At hat hi, rfl⟩
  | _ => rfl

theorem HoldsPool.classAttribute (h : c.HoldsPool p) (hp : p.Coherent) {r : Remark}
    (hr : r.Fits ∨ r = .bootstrapMethods) {f : AttributeAt} (hf : c.Finds p r f) (info : ClassInfo) :
    c.classAttribute info f = .ok (r.onClass info) := by
  obtain ⟨name, o⟩ := f
  obtain ⟨rfl, l, hl, hat⟩ := hf
  cases r with
  | sourceFile text | signature text =>
    obtain ⟨i, hi, rfl⟩ := hl
    exact bind_eq_ok_iff.2 ⟨text, h.utf8At hat hi, rfl⟩
  | nestHost name =>
    obtain ⟨i, hi, rfl⟩ := hl
    exact bind_eq_ok_iff.2 ⟨some name, h.classAt hp.inOrder (i := some i) (.some hi) hat, rfl⟩
  | nestMembers names =>
    obtain ⟨indices, hi, rfl⟩ := hl
    exact bind_eq_ok_iff.2 ⟨names, h.classesAt hi (hr.resolve_right nofun).1 hat, rfl⟩
  | _ => rfl

/-- Remarks that are read one after the other. -/
theorem foldlM_finds {α : Type} {read : α → AttributeAt → Except Error α} {on : α → Remark → α}
    {rs : List Remark} {fs : List AttributeAt} (hfs : List.Forall₂ (c.Finds p) rs fs)
    (hread : ∀ r ∈ rs, ∀ f, c.Finds p r f → ∀ x, read x f = .ok (on x r)) (x : α) :
    fs.foldlM read x = .ok (rs.foldl on x) := by
  induction hfs generalizing x with
  | nil => rfl
  | @cons r f rs fs hf hfs ih =>
    rw [List.foldlM_cons, hread r (by simp) f hf]
    exact ih (fun r hr => hread r (by simp [hr])) _

/-- An inner class is read from its row. -/
theorem HoldsRecords.innerClassAt (h : c.HoldsRecords p) (hp : p.InOrder) {i : InnerClass}
    {e : InnerClassEntry} (hi : p.IsInnerClass i e) {o : Nat} (hat : c.bytes.Has o e.encoded) :
    c.innerClassAt o = .ok i := by
  obtain ⟨name, outer, innerName, _⟩ := i
  obtain ⟨inner, outerIndex, nameIndex, access⟩ := e
  obtain ⟨hname, houter, hinner, rfl⟩ := hi
  have houterAt := hat.right.left
  have hinnerAt := hat.right.right.left
  have haccessAt := hat.right.right.right
  simp only [length_wordBytes] at houterAt hinnerAt haccessAt
  have hrest : ∀ n, (do
      let outer ← c.classAt (o + 2)
      return { name, outer, innerName := n, access := ← c.bytes.u16At (o + 6) } :
        Except Error InnerClass) = .ok ⟨name, outer, n, access⟩ := fun n =>
    bind_eq_ok_iff.2 ⟨outer, h.classAt hp houter houterAt,
      bind_eq_ok_iff.2 ⟨access, haccessAt.u16At, rfl⟩⟩
  have hclass : c.someClassAt o = .ok name :=
    bind_eq_ok_iff.2 ⟨some name, h.classAt hp (i := some inner) (.some hname) hat.left, rfl⟩
  refine bind_eq_ok_iff.2 ⟨name, hclass, bind_eq_ok_iff.2 ⟨_, hinnerAt.u16At, ?_⟩⟩
  cases hinner with
  | none => exact hrest none
  | @some text n hn =>
    rw [Option.getD_some]
    dsimp only
    rw [if_neg (hp.ne_zero (text?_eq_some_iff.1 hn)), h.readUtf8 hn]
    exact hrest (some text)

end ClassBytes

end ClassFile
