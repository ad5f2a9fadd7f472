/-
# Outlines of classes, written

An `Outline` is a class as far as declarations go: its header, its inner classes, and its fields and
methods in the order in which they come, without code and annotations.  `w.Tells q d` says that a writer
has taken what the outline says, with constants that the pool `q` has.

Each event adds one declaration (`lasts_field`, `lasts_method`, `lasts_innerClass`), so that all events
of an outline leave a writer that tells it, from then on (`lasts_outline`).  What is put together from
there is in `returns_bytes_outline`.
-/
import ClassFile.Proofs.ClassWriter
import ClassFile.Proofs.Outline.Remark

namespace ClassFile

open ConstantPool

/-! ## 1. Outlines -/

/-- What is said about a field. -/
def FieldInfo.remarks (info : FieldInfo) : List Remark :=
  info.value.toList.map .value ++ info.signature.toList.map .signature ++
    Remark.ifDeprecated info.deprecated

/-- What is said about a method. -/
def MethodInfo.remarks (info : MethodInfo) : List Remark :=
  Remark.classes .exceptions info.exceptions ++ info.signature.toList.map .signature ++
    Remark.ifDeprecated info.deprecated

/-- What is said about a class in its header. -/
def ClassInfo.remarks (info : ClassInfo) : List Remark :=
  info.sourceFile.toList.map .sourceFile ++ info.signature.toList.map .signature ++
    info.nestHost.toList.map .nestHost ++ Remark.classes .nestMembers info.nestMembers ++
    Remark.ifDeprecated info.deprecated

/-- The declaration of a field or of a method. -/
structure Declaration where
  access : UInt16
  name : String
  descriptor : String
  remarks : List Remark

/-- The strings and tables of a declaration fit. -/
structure Declaration.Fits (d : Declaration) : Prop where
  name : ModifiedUtf8.Fits d.name
  descriptor : ModifiedUtf8.Fits d.descriptor
  remarks : ∀ r ∈ d.remarks, r.Fits

/-- A field as it is declared. -/
def FieldInfo.declaration (info : FieldInfo) : Declaration :=
  ⟨info.access, info.name, info.descriptor, info.remarks⟩

/-- A method as it is declared. -/
def MethodInfo.declaration (info : MethodInfo) : Declaration :=
  ⟨info.access, info.name, info.descriptor, info.remarks⟩

/-- A field or a method. -/
inductive OutlineMember where
  | field (info : FieldInfo)
  | method (info : MethodInfo)

/-- The event of a member in which there is nothing. -/
def OutlineMember.event : OutlineMember → ClassEvent
  | field info => .field info [.finish]
  | method info => .method info [.finish]

/-- A member as it is declared. -/
def OutlineMember.declaration : OutlineMember → Declaration
  | field info => info.declaration
  | method info => info.declaration

/-- At most three things are said about a member. -/
theorem OutlineMember.length_remarks (m : OutlineMember) : m.declaration.remarks.length ≤ 65535 := by
  cases m with
  | field info =>
    obtain ⟨access, name, descriptor, signature, value, deprecated⟩ := info
    cases signature <;> cases value <;> cases deprecated <;> exact Nat.le_of_ble_eq_true rfl
  | method info =>
    obtain ⟨access, name, descriptor, signature, exceptions, deprecated⟩ := info
    cases signature <;> cases exceptions <;> cases deprecated <;> exact Nat.le_of_ble_eq_true rfl

/-- A class without code and annotations. -/
structure Outline where
  version : Version
  access : UInt16
  name : String
  info : ClassInfo
  innerClasses : List InnerClass
  members : List OutlineMember

/-- Inner classes of different names, each as it came first. -/
def InnerClass.firsts : List InnerClass → List InnerClass
  | [] => []
  | c :: cs => c :: (firsts cs).filter fun x => x.name ≠ c.name

namespace InnerClass

theorem mem_of_mem_firsts {c : InnerClass} : ∀ {cs : List InnerClass}, c ∈ firsts cs → c ∈ cs
  | [], h => h
  | _ :: _, h => (List.mem_cons.1 h).elim (fun h => h ▸ List.mem_cons_self)
      fun h => List.mem_cons_of_mem _ (mem_of_mem_firsts (List.mem_filter.1 h).1)

/-- One more inner class counts unless its name has been there. -/
theorem firsts_append_singleton (c : InnerClass) (cs : List InnerClass) : firsts (cs ++ [c]) =
    if c.name ∈ cs.map (·.name) then firsts cs else firsts cs ++ [c] := by
  induction cs with
  | nil => rfl
  | cons a cs ih =>
    rw [List.cons_append, firsts, ih, firsts, List.map_cons]
    by_cases hmem : c.name ∈ cs.map (·.name)
    · rw [if_pos hmem, if_pos (List.mem_cons_of_mem _ hmem)]
    · rw [if_neg hmem, List.filter_append]
      by_cases hsame : c.name = a.name
      · rw [if_pos (hsame ▸ List.mem_cons_self)]
        simp [hsame]
      · rw [if_neg fun h => (List.mem_cons.1 h).elim hsame hmem]
        simp [hsame]

end InnerClass

namespace Outline

/-- The fields, in order. -/
def fields (d : Outline) : List FieldInfo := d.members.filterMap fun
  | .field info => some info
  | .method _ => none

/-- The methods, in order. -/
def methods (d : Outline) : List MethodInfo := d.members.filterMap fun
  | .field _ => none
  | .method info => some info

/-- The events of an outline. -/
def events (d : Outline) : List ClassEvent :=
  .header d.version d.access d.name d.info ::
    (d.innerClasses.map .innerClass ++ d.members.map OutlineMember.event)

/-- What is said about the class. -/
def remarks (d : Outline) : List Remark :=
  d.info.remarks ++ if InnerClass.firsts d.innerClasses = [] then [] else
    [.innerClasses (InnerClass.firsts d.innerClasses)]

/-- The strings and tables of an outline fit. -/
structure Fits (d : Outline) : Prop where
  name : ModifiedUtf8.Fits d.name
  superclass : ∀ n ∈ d.info.superclass, ModifiedUtf8.Fits n
  interfaces : d.info.interfaces.length ≤ 65535 ∧ ∀ n ∈ d.info.interfaces, ModifiedUtf8.Fits n
  info : ∀ r ∈ d.info.remarks, r.Fits
  innerClasses : (InnerClass.firsts d.innerClasses).length ≤ 65535 ∧ ∀ c ∈ d.innerClasses, c.Short
  fields : d.fields.length ≤ 65535 ∧ ∀ info ∈ d.fields, info.declaration.Fits
  methods : d.methods.length ≤ 65535 ∧ ∀ info ∈ d.methods, info.declaration.Fits

end Outline

/-! ## 2. What a writer tells -/

/-- The member is this declaration, with the constants of a pool. -/
structure ConstantPool.Declares (q : ConstantPool) (d : Declaration) (m : WrittenMember) : Prop where
  access : m.access = d.access
  name : q.text? m.name = some d.name
  descriptor : q.text? m.descriptor = some d.descriptor
  attributes : List.Forall₂ q.Says d.remarks m.attributes

/-- The table is the one of these declarations, as far as they can be counted. -/
def MemberTable.Tells (t : MemberTable) (q : ConstantPool) (ds : List Declaration) : Prop :=
  ∃ ms, List.Forall₂ q.Declares ds ms ∧ (ms.length ≤ 65535 → t.Lists ms)

/-- The table is the one of these inner classes. -/
structure InnerClassTable.Tells (t : InnerClassTable) (q : ConstantPool) (cs : List InnerClass) :
    Prop where
  names : ∀ n, t.names.contains n = true ↔ n ∈ cs.map (·.name)
  entries : List.Forall₂ q.IsInnerClass (InnerClass.firsts cs) t.entries.toList

/-- The header says this. -/
structure ClassHeader.Tells (h : ClassHeader) (q : ConstantPool) (version : Version) (access : UInt16)
    (name : String) (info : ClassInfo) : Prop where
  version : h.version = version
  access : h.access = access
  name : ∃ i, h.classRef = some i ∧ q.Names .classRef i name
  superclass : Option.Rel (fun n i => q.Names .classRef i n) info.superclass h.superclass
  interfaces : List.Forall₂ (fun n i => q.Names .classRef i n) info.interfaces h.interfaces
  attributes : List.Forall₂ q.Says info.remarks h.attributes

/-- The writer has taken what this outline says. -/
structure ClassWriter.Tells (w : ClassWriter) (q : ConstantPool) (d : Outline) : Prop where
  header : w.header.Tells q d.version d.access d.name d.info
  innerClasses : w.innerClasses.Tells q d.innerClasses
  fields : w.fields.Tells q (d.fields.map FieldInfo.declaration)
  methods : w.methods.Tells q (d.methods.map MethodInfo.declaration)
  annotations : w.annotations = .empty

/-- The attributes of a declaration that fits can be found behind each other. -/
theorem RawAttribute.fit_of_says {q : ConstantPool} {rs : List Remark} {as : List RawAttribute}
    (has : List.Forall₂ q.Says rs as) (hrs : ∀ r ∈ rs, r.Fits) :
    ∀ a ∈ as, a.payload.size < 4294967296 := by
  intro a hmem
  obtain ⟨r, hr, ha⟩ := exists_of_forall₂ has hmem
  rw [← Array.length_toList]
  exact ha.2.length_lt (hrs r hr)

theorem MemberTable.Tells.add {t : MemberTable} {q : ConstantPool} {ds : List Declaration}
    (ht : t.Tells q ds) {d : Declaration} {m : WrittenMember} (hm : q.Declares d m) (hd : d.Fits)
    (hcount : d.remarks.length ≤ 65535) :
    (t.add m.access m.name m.descriptor m.attributes).Tells q (ds ++ [d]) := by
  obtain ⟨ms, hms, hlists⟩ := ht
  refine ⟨ms ++ [m], List.rel_append hms (.cons hm .nil), fun hlength => ?_⟩
  rw [List.length_append, List.length_singleton] at hlength
  exact (hlists (by omega)).add m (by omega)
    ⟨hm.attributes.length_eq ▸ hcount, RawAttribute.fit_of_says hm.attributes hd.remarks⟩

/-- Members that can be counted are listed in the table. -/
theorem MemberTable.Tells.lists {α : Type} {t : MemberTable} {q : ConstantPool} {infos : List α}
    {declaration : α → Declaration} (ht : t.Tells q (infos.map declaration))
    (hcount : infos.length ≤ 65535) :
    ∃ ms, List.Forall₂ (fun info m => q.Declares (declaration info) m) infos ms ∧ t.Lists ms := by
  obtain ⟨ms, hms, hlists⟩ := ht
  rw [List.forall₂_map_left_iff] at hms
  exact ⟨ms, hms, hlists (hms.length_eq ▸ hcount)⟩

/-! ## 3. Events -/

namespace InnerClassTable

theorem entry_eq (c : InnerClass) : entry c = do
    let outer ← optional classRef c.outer
    let name ← optional utf8 c.innerName
    return ⟨← classRef c.name, outer, name, c.access⟩ := by
  obtain ⟨name, outer, innerName, access⟩ := c
  cases outer <;> cases innerName <;> rfl

theorem lasts_entry {c : InnerClass} (hc : c.Short) :
    Lasts (entry c) fun e q => q.IsInnerClass c e := by
  rw [entry_eq]
  refine ((lasts_optional fun n hn => lasts_classRef (hc.outer n hn)).bind fun outer =>
    (lasts_optional fun n hn => lasts_utf8 (hc.innerName n hn)).bind fun name =>
    (lasts_classRef hc.name).bind fun i =>
      .pure (D := fun e _ => e = InnerClassEntry.mk i outer name c.access) fun _ => rfl).imp ?_
  rintro _ q ⟨outer, houter, name, hname, i, hi, rfl⟩
  exact ⟨hi, houter, hname, rfl⟩

/-- One more inner class. -/
theorem lasts_add {c : InnerClass} (hc : c.Short) (t : InnerClassTable) (cs : List InnerClass) :
    Lasts (t.add c) fun t' q => t.Tells q cs → t'.Tells q (cs ++ [c]) := by
  obtain ⟨names, entries⟩ := t
  unfold add
  dsimp only
  split
  · rename_i hmem
    refine .pure fun q ht => ?_
    have hold := (ht.names c.name).1 hmem
    refine ⟨fun n => ?_, ?_⟩
    · rw [ht.names n, List.map_append, List.mem_append]
      exact ⟨.inl, fun h => h.elim id fun h => List.mem_singleton.1 h ▸ hold⟩
    · rw [InnerClass.firsts_append_singleton, if_pos hold]
      exact ht.entries
  · rename_i hmem
    refine ((lasts_entry hc).bind fun e => .pure
      (D := fun t' _ => t' = InnerClassTable.mk (names.insert c.name) (entries.push e))
      fun _ => rfl).imp ?_
    rintro _ q ⟨e, he, rfl⟩ ht
    have hnew := fun h => hmem ((ht.names c.name).2 h)
    refine ⟨fun n => ?_, ?_⟩
    · have := ht.names n
      simp only [Std.HashSet.contains_insert, Bool.or_eq_true, beq_iff_eq, List.map_append,
        List.mem_append, List.map_cons, List.map_nil, List.mem_singleton]
      rw [this]
      exact ⟨fun h => h.elim (fun h => .inr h.symm) .inl, fun h => h.elim .inr fun h => .inl h.symm⟩
    · rw [InnerClass.firsts_append_singleton, if_neg hnew, Array.toList_push]
      exact List.rel_append ht.entries (.cons he .nil)

theorem toList_payload (entries : List InnerClassEntry) :
    (Attribute.innerClasses entries).payload.toList =
      wordBytes 2 (UInt16.ofNat entries.length).toNat ++
        entries.flatMap InnerClassEntry.encoded := by
  refine (Attribute.toList_putTable (fun b e => ?_) .empty entries).trans (List.nil_append _)
  simp only [Attribute.putInnerClass, Bytes.toList_putU16, InnerClassEntry.encoded,
    List.append_assoc]

/-- The table is written if there is an inner class. -/
theorem lasts_attributes (t : InnerClassTable) (cs : List InnerClass) :
    Lasts t.attributes fun as q => t.Tells q cs → List.Forall₂ q.Says
      (if InnerClass.firsts cs = [] then [] else [.innerClasses (InnerClass.firsts cs)]) as := by
  unfold attributes
  split
  · rename_i hempty
    refine .pure fun q ht => ?_
    have hentries := ht.entries
    rw [Array.isEmpty_iff.1 hempty] at hentries
    rw [if_pos (List.forall₂_nil_right_iff.1 hentries)]
    exact .nil
  · rename_i hentries
    refine ((lasts_named_remark (r := .innerClasses (InnerClass.firsts cs)) rfl).bind fun a =>
      .pure (D := fun as _ => as = [a]) fun _ => rfl).imp ?_
    rintro _ q ⟨a, ha, rfl⟩ ht
    have hne : InnerClass.firsts cs ≠ [] := fun hnil => hentries (by
      have hempty := ht.entries
      rw [hnil, List.forall₂_nil_left_iff, Array.toList_eq_nil_iff] at hempty
      rw [hempty]
      rfl)
    rw [if_neg hne]
    exact .cons (ha ⟨_, ht.entries, toList_payload _⟩) .nil

end InnerClassTable

namespace ClassHeader

theorem of_eq (version : Version) (access : UInt16) (name : String) (info : ClassInfo) :
    ClassHeader.of version access name info = do
      let classRef ← ConstantPool.classRef name
      let superclass ← optional ConstantPool.classRef info.superclass
      let interfaces ← info.interfaces.mapM ConstantPool.classRef
      let source ← constantAttribute utf8 .sourceFile info.sourceFile
      let signature ← constantAttribute utf8 .signature info.signature
      let host ← constantAttribute ConstantPool.classRef .nestHost info.nestHost
      let members ← nestMembersAttribute info.nestMembers
      let deprecated ← deprecatedAttribute info.deprecated
      return ⟨version, access, name, classRef, superclass, interfaces,
        source ++ signature ++ host ++ members ++ deprecated⟩ := by
  obtain ⟨superclass, interfaces, signature, source, host, members, deprecated⟩ := info
  cases superclass <;> rfl

/-- **The header of an outline.** -/
theorem lasts_of {d : Outline} (hd : d.Fits) :
    Lasts (ClassHeader.of d.version d.access d.name d.info)
      fun h q => h.Tells q d.version d.access d.name d.info := by
  have hinfo := hd.info
  simp only [ClassInfo.remarks, List.forall_mem_append] at hinfo
  obtain ⟨⟨⟨⟨hsource, hsignature⟩, hhost⟩, hmembers⟩, -⟩ := hinfo
  rw [of_eq]
  refine ((lasts_classRef hd.name).bind fun classRef =>
    (lasts_optional fun n hn => lasts_classRef (hd.superclass n hn)).bind fun superclass =>
    (Lasts.mapM fun n hn => lasts_classRef (hd.interfaces.2 n hn)).bind fun interfaces =>
    (lasts_sourceFileAttribute hsource).bind fun source =>
    (lasts_signatureAttribute hsignature).bind fun signature =>
    (lasts_nestHostAttribute hhost).bind fun host =>
    (lasts_nestMembersAttribute hmembers).bind fun members =>
    (lasts_deprecatedAttribute _).bind fun deprecated =>
    .pure (D := fun h _ => h = ClassHeader.mk d.version d.access d.name classRef superclass interfaces
      (source ++ signature ++ host ++ members ++ deprecated)) fun _ => rfl).imp ?_
  rintro _ q ⟨classRef, hclass, superclass, hsuper, interfaces, hinterfaces, source, hsource,
    signature, hsignature, host, hhost, members, hmembers, deprecated, hdeprecated, rfl⟩
  exact ⟨rfl, rfl, ⟨classRef, rfl, hclass⟩, hsuper, hinterfaces, List.rel_append (List.rel_append
    (List.rel_append (List.rel_append hsource hsignature) hhost) hmembers) hdeprecated⟩

end ClassHeader

theorem FieldWriter.lasts_start {info : FieldInfo} (hinfo : info.declaration.Fits)
    (t : MemberTable) : Lasts (start info t) fun w q => ∃ m, q.Declares info.declaration m ∧
      w = ⟨m.access, m.name, m.descriptor, m.attributes, .empty, t⟩ := by
  have hremarks := hinfo.remarks
  simp only [FieldInfo.declaration, FieldInfo.remarks, List.forall_mem_append] at hremarks
  obtain ⟨⟨hvalue, hsignature⟩, -⟩ := hremarks
  refine ((lasts_utf8 hinfo.name).bind fun name => (lasts_utf8 hinfo.descriptor).bind fun descriptor =>
    (lasts_valueAttribute hvalue).bind fun value =>
    (lasts_signatureAttribute hsignature).bind fun signature =>
    (lasts_deprecatedAttribute _).bind fun deprecated =>
    .pure (D := fun w _ => w = FieldWriter.mk info.access name descriptor
      (value ++ signature ++ deprecated) .empty t) fun _ => rfl).imp ?_
  rintro _ q ⟨name, hname, descriptor, hdescriptor, value, hvalue, signature, hsignature,
    deprecated, hdeprecated, rfl⟩
  exact ⟨⟨info.access, name, descriptor, value ++ signature ++ deprecated⟩, ⟨rfl, hname, hdescriptor,
    List.rel_append (List.rel_append hvalue hsignature) hdeprecated⟩, rfl⟩

/-- The end of a field without annotations. -/
theorem FieldWriter.finish_bare (access : UInt16) (name descriptor : ConstantIndex)
    (attributes : List RawAttribute) (t : MemberTable) :
    (FieldWriter.mk access name descriptor attributes .empty t).event .finish =
      pure ⟨access, name, descriptor, [], .empty, t.add access name descriptor attributes⟩ := by
  simp [event, DeclaredAnnotations.attributes_empty]

theorem MethodWriter.lasts_start (mode : ComputeMode) {info : MethodInfo}
    (hinfo : info.declaration.Fits) (t : MemberTable) :
    Lasts (start mode info t) fun w q => ∃ m parameters slots, q.Declares info.declaration m ∧
      w = ⟨⟨info, m.name, m.descriptor, parameters⟩, m.attributes, none, .empty, .empty, false,
        .start mode slots, t⟩ := by
  have hremarks := hinfo.remarks
  simp only [MethodInfo.declaration, MethodInfo.remarks, List.forall_mem_append] at hremarks
  obtain ⟨⟨hexceptions, hsignature⟩, -⟩ := hremarks
  refine ((Lasts.lift (D := fun _ _ => True) fun _ _ _ => trivial).bind fun type =>
    (lasts_utf8 hinfo.name).bind fun name => (lasts_utf8 hinfo.descriptor).bind fun descriptor =>
    (lasts_exceptionsAttribute hexceptions).bind fun exceptions =>
    (lasts_signatureAttribute hsignature).bind fun signature =>
    (lasts_deprecatedAttribute _).bind fun deprecated =>
    .pure (D := fun w _ => ∃ parameters slots, w = MethodWriter.mk ⟨info, name, descriptor, parameters⟩
      (exceptions ++ signature ++ deprecated) none .empty .empty false (.start mode slots) t)
      fun _ => ⟨_, _, rfl⟩).imp ?_
  rintro _ q ⟨type, -, name, hname, descriptor, hdescriptor, exceptions, hexceptions, signature,
    hsignature, deprecated, hdeprecated, parameters, slots, rfl⟩
  exact ⟨⟨info.access, name, descriptor, exceptions ++ signature ++ deprecated⟩, parameters, slots,
    ⟨rfl, hname, hdescriptor,
      List.rel_append (List.rel_append hexceptions hsignature) hdeprecated⟩, rfl⟩

/-- The end of a method without code and annotations. -/
theorem MethodWriter.finish_bare (c : ClassContext) (header : MethodHeader)
    (attributes : List RawAttribute) (code : CodeWriter) (t : MemberTable) :
    (MethodWriter.mk header attributes none .empty .empty false code t).finish c =
      pure ⟨header, [], none, .empty, .empty, false, code,
        t.add header.info.access header.name header.descriptor attributes⟩ := by
  simp [finish, codeAttribute, defaultAttribute, DeclaredAnnotations.attributes_empty,
    ParameterAnnotations.attributes_empty]

namespace ClassWriter

/-- A field in which there is nothing is added to the table of fields. -/
theorem lasts_field {info : FieldInfo} (hinfo : info.declaration.Fits) (w : ClassWriter) :
    Lasts (w.field info [.finish]) fun w' q => ∃ m, q.Declares info.declaration m ∧
      w' = { w with fields := w.fields.add m.access m.name m.descriptor m.attributes } := by
  obtain ⟨options, header, annotations, innerClasses, fields, methods⟩ := w
  refine ((FieldWriter.lasts_start hinfo fields).bind_of (E := fun member w' _ =>
    w' = ⟨options, header, annotations, innerClasses, member.table.add member.access member.name
      member.descriptor member.attributes, methods⟩) fun member q hmember => ?_).imp ?_
  · obtain ⟨m, -, rfl⟩ := hmember
    rw [List.foldlM_cons, FieldWriter.finish_bare]
    exact .pure fun _ => rfl
  · rintro _ q ⟨_, ⟨m, hm, rfl⟩, rfl⟩
    exact ⟨m, hm, rfl⟩

/-- A method in which there is nothing is added to the table of methods. -/
theorem lasts_method {info : MethodInfo} (hinfo : info.declaration.Fits) (w : ClassWriter) :
    Lasts (w.method info [.finish]) fun w' q => ∃ m, q.Declares info.declaration m ∧
      w' = { w with methods := w.methods.add m.access m.name m.descriptor m.attributes } := by
  have hstart : Lasts (w.startMethod info) fun r q => ∃ m parameters slots,
      q.Declares info.declaration m ∧ r = (MethodWriter.mk ⟨info, m.name, m.descriptor, parameters⟩
        m.attributes none .empty .empty false (.start (w.header.mode w.options) slots) w.methods,
        { w with methods := .empty }) := by
    refine ((MethodWriter.lasts_start (w.header.mode w.options) hinfo w.methods).bind fun member =>
      .pure (D := fun r _ => r = (member, { w with methods := .empty })) fun _ => rfl).imp ?_
    rintro _ q ⟨_, ⟨m, parameters, slots, hm, rfl⟩, rfl⟩
    exact ⟨m, parameters, slots, hm, rfl⟩
  refine (hstart.bind_of (E := fun r w' _ => w' = { r.2 with
    methods := r.1.table.add r.1.header.info.access r.1.header.name r.1.header.descriptor
      r.1.attributes }) fun r q hr => ?_).imp ?_
  · obtain ⟨m, parameters, slots, -, rfl⟩ := hr
    dsimp only
    rw [MethodWriter.events, List.foldlM_cons, MethodWriter.event_finish, MethodWriter.finish_bare]
    exact .pure fun _ => rfl
  · rintro _ q ⟨_, ⟨m, parameters, slots, hm, rfl⟩, rfl⟩
    exact ⟨m, hm, by rw [hm.access]; rfl⟩

/-- The writer has taken the header. -/
theorem lasts_header {d : Outline} (hd : d.Fits) (options : WriterOptions) :
    Lasts ((start options).event (.header d.version d.access d.name d.info))
      fun w q => w.Tells q { d with innerClasses := [], members := [] } := by
  refine ((ClassHeader.lasts_of hd).bind fun header =>
    .pure (D := fun w _ => w = { start options with header }) fun _ => rfl).imp ?_
  rintro _ q ⟨header, hheader, rfl⟩
  exact ⟨hheader, ⟨by simp [start, InnerClassTable.empty], .nil⟩,
    ⟨[], .nil, fun _ => MemberTable.lists_empty⟩, ⟨[], .nil, fun _ => MemberTable.lists_empty⟩, rfl⟩

/-- **One more inner class.** -/
theorem lasts_innerClass {c : InnerClass} (hc : c.Short) (d : Outline) (w : ClassWriter) :
    Lasts (w.event (.innerClass c)) fun w' q => w.Tells q d →
      w'.Tells q { d with innerClasses := d.innerClasses ++ [c] } := by
  refine ((InnerClassTable.lasts_add hc w.innerClasses d.innerClasses).bind fun t =>
    .pure (D := fun w' _ => w' = { w with innerClasses := t }) fun _ => rfl).imp ?_
  rintro _ q ⟨t, ht, rfl⟩ hw
  exact ⟨hw.header, ht hw.innerClasses, hw.fields, hw.methods, hw.annotations⟩

/-- **One more member.** -/
theorem lasts_member {m : OutlineMember} (hm : m.declaration.Fits) (d : Outline) (w : ClassWriter) :
    Lasts (w.event m.event) fun w' q => w.Tells q d →
      w'.Tells q { d with members := d.members ++ [m] } := by
  have hcount := m.length_remarks
  cases m with
  | field info =>
    refine (lasts_field hm w).imp ?_
    rintro _ q ⟨x, hx, rfl⟩ hw
    refine ⟨hw.header, hw.innerClasses, ?_, ?_, hw.annotations⟩
    · simpa [Outline.fields] using hw.fields.add hx hm hcount
    · simpa [Outline.methods] using hw.methods
  | method info =>
    refine (lasts_method hm w).imp ?_
    rintro _ q ⟨x, hx, rfl⟩ hw
    refine ⟨hw.header, hw.innerClasses, ?_, ?_, hw.annotations⟩
    · simpa [Outline.fields] using hw.fields
    · simpa [Outline.methods] using hw.methods.add hx hm hcount

/-- **All events of an outline** leave a writer that tells it, from then on. -/
theorem lasts_outline {d : Outline} (hd : d.Fits) (options : WriterOptions) (ends : Nat) :
    Lasts ((start options).events (d.events ++ List.replicate ends ClassEvent.finish).toArray)
      fun w q => w.Tells q d := by
  have hmembers : ∀ m ∈ d.members, m.declaration.Fits := by
    intro m hm
    cases m with
    | field info => exact hd.fields.2 info (List.mem_filterMap.2 ⟨_, hm, rfl⟩)
    | method info => exact hd.methods.2 info (List.mem_filterMap.2 ⟨_, hm, rfl⟩)
  have hsplit : (start options).events
      (d.events ++ List.replicate ends ClassEvent.finish).toArray = (do
        let w ← (start options).event (.header d.version d.access d.name d.info)
        let w ← d.innerClasses.foldlM (fun w c => w.event (.innerClass c)) w
        let w ← d.members.foldlM (fun w m => w.event m.event) w
        List.foldlM event w (List.replicate ends ClassEvent.finish)) := by
    rw [events, List.foldlM_toArray, Outline.events, List.cons_append, List.foldlM_cons]
    simp only [List.foldlM_append, List.foldlM_map, bind_assoc]
  rw [hsplit]
  refine ((lasts_header hd options).bind fun w₁ =>
    (Lasts.foldlM (I := fun done w q => w.Tells q { d with innerClasses := done, members := [] })
      (fun c hc done w => lasts_innerClass (hd.innerClasses.2 c hc)
        { d with innerClasses := done, members := [] } w) [] w₁).bind fun w₂ =>
    (Lasts.foldlM (I := fun done w q => w.Tells q { d with members := done })
      (fun m hm done w => lasts_member (hmembers m hm) { d with members := done } w) [] w₂).bind
        fun w₃ =>
    Lasts.foldlM (I := fun _ w q => w.Tells q d)
      (fun e he _ w => List.eq_of_mem_replicate he ▸ .pure fun _ => id) [] w₃).imp ?_
  rintro w q ⟨w₁, h₁, w₂, h₂, w₃, h₃, h⟩
  exact h (h₃ (h₂ h₁))

/-! ## 4. Classes -/

/-- **What is put together** from what the writer has taken: the bootstrap table comes last. -/
theorem returns_bytes_outline {d : Outline} {w : ClassWriter} {p p' : ConstantPool} {b : Bytes}
    (hp : p.Coherent) (hm : p.Modest) (hw : ∀ q, p.Kept q → w.Tells q d)
    (hret : Returns w.bytes p b p') : p'.Coherent ∧ p'.Modest ∧ w.Tells p' d ∧
      ∃ classRef as table, b = w.assemble p' classRef (as ++ table.toList) ∧
        p'.Names .classRef classRef d.name ∧ List.Forall₂ p'.Says d.remarks as ∧ p'.IsTable table := by
  obtain ⟨classRef, attributes, p₁, hclass, hattributes, rfl⟩ := returns_bytes hret
  obtain ⟨i, hi, -⟩ := (hw p (.refl p)).header.name
  obtain ⟨hsome, rfl⟩ | ⟨hnone, -⟩ := hclass
  · obtain ⟨inner, annotations, table, p₁, p₂, hinner, hannotations, htable, rfl⟩ :=
      returns_attributes hattributes
    obtain ⟨hp₁, hm₁, hk₁, hlasts⟩ := InnerClassTable.lasts_attributes w.innerClasses d.innerClasses
      _ _ _ hinner hp hm
    rw [(hw _ (.refl _)).annotations, DeclaredAnnotations.attributes_empty] at hannotations
    obtain ⟨rfl, rfl⟩ := returns_pure.1 hannotations
    obtain ⟨hp', hk, htable'⟩ := hp₁.bootstrapAttribute? htable
    have hm' := modestly_bootstrapAttribute? _ _ _ htable hm₁
    have hw' := hw p' (hk₁.trans hk)
    obtain ⟨i, hi, hname⟩ := hw'.header.name
    obtain rfl := Option.some.inj (hsome.symm.trans hi)
    refine ⟨hp', hm', hw', classRef, w.header.attributes ++ inner, table, ?_, hname,
      List.rel_append hw'.header.attributes (hlasts p' hk hw'.innerClasses), htable'⟩
    rw [List.append_nil]
  · exact nomatch hnone.symm.trans hi

end ClassWriter

end ClassFile
