/-
# Outlines survive the class file

What an outline declares is read back from the class file that it was written into: the header with all
that is said about the class, one inner class for each name, the fields and the methods, and nothing else
(`outline_survives`).  The writer and the reader meet at `Tells` and `Finds`: what the writer tells is
found, remark by remark, and the remarks of a declaration, put together again, are the declaration.

Fields and methods may be declared in any order; they are read back in the order of the fields, and then
of the methods.  An inner class that is declared again under its name changes nothing.
-/
import ClassFile.Proofs.Outline.Written

namespace ClassFile

open ConstantPool

/-! ## 1. Remarks put together -/

theorem FieldInfo.foldl_remarks (info : FieldInfo) : info.remarks.foldl Remark.onField
    ⟨info.access, info.name, info.descriptor, none, none, false⟩ = info := by
  obtain ⟨access, name, descriptor, signature, value, deprecated⟩ := info
  cases signature <;> cases value <;> cases deprecated <;> rfl

theorem MethodInfo.foldl_remarks (info : MethodInfo) : info.remarks.foldl Remark.onMethod
    ⟨info.access, info.name, info.descriptor, none, [], false⟩ = info := by
  obtain ⟨access, name, descriptor, signature, exceptions, deprecated⟩ := info
  cases signature <;> cases exceptions <;> cases deprecated <;> rfl

theorem ClassInfo.foldl_remarks (info : ClassInfo) : info.remarks.foldl Remark.onClass
    ⟨info.superclass, info.interfaces, none, none, none, [], false⟩ = info := by
  obtain ⟨superclass, interfaces, signature, source, host, members, deprecated⟩ := info
  cases signature <;> cases source <;> cases host <;> cases members <;> cases deprecated <;> rfl

/-- Remarks that say nothing about a header. -/
theorem Remark.foldl_onClass {info : ClassInfo} {rs : List Remark}
    (hrs : ∀ r ∈ rs, r.onClass info = info) : rs.foldl Remark.onClass info = info := by
  induction rs with
  | nil => rfl
  | cons r rs ih =>
    rw [List.foldl_cons, show Remark.onClass info r = info from hrs r (by simp)]
    exact ih fun x hx => hrs x (by simp [hx])

/-- What is said in a header is not said about inner classes or bootstrap methods. -/
theorem ClassInfo.name_ne (info : ClassInfo) {r : Remark} (hr : r ∈ info.remarks) :
    r.name ≠ "InnerClasses" ∧ r.name ≠ "BootstrapMethods" := by
  simp only [remarks, List.mem_append, List.mem_map] at hr
  rcases hr with (((⟨_, -, rfl⟩ | ⟨_, -, rfl⟩) | ⟨_, -, rfl⟩) | hr) | hr
  on_goal 4 => obtain rfl := Remark.mem_classes hr
  on_goal 5 => obtain rfl := Remark.mem_ifDeprecated hr
  all_goals simp [Remark.name]

namespace Outline

theorem length_remarks (d : Outline) : d.remarks.length ≤ 6 := by
  have hclasses : (Remark.classes .nestMembers d.info.nestMembers).length ≤ 1 := by
    unfold Remark.classes
    split <;> simp
  have hdeprecated : (Remark.ifDeprecated d.info.deprecated).length ≤ 1 := by
    unfold Remark.ifDeprecated
    split <;> simp
  have hinner : (if InnerClass.firsts d.innerClasses = [] then [] else
      [Remark.innerClasses (InnerClass.firsts d.innerClasses)]).length ≤ 1 := by
    split <;> simp
  have hsource := Option.length_toList_le (o := d.info.sourceFile)
  have hsignature := Option.length_toList_le (o := d.info.signature)
  have hhost := Option.length_toList_le (o := d.info.nestHost)
  simp only [remarks, ClassInfo.remarks, List.length_append, List.length_map]
  omega

/-- The attributes of a class can be counted. -/
theorem length_attributes (d : Outline) {p : ConstantPool} {as : List RawAttribute}
    (has : List.Forall₂ p.Says d.remarks as) (table : Option RawAttribute) :
    (as ++ table.toList).length ≤ 65535 := by
  have := Option.length_toList_le (o := table)
  have := d.length_remarks
  rw [List.length_append, ← has.length_eq]
  omega

/-- No remark is called as the bootstrap table is. -/
theorem name_ne (d : Outline) {r : Remark} (hr : r ∈ d.remarks) : r.name ≠ "BootstrapMethods" := by
  rcases List.mem_append.1 hr with hr | hr
  · exact (d.info.name_ne hr).2
  · split at hr
    · exact nomatch hr
    · obtain rfl := List.mem_singleton.1 hr
      simp [Remark.name]

theorem Fits.remarks {d : Outline} (hd : d.Fits) : ∀ r ∈ d.remarks, r.Fits := by
  intro r hr
  rcases List.mem_append.1 hr with hr | hr
  · exact hd.info r hr
  · split at hr
    · exact nomatch hr
    · obtain rfl := List.mem_singleton.1 hr
      exact ⟨hd.innerClasses.1, fun c hc => hd.innerClasses.2 c (InnerClass.mem_of_mem_firsts hc)⟩

end Outline

/-- The bootstrap table is a remark of its own. -/
theorem ConstantPool.IsTable.says {p : ConstantPool} {table : Option RawAttribute}
    (h : p.IsTable table) : ∃ last, (∀ r ∈ last, r = .bootstrapMethods) ∧
      List.Forall₂ p.Says last table.toList := by
  cases table with
  | none => exact ⟨[], by simp, .nil⟩
  | some a => exact ⟨[.bootstrapMethods], by simp, .cons ⟨h.1, trivial⟩ .nil⟩

/-! ## 2. Members -/

theorem Replay.returns_nest {δ ε α : Type} {r : Replay δ α} {wrap : List δ → ε} {a : α}
    {inside : Array δ} (h : r.all = (.ok a, inside)) (es : Array ε) :
    Returns (Replay.nest r wrap) es a (es.push (wrap inside.toList)) := by
  unfold Replay.nest
  rw [h]
  exact returns_bind.2 ⟨(), _, returns_modify.2 rfl, rfl⟩

namespace ClassBytes

variable {c : ClassBytes} {p : ConstantPool}

theorem accessWith_finds {rs : List Remark} {fs : List AttributeAt}
    (hfs : List.Forall₂ (c.Finds p) rs fs) (access : UInt16) : accessWith access fs = access := by
  rw [accessWith, hasNamed_eq_false (names_ne_of_not_mem hfs _ (by decide))]
  rfl

theorem declarationTables_finds {rs : List Remark} {fs : List AttributeAt}
    (hfs : List.Forall₂ (c.Finds p) rs fs) : declarationTables fs = [] :=
  annotationTables_eq_nil fun f hf => ⟨names_ne_of_not_mem hfs _ (by decide) f hf,
    names_ne_of_not_mem hfs _ (by decide) f hf⟩

theorem parameterTables_finds {rs : List Remark} {fs : List AttributeAt}
    (hfs : List.Forall₂ (c.Finds p) rs fs) : parameterTables fs = [] :=
  annotationTables_eq_nil fun f hf => ⟨names_ne_of_not_mem hfs _ (by decide) f hf,
    names_ne_of_not_mem hfs _ (by decide) f hf⟩

/-- The attributes of a member are found. -/
theorem HoldsRecords.memberAttributes (h : c.HoldsRecords p) {d : Declaration} (hd : d.Fits)
    (hcount : d.remarks.length ≤ 65535) {m : WrittenMember} (hm : p.Declares d m) {o : Nat}
    (hat : c.bytes.Has o m.encoded) : c.bytes.u16At o = .ok d.access ∧
      c.utf8At (o + 2) = .ok d.name ∧ c.utf8At (o + 4) = .ok d.descriptor ∧
      ∃ fs, List.Forall₂ (c.Finds p) d.remarks fs ∧
        c.attributesAt (o + 6) = .ok (fs, o + m.encoded.length) := by
  have hfit := RawAttribute.fit_of_says hm.attributes hd.remarks
  have hname := hat.right.left
  have hdescriptor := hat.right.right.left
  have hattributes := hat.right.right.right
  simp only [length_wordBytes] at hname hdescriptor hattributes
  obtain ⟨fs, stop, hfs, hfound, hstop⟩ := h.attributesAt none hm.attributes .nil hfit
    (by simpa using hm.attributes.length_eq ▸ hcount) (by simpa using hattributes)
  refine ⟨hm.access ▸ hat.left.u16At, h.utf8At hname hm.name, h.utf8At hdescriptor hm.descriptor,
    fs, by simpa using hfs, ?_⟩
  rw [hfound, hstop rfl]
  simp only [WrittenMember.encoded, List.length_append, length_wordBytes, Except.ok.injEq,
    Prod.mk.injEq, true_and]
  omega

/-- A member is read back if what is made of its attributes is, and there is nothing in it. -/
theorem HoldsRecords.readMember (h : c.HoldsRecords p) {ι δ : Type}
    (read : UInt16 → String → String → List AttributeAt → Except Error ι)
    (inside : ι → List AttributeAt → Replay δ Unit) (wrap : ι → List δ → ClassEvent)
    {d : Declaration} (hd : d.Fits) (hcount : d.remarks.length ≤ 65535) {info : ι} {events : Array δ}
    (hinfo : ∀ fs, List.Forall₂ (c.Finds p) d.remarks fs →
      read d.access d.name d.descriptor fs = .ok info ∧ (inside info fs).all = (.ok (), events))
    {m : WrittenMember} (hm : p.Declares d m) {o : Nat} (hat : c.bytes.Has o m.encoded)
    (es : Array ClassEvent) : Returns (do
        let access ← c.bytes.u16At o
        let name ← c.utf8At (o + 2)
        let descriptor ← c.utf8At (o + 4)
        let (attributes, stop) ← c.attributesAt (o + 6)
        let info ← read access name descriptor attributes
        Replay.nest (inside info attributes) (wrap info)
        return stop : Replay ClassEvent Nat) es (o + m.encoded.length)
      (es.push (wrap info events.toList)) := by
  obtain ⟨haccess, hname, hdescriptor, fs, hfs, hfound⟩ := h.memberAttributes hd hcount hm hat
  obtain ⟨hread, hinside⟩ := hinfo fs hfs
  refine returns_bind.2 ⟨_, es, returns_lift.2 ⟨haccess, rfl⟩, ?_⟩
  refine returns_bind.2 ⟨_, es, returns_lift.2 ⟨hname, rfl⟩, ?_⟩
  refine returns_bind.2 ⟨_, es, returns_lift.2 ⟨hdescriptor, rfl⟩, ?_⟩
  refine returns_bind.2 ⟨_, es, returns_lift.2 ⟨hfound, rfl⟩, ?_⟩
  refine returns_bind.2 ⟨_, es, returns_lift.2 ⟨hread, rfl⟩, ?_⟩
  exact returns_bind.2 ⟨(), _, Replay.returns_nest hinside es, returns_pure.2 ⟨rfl, rfl⟩⟩

/-- **A field is read back.** -/
theorem HoldsPool.readField (h : c.HoldsPool p) (hp : p.Coherent) {info : FieldInfo}
    (hinfo : info.declaration.Fits) {m : WrittenMember} (hm : p.Declares info.declaration m) {o : Nat}
    (hat : c.bytes.Has o m.encoded) (es : Array ClassEvent) :
    Returns (c.readField .all o) es (o + m.encoded.length) (es.push (.field info [.finish])) := by
  refine h.readMember c.fieldInfo (fun _ fs => c.fieldEvents fs) .field hinfo
    (OutlineMember.field info).length_remarks (fun fs hfs => ⟨?_, ?_⟩) hm hat es
  · rw [fieldInfo, accessWith_finds hfs, foldlM_finds hfs fun r hr f hf =>
      h.fieldAttribute hp (hinfo.remarks r hr) hf]
    exact congrArg Except.ok info.foldl_remarks
  · rw [fieldEvents, declarationTables_finds hfs]
    rfl

/-- **A method is read back.** -/
theorem HoldsPool.readMethod (h : c.HoldsPool p) {info : MethodInfo}
    (hinfo : info.declaration.Fits) {m : WrittenMember} (hm : p.Declares info.declaration m) {o : Nat}
    (hat : c.bytes.Has o m.encoded) (es : Array ClassEvent) :
    Returns (c.readMethod .all o) es (o + m.encoded.length) (es.push (.method info [.finish])) := by
  refine h.readMember c.methodInfo (fun _ fs => c.methodEvents fs) .method hinfo
    (OutlineMember.method info).length_remarks (fun fs hfs => ⟨?_, ?_⟩) hm hat es
  · rw [methodInfo, accessWith_finds hfs, foldlM_finds hfs fun r hr f hf =>
      h.methodAttribute (hinfo.remarks r hr) hf]
    exact congrArg Except.ok info.foldl_remarks
  · rw [methodEvents, declarationTables_finds hfs, parameterTables_finds hfs,
      lastNamed_eq_none (names_ne_of_not_mem hfs "AnnotationDefault" (by decide)),
      lastNamed_eq_none (names_ne_of_not_mem hfs "Code" (by decide))]
    rfl

/-! ## 3. Tables -/

section Members

variable {α : Type} {R : α → WrittenMember → Prop} {read : Nat → Replay ClassEvent Nat}
  {infos : List α} {ms : List WrittenMember}

/-- Members that are read one after the other. -/
theorem reads_members (event : α → ClassEvent) (hms : List.Forall₂ R infos ms)
    (hread : ∀ info ∈ infos, ∀ m, R info m →
      ∀ o, c.bytes.Has o m.encoded → ∀ es : Array ClassEvent,
        Returns (read o) es (o + m.encoded.length) (es.push (event info))) :
    ∀ {o : Nat}, c.bytes.Has o (ms.flatMap WrittenMember.encoded) → ∀ es : Array ClassEvent,
      Returns (readMembers read ms.length o) es (o + (ms.flatMap WrittenMember.encoded).length)
        (es ++ infos.map event) := by
  induction hms with
  | nil => exact fun _ _ => returns_pure.2 ⟨rfl, rfl⟩
  | @cons info m infos ms hm _ ih =>
    intro o hat es
    rw [List.flatMap_cons] at hat
    refine returns_bind.2 ⟨_, _, hread info (by simp) m hm o hat.left es, ?_⟩
    rw [List.flatMap_cons, List.length_append, ← Nat.add_assoc]
    exact ih (fun x hx => hread x (by simp [hx])) hat.right _

/-- **A table of members is read back.** -/
theorem reads_memberTable (event : α → ClassEvent) (hms : List.Forall₂ R infos ms)
    (hread : ∀ info ∈ infos, ∀ m, R info m →
      ∀ o, c.bytes.Has o m.encoded → ∀ es : Array ClassEvent,
        Returns (read o) es (o + m.encoded.length) (es.push (event info)))
    {t : MemberTable} (ht : t.Lists ms) {o : Nat}
    (hat : c.bytes.Has o (wordBytes 2 t.count.toNat ++ t.bytes.toList)) (es : Array ClassEvent) :
    Returns (c.readMemberTable read o) es (o + 2 + t.bytes.size) (es ++ infos.map event) := by
  rw [ht.count, ht.bytes] at hat
  obtain ⟨hcount, hnumber⟩ := hat.left.count ht.length
  have hrest := hat.right
  rw [length_wordBytes] at hrest
  have hall := reads_members event hms hread hrest es
  refine returns_bind.2 ⟨_, es, returns_lift.2 ⟨hcount, rfl⟩, ?_⟩
  rw [hnumber, ← Array.length_toList, ht.bytes]
  exact hall

end Members

/-- Rows that are read one after the other. -/
theorem reads_rows {rows : List Nat} {f : Nat → Except Error InnerClass} {cs : List InnerClass}
    (hf : List.Forall₂ (fun row x => f row = .ok x) rows cs) (es : Array ClassEvent) :
    Returns (forIn rows PUnit.unit fun row _ => do
        Replay.emit (.innerClass (← f row))
        return ForInStep.yield PUnit.unit) es PUnit.unit (es ++ cs.map ClassEvent.innerClass) := by
  induction hf generalizing es with
  | nil => exact returns_pure.2 ⟨rfl, rfl⟩
  | @cons row x rows cs hx _ ih =>
    rw [List.forIn_cons]
    refine returns_bind.2 ⟨.yield PUnit.unit, es.push (.innerClass x), ?_, ih _⟩
    exact returns_bind.2 ⟨x, es, returns_lift.2 ⟨hx, rfl⟩,
      returns_bind.2 ⟨(), _, returns_modify.2 rfl, returns_pure.2 ⟨rfl, rfl⟩⟩⟩

theorem HoldsRecords.readInnerClasses (h : c.HoldsRecords p) (hp : p.InOrder) {cs : List InnerClass}
    {entries : List InnerClassEntry} (hentries : List.Forall₂ p.IsInnerClass cs entries)
    (hcount : cs.length ≤ 65535) {o : Nat}
    (hat : c.bytes.Has o (wordBytes 2 (UInt16.ofNat entries.length).toNat ++
      entries.flatMap InnerClassEntry.encoded)) (es : Array ClassEvent) :
    Returns (c.readInnerClasses o) es () (es ++ cs.map ClassEvent.innerClass) := by
  obtain ⟨hread, hnumber⟩ := hat.left.count (hentries.length_eq ▸ hcount)
  refine returns_bind.2 ⟨_, es, returns_lift.2 ⟨hread, rfl⟩, ?_⟩
  have hrows := hat.right
  rw [length_wordBytes] at hrows
  have hall : List.Forall₂ (fun i x => c.innerClassAt (o + 2 + 8 * i) = .ok x)
      (List.range entries.length) cs := by
    refine List.forall₂_iff_get.2 ⟨by rw [List.length_range, hentries.length_eq], fun i hi hi' => ?_⟩
    have hi₂ : i < entries.length := by simpa using hi
    rw [List.get_eq_getElem, List.getElem_range]
    exact h.innerClassAt hp (hentries.get hi' hi₂)
      (hrows.entry (fun e => by simp [InnerClassEntry.encoded]) hi₂)
  rw [hnumber]
  exact returns_bind.2 ⟨_, _, reads_rows hall es, returns_pure.2 ⟨rfl, rfl⟩⟩

/-! ## 4. Classes -/

theorem lastNamed_cons (name : String) (f : AttributeAt) (fs : List AttributeAt) :
    lastNamed name (f :: fs) =
      (lastNamed name fs).or (if f.name = name then some f.payload else none) := by
  rw [lastNamed, lastNamed, List.reverse_cons, List.find?_append, Option.map_or, List.find?_singleton]
  congr 1
  split <;> simp_all

/-- A remark is the last one of its name. -/
theorem lastNamed_finds {rs rs' : List Remark} {r : Remark} (hlast : ∀ x ∈ rs', x.name ≠ r.name) :
    ∀ {fs : List AttributeAt}, List.Forall₂ (c.Finds p) (rs ++ r :: rs') fs →
      ∃ f, c.Finds p r f ∧ lastNamed r.name fs = some f.payload := by
  induction rs with
  | nil =>
    intro fs hfs
    obtain ⟨f, fs, hf, hrest, rfl⟩ := List.forall₂_cons_left_iff.1 hfs
    refine ⟨f, hf, ?_⟩
    rw [lastNamed_cons, lastNamed_eq_none (names_ne hrest hlast), if_pos hf.name]
    rfl
  | cons x rs ih =>
    intro fs hfs
    obtain ⟨g, fs, -, hrest, rfl⟩ := List.forall₂_cons_left_iff.1 hfs
    obtain ⟨f, hf, hfound⟩ := ih hrest
    refine ⟨f, hf, ?_⟩
    rw [lastNamed_cons, hfound]
    rfl

variable {d : Outline} {w : ClassWriter} {classRef : ConstantIndex} {as : List RawAttribute}
  {table : Option RawAttribute}

/-- What is said about the class is read as it was said. -/
theorem HoldsPool.reads_header (h : c.HoldsPool p) (hp : p.Coherent) (hd : d.Fits)
    (hw : w.Tells p d) (hclass : p.Names .classRef classRef d.name)
    (hat : c.bytes.Has c.header (w.body classRef (as ++ table.toList))) :
    c.access = .ok d.access ∧ c.className = .ok d.name ∧ c.superclass = .ok d.info.superclass ∧
      c.interfaces = .ok d.info.interfaces := by
  have hname := hat.right
  have hsuper := hat.right.right
  have hinterfaces := hat.right.right.right
  rw [← List.append_assoc] at hinterfaces
  simp only [length_wordBytes, Nat.add_assoc] at hname hsuper hinterfaces
  refine ⟨hw.header.access ▸ hat.left.u16At, ?_, h.classAt hp.inOrder hw.header.superclass hsuper.left,
    h.classesAt hw.header.interfaces hd.interfaces.1 hinterfaces.left⟩
  exact bind_eq_ok_iff.2 ⟨some d.name, h.classAt hp.inOrder (i := some classRef) (.some hclass)
    hname.left, rfl⟩

theorem version_of_assemble {attributes : List RawAttribute}
    (hc : ofBytes (w.assemble p classRef attributes) = .ok c) : c.version = .ok w.header.version := by
  have hbytes := (located_of_ofBytes hc).1
  have hall : c.bytes.Has 0 c.bytes.toList := ⟨[], [], by simp, rfl⟩
  rw [hbytes, ClassWriter.toList_assemble, ← hbytes] at hall
  exact bind_eq_ok_iff.2 ⟨_, hall.right.left.u16At, bind_eq_ok_iff.2 ⟨_, hall.right.right.left.u16At,
    rfl⟩⟩

/-- The inner classes are read from the last attribute of their name, if there are any. -/
theorem HoldsRecords.reads_innerClasses (h : c.HoldsRecords p) (hp : p.InOrder) (hd : d.Fits)
    {last : List Remark} (hlast : ∀ r ∈ last, r = .bootstrapMethods) {fs : List AttributeAt}
    (hfs : List.Forall₂ (c.Finds p) (d.remarks ++ last) fs) (es : Array ClassEvent) :
    (InnerClass.firsts d.innerClasses = [] ∧ lastNamed "InnerClasses" fs = none) ∨
      ∃ o, lastNamed "InnerClasses" fs = some o ∧ Returns (c.readInnerClasses o) es ()
        (es ++ (InnerClass.firsts d.innerClasses).map ClassEvent.innerClass) := by
  have hother : ∀ r ∈ last, r.name ≠ "InnerClasses" := fun r hr => by
    rw [hlast r hr]
    decide
  by_cases hnone : InnerClass.firsts d.innerClasses = []
  · refine .inl ⟨hnone, lastNamed_eq_none (names_ne hfs fun r hr => ?_)⟩
    rw [Outline.remarks, if_pos hnone, List.append_nil, List.mem_append] at hr
    rcases hr with hr | hr
    · exact (d.info.name_ne hr).1
    · exact hother r hr
  · rw [Outline.remarks, if_neg hnone, List.append_assoc, List.singleton_append] at hfs
    obtain ⟨f, ⟨-, l, ⟨entries, hentries, rfl⟩, hat⟩, hfound⟩ := lastNamed_finds hother hfs
    exact .inr ⟨f.payload, hfound, h.readInnerClasses hp hentries hd.innerClasses.1 hat es⟩

end ClassBytes

/-- The events of an outline as they are read back: an inner class for each name, then the fields, then
the methods. -/
def Outline.replayed (d : Outline) : List ClassEvent :=
  .header d.version d.access d.name d.info :: ((InnerClass.firsts d.innerClasses).map .innerClass ++
    (d.fields.map fun info => .field info [.finish]) ++
    (d.methods.map fun info => .method info [.finish]) ++ [.finish])

namespace ClassBytes

variable {c : ClassBytes} {p : ConstantPool} {d : Outline} {w : ClassWriter}
  {classRef : ConstantIndex} {as : List RawAttribute} {table : Option RawAttribute}

/-- The members are read back, and then comes the end. -/
theorem HoldsPool.reads_tables (h : c.HoldsPool p) (hp : p.Coherent) (hd : d.Fits)
    (hw : w.Tells p d) (hat : c.bytes.Has c.header (w.body classRef (as ++ table.toList)))
    (es : Array ClassEvent) : Returns (do
        let fields := c.header + 8 + 2 * (← c.bytes.u16At (c.header + 6)).toNat
        let methods ← c.readMemberTable (c.readField .all) fields
        let _ ← c.readMemberTable (c.readMethod .all) methods
        Replay.emit .finish : Replay ClassEvent Unit) es ()
      ((es ++ d.fields.map (fun info => ClassEvent.field info [.finish]) ++
        d.methods.map fun info => ClassEvent.method info [.finish]).push .finish) := by
  obtain ⟨fields, hfields, hfieldTable⟩ := hw.fields.lists hd.fields.1
  obtain ⟨methods, hmethods, hmethodTable⟩ := hw.methods.lists hd.methods.1
  have hinterfacesAt := hat.right.right.right
  have hfieldsAt : c.bytes.Has (c.header + 8 + 2 * w.header.interfaces.length) (_ ++ _) :=
    hinterfacesAt.right.behind (by
      simp only [length_wordBytes, length_flatMap_wordBytes])
  have hmethodsAt : c.bytes.Has
      (c.header + 8 + 2 * w.header.interfaces.length + 2 + w.fields.bytes.size) (_ ++ _) :=
    hfieldsAt.behind (by
      simp only [List.length_append, length_wordBytes, Array.length_toList, Nat.add_assoc])
  have hread := hinterfacesAt.left.count (hw.header.interfaces.length_eq ▸ hd.interfaces.1)
  simp only [length_wordBytes] at hread
  refine returns_bind.2 ⟨_, es, returns_lift.2 ⟨hread.1, rfl⟩, ?_⟩
  rw [hread.2]
  refine returns_bind.2 ⟨_, _, reads_memberTable (fun info => .field info [.finish])
    hfields (fun info hi m hm o hat es => h.readField hp (hd.fields.2 info hi) hm hat es) hfieldTable
    hfieldsAt.left es, ?_⟩
  exact returns_bind.2 ⟨_, _, reads_memberTable (fun info => .method info [.finish])
    hmethods (fun info hi m hm o hat es => h.readMethod (hd.methods.2 info hi) hm hat es) hmethodTable
    hmethodsAt.left _, returns_modify.2 rfl⟩

/-- Every remark about the class is found among its attributes, and the bootstrap table is the last of
them. -/
theorem HoldsPool.attributes_outline (h : c.HoldsPool p) (hd : d.Fits) (hw : w.Tells p d)
    (has : List.Forall₂ p.Says d.remarks as) (htable : p.IsTable table)
    (hc : ofBytes (w.assemble p classRef (as ++ table.toList)) = .ok c)
    (hat : c.bytes.Has c.header (w.body classRef (as ++ table.toList))) :
    ∃ last fs stop, (∀ r ∈ last, r = .bootstrapMethods) ∧
      List.Forall₂ (c.Finds p) (d.remarks ++ last) fs ∧ c.attributesAt c.classAttributes = .ok (fs, stop) := by
  obtain ⟨fields, -, hfields⟩ := hw.fields.lists hd.fields.1
  obtain ⟨methods, -, hmethods⟩ := hw.methods.lists hd.methods.1
  obtain ⟨hbytes, -, hlocated⟩ := located_of_ofBytes hc
  obtain ⟨o, ho, hbehind⟩ :=
    findAttributes_eq hat (hw.header.interfaces.length_eq ▸ hd.interfaces.1) hfields hmethods
  obtain rfl := Except.ok.inj (ho.symm.trans (hbytes ▸ hlocated))
  obtain ⟨last, hlast, hsays⟩ := htable.says
  obtain ⟨fs, stop, hfs, hfound, -⟩ := h.attributesAt table has hsays
    (RawAttribute.fit_of_says has hd.remarks) (d.length_attributes has table) hbehind
  exact ⟨last, fs, stop, hlast, hfs, hfound⟩

/-- The header is put together from the remarks about the class. -/
theorem HoldsPool.classInfo_finds (h : c.HoldsPool p) (hp : p.Coherent) (hd : d.Fits)
    {last : List Remark} (hlast : ∀ r ∈ last, r = .bootstrapMethods) {fs : List AttributeAt}
    (hfs : List.Forall₂ (c.Finds p) (d.remarks ++ last) fs) :
    c.classInfo d.info.superclass d.info.interfaces fs = .ok d.info := by
  rw [classInfo, foldlM_finds hfs (fun r hr f hf => h.classAttribute hp
    ((List.mem_append.1 hr).imp (hd.remarks r) (hlast r)) hf), Outline.remarks, List.append_assoc,
    List.foldl_append, d.info.foldl_remarks, Remark.foldl_onClass fun r hr => ?_]
  rcases List.mem_append.1 hr with hr | hr
  · split at hr
    · exact nomatch hr
    · obtain rfl := List.mem_singleton.1 hr
      rfl
  · obtain rfl := hlast r hr
    rfl

/-- **What a writer tells is read back** from the class that was assembled from it. -/
theorem reads_outline (h : c.HoldsPool p) (hp : p.Coherent) (hd : d.Fits) (hw : w.Tells p d)
    (hclass : p.Names .classRef classRef d.name) (has : List.Forall₂ p.Says d.remarks as)
    (htable : p.IsTable table)
    (hc : ofBytes (w.assemble p classRef (as ++ table.toList)) = .ok c) :
    (c.events .all).all = (.ok (), d.replayed.toArray) := by
  obtain ⟨-, hbody⟩ := holdsRecords_of_assemble hp.inOrder h.modest.short hc
  obtain ⟨haccess, hname, hsuper, hinterfaces⟩ := h.reads_header hp hd hw hclass hbody
  obtain ⟨last, fs, stop, hlast, hfs, hfound⟩ := h.attributes_outline hd hw has htable hc hbody
  have hinfo := h.classInfo_finds hp hd hlast hfs
  have hrest := h.reads_tables hp hd hw hbody
  show Returns (c.events .all) #[] () d.replayed.toArray
  refine returns_bind.2 ⟨_, _, returns_lift.2 ⟨hname, rfl⟩, ?_⟩
  refine returns_bind.2 ⟨_, _, returns_lift.2 ⟨haccess, rfl⟩, ?_⟩
  refine returns_bind.2 ⟨_, _, returns_lift.2 ⟨hsuper, rfl⟩, ?_⟩
  refine returns_bind.2 ⟨_, _, returns_lift.2 ⟨hinterfaces, rfl⟩, ?_⟩
  refine returns_bind.2 ⟨_, _, returns_lift.2 ⟨hfound, rfl⟩, ?_⟩
  refine returns_bind.2 ⟨_, _, returns_lift.2 ⟨hinfo, rfl⟩, ?_⟩
  refine returns_bind.2 ⟨_, _, returns_lift.2 ⟨hw.header.version ▸ version_of_assemble hc, rfl⟩, ?_⟩
  refine returns_bind.2 ⟨(), _, returns_modify.2 rfl, ?_⟩
  dsimp only
  rw [accessWith_finds hfs, declarationTables_finds hfs]
  refine returns_bind.2 ⟨(), _, rfl, ?_⟩
  rcases h.reads_innerClasses hp.inOrder hd hlast hfs
    #[ClassEvent.header d.version d.access d.name d.info] with ⟨hnone, hfound⟩ | ⟨o, hfound, hread⟩
  · rw [hfound]
    refine (hrest #[ClassEvent.header d.version d.access d.name d.info]).trans ?_
    simp [Outline.replayed, hnone]
  · rw [hfound]
    refine returns_bind.2 ⟨(), _, hread, (hrest _).trans ?_⟩
    simp [Outline.replayed]

/-! ## 5. Outlines -/

/-- A class that was told an outline can be written. -/
theorem writable_outline (hd : d.Fits) (hw : w.Tells p d) (has : List.Forall₂ p.Says d.remarks as)
    (table : Option RawAttribute) (hm : p.Modest) (hentries : p.bootstrap.entries.size ≤ 65535) :
    w.Writable p table (as ++ table.toList) where
  interfaces := hw.header.interfaces.length_eq ▸ hd.interfaces.1
  fields := (hw.fields.lists hd.fields.1).imp fun _ h => h.2
  methods := (hw.methods.lists hd.methods.1).imp fun _ h => h.2
  count := d.length_attributes has table
  attributes := by
    refine ⟨as, [], by simp, fun a ha => ?_, fun h => absurd rfl h⟩
    rw [List.append_nil] at ha
    obtain ⟨r, hr, hsays⟩ := exists_of_forall₂ has ha
    exact ⟨⟨r.name, hsays.1, d.name_ne hr⟩, RawAttribute.fit_of_says has hd.remarks a ha⟩
  modest := hm
  entries := hentries

/-- **What an outline declares is read back from the class file.** Whatever the options are, and however
often the end is told: if the events of the outline are taken and the class is put together, then the
class is accepted, and its events are those of the outline, fields before methods and each inner class
once. -/
theorem outline_survives (d : Outline) (hd : d.Fits) (options : WriterOptions) (ends : Nat) {b : Bytes}
    {p : ConstantPool} (hret : Returns (do
        let w ← (ClassWriter.start options).events
          (d.events ++ List.replicate ends ClassEvent.finish).toArray
        w.bytes) .empty b p) (hentries : p.bootstrap.entries.size ≤ 65535) :
    ∃ c, ofBytes b = .ok c ∧ (c.events .all).all = (.ok (), d.replayed.toArray) := by
  obtain ⟨w, p₁, hevents, hbytes⟩ := returns_bind.1 hret
  obtain ⟨hp₁, hm₁, -, htold⟩ :=
    ClassWriter.lasts_outline hd options ends _ _ _ hevents coherent_empty modest_empty
  obtain ⟨hp, hm, hw, classRef, as, table, rfl, hclass, has, htable⟩ :=
    ClassWriter.returns_bytes_outline hp₁ hm₁ htold hbytes
  obtain ⟨c, hc, hholds⟩ :=
    ofBytes_assemble hp.inOrder htable (writable_outline hd hw has table hm hentries) classRef
  exact ⟨c, hc, reads_outline hholds.toHoldsPool hp hd hw hclass has htable hc⟩

/-- A method, and then a field with a value, in a class with an inner one. -/
def nested : Outline where
  version := ⟨52, 0⟩
  access := 33
  name := "A"
  info := ⟨some "B", [], none, none, none, [], false⟩
  innerClasses := [⟨"I", some "A", none, 0⟩]
  members := [.method ⟨1, "m", "()V", none, [], true⟩,
    .field ⟨9, "f", "I", none, some (.integer 7), false⟩]

theorem fits_nested : nested.Fits where
  name := by decide
  superclass := by
    simp only [nested, Option.mem_some_iff, forall_eq']
    decide
  interfaces := by simp [nested]
  info := by simp [nested, ClassInfo.remarks, Remark.classes, Remark.ifDeprecated]
  innerClasses := by
    refine ⟨by decide, fun c hc => ?_⟩
    obtain rfl := List.mem_singleton.1 hc
    exact ⟨by decide, by simp only [Option.mem_some_iff, forall_eq']; decide, by simp⟩
  fields := by
    refine ⟨by decide, fun info hinfo => ?_⟩
    obtain rfl := List.mem_singleton.1 hinfo
    refine ⟨by decide, by decide, fun r hr => ?_⟩
    obtain rfl := List.mem_singleton.1 hr
    exact ⟨trivial, trivial⟩
  methods := by
    refine ⟨by decide, fun info hinfo => ?_⟩
    obtain rfl := List.mem_singleton.1 hinfo
    refine ⟨by decide, by decide, fun r hr => ?_⟩
    obtain rfl := List.mem_singleton.1 hr
    trivial

/-! Each of its events takes a few constants. -/

theorem takes_nestedHeader (options : WriterOptions) : Takes p ((ClassWriter.start options).event
    (.header nested.version nested.access nested.name nested.info)) 4 := by
  have hfits : ModifiedUtf8.Fits "A" ∧ ModifiedUtf8.Fits "B" := by decide
  have hof : Takes p (ClassHeader.of nested.version nested.access nested.name nested.info) 4 :=
    (takes_classRef hfits.1).bind fun _ _ _ => ((takes_classRef hfits.2).bind fun _ _ _ =>
      .pure _).bind fun _ _ _ => .pure _
  exact hof.bind fun _ _ _ => .pure _

theorem takes_nestedInnerClass (w : ClassWriter) :
    Takes p (w.event (.innerClass ⟨"I", some "A", none, 0⟩)) 4 := by
  have hfits : ModifiedUtf8.Fits "A" ∧ ModifiedUtf8.Fits "I" := by decide
  have hentry : ∀ {p : ConstantPool}, Takes p (InnerClassTable.entry ⟨"I", some "A", none, 0⟩) 4 :=
    ((takes_classRef hfits.1).bind fun _ _ _ => .pure _).bind fun _ _ _ =>
      (Takes.pure _).bind fun _ _ _ => (takes_classRef hfits.2).bind fun _ _ _ => .pure _
  have hadd : Takes p (w.innerClasses.add ⟨"I", some "A", none, 0⟩) 4 := by
    obtain ⟨names, entries⟩ := w.innerClasses
    unfold InnerClassTable.add
    dsimp only
    split
    · exact (Takes.pure _).mono (Nat.zero_le 4)
    · exact hentry.bind fun _ _ _ => .pure _
  exact hadd.bind fun _ _ _ => .pure _

theorem takes_nestedMethod (w : ClassWriter) :
    Takes p (w.method ⟨1, "m", "()V", none, [], true⟩ [.finish]) 3 := by
  have hfits : ModifiedUtf8.Fits "m" ∧ ModifiedUtf8.Fits "()V" ∧ ModifiedUtf8.Fits "Deprecated" := by decide
  have htype : Descriptor.methodType "()V" = .ok ⟨[], none⟩ := by cbv
  have hdeprecated : ∀ {p : ConstantPool}, Takes p (deprecatedAttribute true) 1 :=
    (takes_utf8 hfits.2.2).bind fun _ _ _ => .pure _
  simp only [ClassWriter.method, ClassWriter.startMethod, MethodWriter.start, MethodWriter.events,
    bind_assoc, pure_bind, List.foldlM_cons, List.foldlM_nil, MethodWriter.event_finish,
    MethodWriter.finish_bare, htype]
  exact (Takes.pure _).bind fun _ _ _ => (takes_utf8 hfits.1).bind fun _ _ _ =>
    (takes_utf8 hfits.2.1).bind fun _ _ _ => (Takes.pure []).bind fun _ _ _ =>
    (Takes.pure []).bind fun _ _ _ => hdeprecated.bind fun _ _ _ => .pure _

theorem takes_nestedField (w : ClassWriter) :
    Takes p (w.field ⟨9, "f", "I", none, some (.integer 7), false⟩ [.finish]) 4 := by
  have hfits : ModifiedUtf8.Fits "f" ∧ ModifiedUtf8.Fits "I" ∧ ModifiedUtf8.Fits "ConstantValue" := by decide
  have hvalue : ∀ {p : ConstantPool},
      Takes p (constantAttribute loadable .constantValue (some (.integer 7))) 2 :=
    (takes_intern (c := .integer 7) nofun).bind fun _ _ _ =>
      (takes_named (a := .constantValue _) hfits.2.2).bind fun _ _ _ => .pure _
  simp only [ClassWriter.field, FieldWriter.start, bind_assoc, pure_bind, List.foldlM_cons,
    List.foldlM_nil, FieldWriter.finish_bare]
  exact (takes_utf8 hfits.1).bind fun _ _ _ => (takes_utf8 hfits.2.1).bind fun _ _ _ =>
    hvalue.bind fun _ _ _ => (Takes.pure []).bind fun _ _ _ => (Takes.pure []).bind fun _ _ _ => .pure _

/-- What is left are the names of two tables. -/
theorem takes_bytes {q : ConstantPool} (hw : w.Tells q d) : Takes p w.bytes 2 := by
  have hname : ModifiedUtf8.Fits "InnerClasses" := by decide
  obtain ⟨i, hi, -⟩ := hw.header.name
  have hinner : ∀ {p : ConstantPool}, Takes p w.innerClasses.attributes 1 := by
    intro p
    unfold InnerClassTable.attributes
    split
    · exact (Takes.pure _).mono (Nat.zero_le 1)
    · exact (takes_named (a := .innerClasses _) hname).bind fun _ _ _ => .pure _
  have hattributes : ∀ {p : ConstantPool}, Takes p w.attributes 2 := by
    intro p
    refine hinner.bind (k := 1) fun _ _ _ => ?_
    rw [hw.annotations, DeclaredAnnotations.attributes_empty]
    exact (Takes.pure []).bind fun _ _ _ => takes_bootstrapAttribute?.bind fun _ _ _ => .pure _
  unfold ClassWriter.bytes
  rw [hi]
  refine (Takes.pure i).bind (k := 2) fun _ _ _ => hattributes.bind (k := 0) fun _ p _ => ?_
  exact fun _ => ⟨_, p, returns_bind.2 ⟨p, p, returns_get.2 ⟨rfl, rfl⟩, returns_pure.2 ⟨rfl, rfl⟩⟩,
    .refl 0 p⟩

/-- The outline above is accepted, and read back with the field first. -/
theorem outline_survives_nested : ∃ b p c, Returns (do
      let w ← (ClassWriter.start ⟨.maxStack, .empty⟩).events
        (nested.events ++ List.replicate 1 ClassEvent.finish).toArray
      w.bytes) .empty b p ∧ ofBytes b = .ok c ∧
      (c.events .all).all = (.ok (), nested.replayed.toArray) := by
  have hevents : Takes .empty ((ClassWriter.start ⟨.maxStack, .empty⟩).events
      (nested.events ++ List.replicate 1 ClassEvent.finish).toArray) 15 := by
    rw [ClassWriter.events, List.foldlM_toArray]
    exact (takes_nestedHeader _).bind fun _ _ _ => (takes_nestedInnerClass _).bind fun _ _ _ =>
      (takes_nestedMethod _).bind fun _ _ _ => (takes_nestedField _).bind fun _ _ _ => .pure _
  obtain ⟨b, p, hret, hw⟩ := (hevents.bind fun w p hw => takes_bytes
    ((ClassWriter.lasts_outline fits_nested _ _ _ _ _ hw coherent_empty modest_empty).2.2.2 p
      (.refl p))) (by simp [empty, OffsetTable.startingAt])
  obtain ⟨c, hc, hread⟩ := outline_survives nested fits_nested ⟨.maxStack, .empty⟩ 1 hret
    (hw.entries.trans (by simp [empty, BootstrapTable.empty]))
  exact ⟨b, p, c, hret, hc, hread⟩

end ClassBytes

end ClassFile
