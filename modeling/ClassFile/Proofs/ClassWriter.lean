/-
# Classes on the way

While a class is written its pool stays sound and only grows, whatever its events are.  `Run` is the
relation between a writer and its pool at any time; it starts with an empty pool, or with a copy of one
(`Run.sound`).  What has been written before refers to the pool of the class file as well
(`later_class`).
-/
import ClassFile.ClassWriter
import ClassFile.ConstantPool.Copy
import ClassFile.Proofs.MemberWriter

namespace ClassFile

open ConstantPool (Later)

variable {h : Hierarchy} {p p' : ConstantPool}

/-! ## 1. Parts of classes -/

namespace InnerClassTable

theorem interning_entry (c : InnerClass) : Interning (entry c) := by
  obtain ⟨name, outer, innerName, access⟩ := c
  have hrest : ∀ o n, Interning (do
      return ⟨← ConstantPool.classRef name, o, n, access⟩ : PoolM InnerClassEntry) :=
    fun o n => (ConstantPool.interning_classRef _).bind fun _ => .pure _
  cases outer with
  | none =>
    cases innerName with
    | none => exact Interning.bind (.pure _) fun _ => .bind (.pure _) fun _ => hrest _ _
    | some n =>
      exact Interning.bind (.pure _) fun _ =>
        .bind ((ConstantPool.interning_utf8 n).map _) fun _ => hrest _ _
  | some o =>
    refine .bind ((ConstantPool.interning_classRef o).map _) fun _ => ?_
    cases innerName with
    | none => exact Interning.bind (.pure _) fun _ => hrest _ _
    | some n => exact .bind ((ConstantPool.interning_utf8 n).map _) fun _ => hrest _ _

theorem interning_add (t : InnerClassTable) (c : InnerClass) : Interning (t.add c) := by
  obtain ⟨names, entries⟩ := t
  unfold add
  dsimp only
  split
  · exact .pure _
  · exact (interning_entry c).bind fun _ => .pure _

theorem interning_attributes (t : InnerClassTable) : Interning t.attributes := by
  unfold attributes
  split
  · exact .pure _
  · exact (ConstantPool.interning_named _).bind fun _ => .pure _

end InnerClassTable

namespace ClassHeader

theorem interning_nestMembersAttribute (members : List String) :
    Interning (nestMembersAttribute members) := by
  unfold nestMembersAttribute
  split
  · exact .pure _
  · exact (Interning.mapM ConstantPool.interning_classRef _).bind fun _ =>
      (ConstantPool.interning_named _).bind fun _ => .pure _

theorem interning_of (version : Version) (access : UInt16) (name : String) (info : ClassInfo) :
    Interning (ClassHeader.of version access name info) := by
  refine (ConstantPool.interning_classRef _).bind fun classRef => ?_
  have hrest : ∀ superclass, Interning (do
      let interfaces ← info.interfaces.mapM ConstantPool.classRef
      let source ← constantAttribute ConstantPool.utf8 .sourceFile info.sourceFile
      let signature ← constantAttribute ConstantPool.utf8 .signature info.signature
      let host ← constantAttribute ConstantPool.classRef .nestHost info.nestHost
      let members ← nestMembersAttribute info.nestMembers
      let deprecated ← deprecatedAttribute info.deprecated
      return ⟨version, access, name, classRef, superclass, interfaces,
        source ++ signature ++ host ++ members ++ deprecated⟩ : PoolM ClassHeader) :=
    fun superclass => (Interning.mapM ConstantPool.interning_classRef _).bind fun _ =>
      (interning_constantAttribute ConstantPool.interning_utf8 _ _).bind fun _ =>
      (interning_constantAttribute ConstantPool.interning_utf8 _ _).bind fun _ =>
      (interning_constantAttribute ConstantPool.interning_classRef _ _).bind fun _ =>
      (interning_nestMembersAttribute _).bind fun _ =>
      (interning_deprecatedAttribute _).bind fun _ => .pure _
  dsimp only
  cases info.superclass with
  | none => exact Interning.bind (.pure _) hrest
  | some s => exact .bind ((ConstantPool.interning_classRef s).map _) hrest

end ClassHeader

/-- Nothing comes behind the end of a method. -/
def ClassEvent.Closed : ClassEvent → Prop
  | .method _ es => MethodWriter.Closed es
  | _ => True

namespace ClassWriter

variable {options : WriterOptions} {w w' : ClassWriter}

theorem returns_startMethod {info : MethodInfo} {m : MethodWriter} :
    Returns (w.startMethod info) p (m, w') p' ↔
      Returns (MethodWriter.start (w.header.mode w.options) info w.methods) p m p' ∧
        w' = { w with methods := .empty } := by
  obtain ⟨options, header, annotations, innerClasses, fields, methods⟩ := w
  unfold startMethod
  rw [returns_bind]
  constructor
  · rintro ⟨m', p₁, hstart, hret⟩
    obtain ⟨heq, rfl⟩ := returns_pure.1 hret
    obtain ⟨rfl, rfl⟩ := Prod.mk.injEq .. ▸ heq
    exact ⟨hstart, rfl⟩
  · rintro ⟨hstart, rfl⟩
    exact ⟨m, p', hstart, returns_pure.2 ⟨rfl, rfl⟩⟩

theorem interning_field (info : FieldInfo) (es : List FieldEvent) (w : ClassWriter) :
    Interning (w.field info es) :=
  (FieldWriter.interning_start _ _).bind fun _ =>
    (Interning.foldlM FieldWriter.interning_event _ _).bind fun _ => .pure _

/-- An event of a class, whose methods end with their ends. -/
theorem later_event (hp : p.Sound w.options.hierarchy) {e : ClassEvent} (he : e.Closed)
    (hret : Returns (w.event e) p w' p') :
    p'.Sound w.options.hierarchy ∧ p ≤ p' ∧ w'.options = w.options := by
  cases e with
  | header version access name info =>
    obtain ⟨header, p₁, hof, hret₁⟩ := returns_bind.1 hret
    obtain ⟨rfl, rfl⟩ := returns_pure.1 hret₁
    obtain ⟨hs, hle⟩ := (ClassHeader.interning_of _ _ _ _).leads _ _ _ hof hp
    exact ⟨hs, hle, rfl⟩
  | annotated a =>
    obtain ⟨annotations, p₁, hadd, hret₁⟩ := returns_bind.1 hret
    obtain ⟨rfl, rfl⟩ := returns_pure.1 hret₁
    obtain ⟨hs, hle⟩ := (DeclaredAnnotations.interning_add _ _).leads _ _ _ hadd hp
    exact ⟨hs, hle, rfl⟩
  | innerClass c =>
    obtain ⟨table, p₁, hadd, hret₁⟩ := returns_bind.1 hret
    obtain ⟨rfl, rfl⟩ := returns_pure.1 hret₁
    obtain ⟨hs, hle⟩ := (InnerClassTable.interning_add _ _).leads _ _ _ hadd hp
    exact ⟨hs, hle, rfl⟩
  | field info es =>
    obtain ⟨hs, hle⟩ := (interning_field info es w).leads _ _ _ hret hp
    obtain ⟨start, p₁, -, hret₁⟩ := returns_bind.1 hret
    obtain ⟨member, p₂, -, hret₂⟩ := returns_bind.1 hret₁
    obtain ⟨rfl, rfl⟩ := returns_pure.1 hret₂
    exact ⟨hs, hle, rfl⟩
  | method info es =>
    obtain ⟨⟨m, w₁⟩, p₁, hstart, hret₁⟩ := returns_bind.1 hret
    obtain ⟨hstart', rfl⟩ := returns_startMethod.1 hstart
    obtain ⟨m', p₂, hevents, hret₂⟩ := returns_bind.1 hret₁
    obtain ⟨rfl, rfl⟩ := returns_pure.1 hret₂
    obtain ⟨hs₁, hle₁⟩ := MethodWriter.leads_start _ _ _ _ _ _ hstart' hp
    obtain ⟨slots, hcode, -, -⟩ := MethodWriter.returns_start hstart'
    obtain ⟨hs, hle⟩ := MethodWriter.later_events (hcode ▸ CodeWriter.kept_start hs₁ _ slots) he hevents
    exact ⟨hs, ConstantPool.le_trans hle₁ hle, rfl⟩
  | finish =>
    obtain ⟨rfl, rfl⟩ := returns_pure.1 hret
    exact ⟨hp, ConstantPool.le_refl _, rfl⟩

/-- **Putting a class together** asks for records, and looks at the pool. -/
theorem leads_bytes {R : ConstantPool → ConstantPool → Prop} [IsPreorder ConstantPool R]
    (hask : ∀ {α : Type} {m : PoolM α}, Interning m → Leads R m) (w : ClassWriter) :
    Leads R w.bytes := by
  have hrest : ∀ classRef, Leads R (do
      let attributes ← w.attributes
      return w.assemble (← get) classRef attributes : PoolM Bytes) := by
    refine fun classRef => Leads.bind ?_ fun _ => Leads.get.bind fun _ => .pure _
    refine (hask (InnerClassTable.interning_attributes _)).bind fun _ =>
      (hask (DeclaredAnnotations.interning_attributes _)).bind fun _ => Leads.bind ?_ fun _ => .pure _
    refine Leads.get.bind fun p => ?_
    dsimp only
    split
    · exact .pure _
    · exact (hask (ConstantPool.interning_named _)).bind fun _ => .pure _
  unfold bytes
  cases w.header.classRef with
  | some index => exact Leads.bind (.pure _) hrest
  | none => exact (hask (ConstantPool.interning_classRef _)).bind hrest

theorem returns_attributes {attributes : List RawAttribute}
    (hret : Returns w.attributes p attributes p') :
    ∃ inner annotations table p₁ p₂, Returns w.innerClasses.attributes p inner p₁ ∧
      Returns w.annotations.attributes p₁ annotations p₂ ∧
      Returns ConstantPool.bootstrapAttribute? p₂ table p' ∧
      attributes = w.header.attributes ++ inner ++ annotations ++ table.toList := by
  obtain ⟨inner, p₁, hinner, hret⟩ := returns_bind.1 hret
  obtain ⟨annotations, p₂, hannotations, hret⟩ := returns_bind.1 hret
  obtain ⟨table, p₃, htable, hret⟩ := returns_bind.1 hret
  obtain ⟨rfl, rfl⟩ := returns_pure.1 hret
  exact ⟨inner, annotations, table, p₁, p₂, hinner, hannotations, htable, rfl⟩

/-- **What puts a class together**: the index of its name, which is asked for if it is not known, its
attributes, and the pool behind all that. -/
theorem returns_bytes {b : Bytes} (hret : Returns w.bytes p b p') :
    ∃ classRef attributes p₁, (w.header.classRef = some classRef ∧ p₁ = p ∨
        w.header.classRef = none ∧ Returns (ConstantPool.classRef w.header.name) p classRef p₁) ∧
      Returns w.attributes p₁ attributes p' ∧ b = w.assemble p' classRef attributes := by
  have hrest : ∀ {classRef : ConstantIndex} {q : ConstantPool}, Returns (do
      let attributes ← w.attributes
      return w.assemble (← get) classRef attributes : PoolM Bytes) q b p' →
      ∃ attributes, Returns w.attributes q attributes p' ∧
        b = w.assemble p' classRef attributes := by
    intro classRef q hret
    obtain ⟨attributes, q₁, hattributes, hret⟩ := returns_bind.1 hret
    obtain ⟨_, _, hget, hret⟩ := returns_bind.1 hret
    obtain ⟨rfl, rfl⟩ := returns_get.1 hget
    obtain ⟨rfl, rfl⟩ := returns_pure.1 hret
    exact ⟨attributes, hattributes, rfl⟩
  unfold bytes at hret
  cases hname : w.header.classRef with
  | some index =>
    rw [hname] at hret
    obtain ⟨_, _, hpure, hret⟩ := returns_bind.1 hret
    obtain ⟨rfl, rfl⟩ := returns_pure.1 hpure
    obtain ⟨attributes, hattributes, hb⟩ := hrest hret
    exact ⟨index, attributes, p, .inl ⟨rfl, rfl⟩, hattributes, hb⟩
  | none =>
    rw [hname] at hret
    obtain ⟨classRef, p₁, hclass, hret⟩ := returns_bind.1 hret
    obtain ⟨attributes, hattributes, hb⟩ := hrest hret
    exact ⟨classRef, attributes, p₁, .inr ⟨rfl, hclass⟩, hattributes, hb⟩

end ClassWriter

/-! ## 2. Copied pools -/

namespace ConstantPool

theorem leads_copyBootstrap (b : Bytes) (count offset : Nat) :
    Leads (Later h) (copyBootstrap b count offset) := by
  induction count generalizing offset with
  | zero => exact .pure _
  | succ count ih =>
    exact (Leads.lift _).bind fun _ => (Leads.lift _).bind fun _ => (Leads.lift _).bind fun _ =>
      (leads_internBootstrap _).bind fun _ => ih _

/-- A record that is copied and remembered. -/
theorem leads_copyRecord (c : Constant) : Leads (Later h) (push c >>= remember c) := by
  intro p u p' hret hp
  obtain ⟨i, p₁, hpush, hremember⟩ := returns_bind.1 hret
  obtain ⟨hs₁, hle₁, hi⟩ := hp.push hpush
  obtain ⟨hs, hle, -⟩ := hs₁.remember hi hremember
  exact ⟨hs, le_trans hle₁ hle⟩

theorem leads_copyRecords (source : ClassBytes) (index : Nat) :
    Leads (Later h) (copyRecords source index) := by
  generalize hn : source.itemCount.toNat - index = n
  induction n using Nat.strong_induction_on generalizing index with
  | h n ih =>
    unfold copyRecords
    split
    · refine Leads.get.bind fun p => (Leads.lift _).bind fun c => ?_
      rw [← bind_assoc]
      have := Constant.width_pos c
      exact (leads_copyRecord c).bind fun _ => ih _ (by omega) _ rfl
    · exact .pure _

/-- **A copied pool is sound.** -/
theorem sound_copyOf {source : ClassBytes} {table : Option Nat} (hcopy : copyOf source table = .ok p) :
    p.Sound h := by
  unfold copyOf at hcopy
  dsimp only at hcopy
  split at hcopy
  · rename_i pool hrun
    cases hcopy
    cases table with
    | none =>
      have hcopied := (Leads.pure ()).bind fun _ => leads_copyRecords (h := h) source 1
      exact (hcopied _ _ _ hrun (sound_empty h)).1
    | some offset =>
      have hcopied := (Leads.lift (source.bytes.u16At offset)).bind fun count =>
        (leads_copyBootstrap source.bytes count.toNat (offset + 2)).bind fun _ =>
          leads_copyRecords (h := h) source 1
      exact (hcopied _ _ _ hrun (sound_empty h)).1
  · cases hcopy

end ConstantPool

/-! ## 3. Runs -/

namespace ClassWriter

/-- **A class that is being written**, and its pool: the pool is empty at first, or a copy, and then
events come in. -/
inductive Run (options : WriterOptions) : ClassWriter → ConstantPool → Prop
  | fresh : Run options (start options) .empty
  | copied {source : ClassBytes} {table : Option Nat} {p : ConstantPool}
      (hcopy : ConstantPool.copyOf source table = .ok p) : Run options (start options) p
  | event {w w' : ClassWriter} {p p' : ConstantPool} {e : ClassEvent} (hrun : Run options w p)
      (he : e.Closed) (hret : Returns (w.event e) p w' p') : Run options w' p'

variable {options : WriterOptions} {w w' : ClassWriter}

/-- **The pool is sound at any time.** -/
theorem Run.sound (hrun : Run options w p) : p.Sound options.hierarchy ∧ w.options = options := by
  induction hrun with
  | fresh => exact ⟨ConstantPool.sound_empty _, rfl⟩
  | copied hcopy => exact ⟨ConstantPool.sound_copyOf hcopy, rfl⟩
  | event _ he hret ih =>
    obtain ⟨hp, rfl⟩ := ih
    obtain ⟨hs, -, hoptions⟩ := later_event hp he hret
    exact ⟨hs, hoptions⟩

theorem later_events (hp : p.Sound w.options.hierarchy) {es : List ClassEvent}
    (hes : ∀ e ∈ es, e.Closed) (hret : Returns (es.foldlM event w) p w' p') :
    p'.Sound w.options.hierarchy ∧ p ≤ p' := by
  induction es generalizing w p with
  | nil =>
    obtain ⟨rfl, rfl⟩ := returns_pure.1 hret
    exact ⟨hp, ConstantPool.le_refl _⟩
  | cons e es ih =>
    rw [List.foldlM_cons] at hret
    obtain ⟨w₁, p₁, he, hrest⟩ := returns_bind.1 hret
    obtain ⟨hs₁, hle₁, hoptions⟩ := later_event hp (hes e List.mem_cons_self) he
    obtain ⟨hs, hle⟩ := ih (hoptions ▸ hs₁) (fun e he => hes e (List.mem_cons_of_mem _ he)) hrest
    exact ⟨hoptions ▸ hs, ConstantPool.le_trans hle₁ hle⟩

/-- **The pool of the class file has grown** from that at any time, and is sound. -/
theorem later_class (hp : p.Sound w.options.hierarchy) {es : List ClassEvent}
    (hes : ∀ e ∈ es, e.Closed) {b : Bytes}
    (hret : Returns (do (← es.foldlM event w).bytes) p b p') :
    p'.Sound w.options.hierarchy ∧ p ≤ p' := by
  obtain ⟨w', p₁, hevents, hbytes⟩ := returns_bind.1 hret
  obtain ⟨hs₁, hle₁⟩ := later_events hp hes hevents
  obtain ⟨hs, hle⟩ := leads_bytes Interning.leads w' _ _ _ hbytes hs₁
  exact ⟨hs, ConstantPool.le_trans hle₁ hle⟩

end ClassWriter

end ClassFile
