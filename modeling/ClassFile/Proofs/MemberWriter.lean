/-
# Members on the way

Declarations, fields and annotations ask the pool for the constants that they need, and do nothing else
to it (`FieldWriter.interning_event`, `MethodWriter.interning_start`).  Whatever is written into a method,
the pool only grows (`later_events`).  In a method, nothing comes behind its end.

If each label is placed once, and no debug label is used, the code of a method is tracked up to its end
(`tracked_events`).

The attributes of a method have names that tell them apart: the names of those in front are a part of
`MethodWriter.frontNames`, in this order, and behind them are those of the parameters (`called_finish`).
-/
import ClassFile.MemberWriter
import ClassFile.Proofs.Annotation.Encode
import ClassFile.Proofs.Code.Growth

namespace ClassFile

open ConstantPool (Later)

variable {h : Hierarchy} {p p' : ConstantPool}

/-! ## 1. Declarations -/

namespace DeclaredAnnotations

theorem interning_add (a : AnnotationInfo) (d : DeclaredAnnotations) : Interning (d.add a) := by
  unfold add
  split <;> exact (AnnotationSet.interning_add _ _ _).bind fun _ => .pure _

theorem interning_attributes (d : DeclaredAnnotations) : Interning d.attributes :=
  (AnnotationSet.interning_attribute? _ _).bind fun _ =>
    (AnnotationSet.interning_attribute? _ _).bind fun _ => .pure _

theorem attributes_empty : empty.attributes = pure [] := rfl

end DeclaredAnnotations

namespace ParameterAnnotations

theorem interning_add (parameter : UInt8) (a : AnnotationInfo) (annotations : ParameterAnnotations) :
    Interning (annotations.add parameter a) := by
  have hto : ∀ sets, Interning (addTo sets parameter.toNat a) := fun _ =>
    (AnnotationSet.interning_add _ _ _).bind fun _ => .pure _
  unfold add
  split <;> exact (hto _).bind fun _ => .pure _

theorem interning_attributes (annotations : ParameterAnnotations) (parameters : Nat) :
    Interning (annotations.attributes parameters) :=
  (AnnotationSet.interning_parametersAttribute? _ _ _).bind fun _ =>
    (AnnotationSet.interning_parametersAttribute? _ _ _).bind fun _ => .pure _

theorem parametersAttribute?_empty (parameters : Nat) (name : String) :
    AnnotationSet.parametersAttribute? #[] parameters name = pure none := by
  unfold AnnotationSet.parametersAttribute?
  rw [if_pos (by simp)]

theorem attributes_empty (parameters : Nat) : empty.attributes parameters = pure [] := by
  unfold attributes empty
  simp only [parametersAttribute?_empty, pure_bind]
  rfl

end ParameterAnnotations

theorem interning_constantAttribute {α : Type} {constant : α → PoolM ConstantIndex}
    (hc : ∀ v, Interning (constant v)) (content : ConstantIndex → Attribute) (value : Option α) :
    Interning (constantAttribute constant content value) := by
  cases value with
  | none => exact .pure _
  | some v => exact (hc v).bind fun _ => (ConstantPool.interning_named _).bind fun _ => .pure _

theorem interning_deprecatedAttribute (deprecated : Bool) :
    Interning (deprecatedAttribute deprecated) := by
  unfold deprecatedAttribute
  split
  · exact (ConstantPool.interning_utf8 _).bind fun _ => .pure _
  · exact .pure _

namespace FieldWriter

theorem interning_start (info : FieldInfo) (table : MemberTable) : Interning (start info table) :=
  (ConstantPool.interning_utf8 _).bind fun _ => (ConstantPool.interning_utf8 _).bind fun _ =>
    (interning_constantAttribute ConstantPool.interning_loadable _ _).bind fun _ =>
    (interning_constantAttribute ConstantPool.interning_utf8 _ _).bind fun _ =>
    (interning_deprecatedAttribute _).bind fun _ => .pure _

theorem interning_event (w : FieldWriter) (e : FieldEvent) : Interning (w.event e) := by
  cases e with
  | annotated a => exact (DeclaredAnnotations.interning_add _ _).bind fun _ => .pure _
  | finish => exact (DeclaredAnnotations.interning_attributes _).bind fun _ => .pure _

end FieldWriter

/-! ## 2. Events of methods -/

namespace MethodWriter

variable {m m' : MethodWriter} {c : ClassContext}

theorem interning_exceptionsAttribute (exceptions : List String) :
    Interning (exceptionsAttribute exceptions) := by
  unfold exceptionsAttribute
  split
  · exact .pure _
  · exact (Interning.mapM ConstantPool.interning_classRef _).bind fun _ =>
      (ConstantPool.interning_named _).bind fun _ => .pure _

theorem interning_start (mode : ComputeMode) (info : MethodInfo) (table : MemberTable) :
    Interning (start mode info table) :=
  (Interning.lift _).bind fun _ => (ConstantPool.interning_utf8 _).bind fun _ =>
    (ConstantPool.interning_utf8 _).bind fun _ => (interning_exceptionsAttribute _).bind fun _ =>
    (interning_constantAttribute ConstantPool.interning_utf8 _ _).bind fun _ =>
    (interning_deprecatedAttribute _).bind fun _ => .pure _

theorem leads_start (mode : ComputeMode) (info : MethodInfo) (table : MemberTable) :
    Leads (Later h) (start mode info table) := (interning_start mode info table).leads

theorem interning_defaultAttribute (default : Option Bytes) :
    Interning (defaultAttribute default) := by
  unfold defaultAttribute
  split
  · exact (ConstantPool.interning_utf8 _).bind fun _ => .pure _
  · exact .pure _

theorem returns_onCode {f : CodeM Unit} :
    Returns (m.onCode f) p m' p' ↔
      ∃ code, Returns (f m.code) p ((), code) p' ∧ m' = { m with code := code } := by
  obtain ⟨header, attributes, default, annotations, parameters, hasCode, code, table⟩ := m
  unfold onCode
  rw [returns_bind]
  constructor
  · rintro ⟨⟨u, code'⟩, p₁, hf, hret⟩
    obtain ⟨rfl, rfl⟩ := returns_pure.1 hret
    exact ⟨code', hf, rfl⟩
  · rintro ⟨code', hf, rfl⟩
    exact ⟨((), code'), p', hf, returns_pure.2 ⟨rfl, rfl⟩⟩

/-- **What starts a method.** -/
theorem returns_start {mode : ComputeMode} {info : MethodInfo} {table : MemberTable}
    (hret : Returns (start mode info table) p m p') :
    ∃ slots, m.code = .start mode slots ∧ m.header.info = info ∧ m.table = table := by
  obtain ⟨type, p₁, -, hret₁⟩ := returns_bind.1 hret
  obtain ⟨name, p₂, -, hret₂⟩ := returns_bind.1 hret₁
  obtain ⟨descriptor, p₃, -, hret₃⟩ := returns_bind.1 hret₂
  obtain ⟨exceptions, p₄, -, hret₄⟩ := returns_bind.1 hret₃
  obtain ⟨signature, p₅, -, hret₅⟩ := returns_bind.1 hret₄
  obtain ⟨deprecated, p₆, -, hret₆⟩ := returns_bind.1 hret₅
  obtain ⟨rfl, rfl⟩ := returns_pure.1 hret₆
  exact ⟨_, rfl, rfl, rfl⟩

theorem interning_onCode {f : CodeM Unit} (hf : Interning (f m.code)) : Interning (m.onCode f) :=
  hf.bind fun _ => .pure _

/-- **An event outside the code** only asks for records. -/
theorem interning_event {e : MethodEvent} (he : e.inCode = false) (hopen : e ≠ .finish) :
    Interning (m.event c e) := by
  cases e with
  | default values => exact (AnnotationWriter.interning_encodeDefault _ _).bind fun _ => .pure _
  | annotated a => exact (DeclaredAnnotations.interning_add _ _).bind fun _ => .pure _
  | parameterAnnotated parameter a =>
    exact (ParameterAnnotations.interning_add _ _ _).bind fun _ => .pure _
  | code => exact .pure _
  | line | sizes => exact interning_onCode (.modify_above _)
  | localVariable name descriptor start stop index =>
    exact interning_onCode (CodeWriter.interning_localVariable _ _ _ _ _ _)
  | handler | instruction | label => exact nomatch he
  | finish => exact absurd rfl hopen

/-- **An event** is one in the code, or one that leaves the code as it is, or the end. -/
theorem returns_event_parts {e : MethodEvent} (he : e ≠ .finish)
    (hret : Returns (m.event c e) p m' p') :
    (m'.code.assembler = m.code.assembler ∧ m'.code.graph = m.code.graph ∧
      m'.code.handlers = m.code.handlers ∧ e.inCode = false) ∨
    (∃ start stop target caught, e = .handler start stop target caught ∧
      Returns (CodeWriter.handler start stop target caught m.code) p ((), m'.code) p') ∨
    (∃ i, e = .instruction i ∧ Returns (CodeWriter.instruction i m.code) p ((), m'.code) p') ∨
    ∃ l, e = .label l ∧ Returns (CodeWriter.label l m.code) p ((), m'.code) p' := by
  cases e with
  | default | annotated | parameterAnnotated =>
    obtain ⟨_, _, -, hdone⟩ := returns_bind.1 hret
    obtain ⟨rfl, -⟩ := returns_pure.1 hdone
    exact .inl ⟨rfl, rfl, rfl, rfl⟩
  | code =>
    obtain ⟨rfl, -⟩ := returns_pure.1 hret
    exact .inl ⟨rfl, rfl, rfl, rfl⟩
  | handler start stop target caught =>
    obtain ⟨code, hrun, rfl⟩ := returns_onCode.1 hret
    exact .inr (.inl ⟨start, stop, target, caught, rfl, hrun⟩)
  | instruction i =>
    obtain ⟨code, hrun, rfl⟩ := returns_onCode.1 hret
    exact .inr (.inr (.inl ⟨i, rfl, hrun⟩))
  | label l =>
    obtain ⟨code, hrun, rfl⟩ := returns_onCode.1 hret
    exact .inr (.inr (.inr ⟨l, rfl, hrun⟩))
  | line | sizes =>
    obtain ⟨code, hrun, rfl⟩ := returns_onCode.1 hret
    obtain ⟨rfl, -⟩ := returns_modify_above.1 hrun
    exact .inl ⟨rfl, rfl, rfl, rfl⟩
  | localVariable name descriptor start stop index =>
    obtain ⟨code, hrun, rfl⟩ := returns_onCode.1 hret
    obtain ⟨i, j, p₁, -, -, rfl⟩ := CodeWriter.returns_localVariable_parts hrun
    exact .inl ⟨rfl, rfl, rfl, rfl⟩
  | finish => exact absurd rfl he

/-- Outside the code, the pool stays sound. -/
theorem returns_event {e : MethodEvent} (he : e ≠ .finish) (hp : p.Sound h)
    (hret : Returns (m.event c e) p m' p') :
    (p'.Sound h ∧ p ≤ p' ∧ m'.code.assembler = m.code.assembler ∧ m'.code.graph = m.code.graph ∧
      m'.code.handlers = m.code.handlers ∧ e.inCode = false) ∨
    (∃ start stop target caught, e = .handler start stop target caught ∧
      Returns (CodeWriter.handler start stop target caught m.code) p ((), m'.code) p') ∨
    (∃ i, e = .instruction i ∧ Returns (CodeWriter.instruction i m.code) p ((), m'.code) p') ∨
    ∃ l, e = .label l ∧ Returns (CodeWriter.label l m.code) p ((), m'.code) p' := by
  refine (returns_event_parts he hret).imp_left fun hparts => ?_
  obtain ⟨hs, hle⟩ := (interning_event hparts.2.2.2 he).leads _ _ _ hret hp
  exact ⟨hs, hle, hparts⟩

theorem kept_event (hm : CodeWriter.Kept h m.code p) {e : MethodEvent} (he : e ≠ .finish)
    (hret : Returns (m.event c e) p m' p') : CodeWriter.Kept h m'.code p' ∧ p ≤ p' := by
  rcases returns_event he hm.sound hret with ⟨hs, hle, -, hgraph, -⟩ | ⟨_, _, _, _, -, hrun⟩ |
    ⟨i, -, hrun⟩ | ⟨l, -, hrun⟩
  · exact hm.later hs hle hgraph
  · exact hm.handler hrun
  · exact hm.instruction hrun
  · exact hm.label hrun

/-- Labels that are placed once, and are used only if they start blocks. -/
theorem tracked_event {done : List Label} (hm : CodeWriter.Tracked h done m.code p) {e : MethodEvent}
    (he : e ≠ .finish) (hplaced : ∀ l, e.placed? = some l → l ∉ done)
    (hused : ∀ l ∈ e.used, l.debug = false) (hret : Returns (m.event c e) p m' p') :
    CodeWriter.Tracked h (e.placed?.toList ++ done) m'.code p' ∧ p ≤ p' := by
  rcases returns_event he hm.sound hret with
    ⟨hs, hle, hassembler, hgraph, hhandlers, hother⟩ | ⟨_, _, _, _, rfl, hrun⟩ | ⟨i, rfl, hrun⟩ |
    ⟨l, rfl, hrun⟩
  · rw [MethodEvent.placed?_eq_none hother]
    exact ⟨(hm.later hs hle).congr hassembler hgraph hhandlers, hle⟩
  · exact hm.handler hused hrun
  · exact hm.instruction hused hrun
  · exact hm.label (hplaced l rfl) hrun

/-- **What the end of a method does**, part by part. -/
theorem returns_finish_parts (hret : Returns (m.finish c) p m' p') :
    ∃ code default annotations parameters p₁ p₂ p₃,
      Returns (m.codeAttribute c) p (code, m'.code) p₁ ∧
      Returns (defaultAttribute m.default) p₁ default p₂ ∧
      Returns m.annotations.attributes p₂ annotations p₃ ∧
      Returns (m.parameterAnnotations.attributes m.header.parameters) p₃ parameters p' ∧
      m'.table = m.table.add m.header.info.access m.header.name m.header.descriptor
        (code ++ m.attributes ++ default ++ annotations ++ parameters) := by
  obtain ⟨⟨attributes, code⟩, p₁, hcode, hret₁⟩ := returns_bind.1 hret
  obtain ⟨default, p₂, hdefault, hret₂⟩ := returns_bind.1 hret₁
  obtain ⟨annotations, p₃, hannotations, hret₃⟩ := returns_bind.1 hret₂
  obtain ⟨parameters, p₄, hparameters, hret₄⟩ := returns_bind.1 hret₃
  obtain ⟨rfl, rfl⟩ := returns_pure.1 hret₄
  exact ⟨attributes, default, annotations, parameters, p₁, p₂, p₃, hcode, hdefault, hannotations,
    hparameters, rfl⟩

/-- The attribute of the code comes first, if there is any. -/
theorem returns_finish (hret : Returns (m.finish c) p m' p') :
    ∃ attributes others p₁, Returns (m.codeAttribute c) p (attributes, m'.code) p₁ ∧
      m'.table = m.table.add m.header.info.access m.header.name m.header.descriptor
        (attributes ++ others) ∧
      (p₁.Sound h → p'.Sound h ∧ p₁ ≤ p') := by
  obtain ⟨attributes, default, annotations, parameters, p₁, p₂, p₃, hcode, hdefault, hannotations,
    hparameters, htable⟩ := returns_finish_parts hret
  refine ⟨attributes, m.attributes ++ default ++ annotations ++ parameters, p₁, hcode, ?_,
    fun hs₁ => ?_⟩
  · simp only [htable, List.append_assoc]
  · obtain ⟨hs₂, hle₂⟩ := (interning_defaultAttribute _).leads _ _ _ hdefault hs₁
    obtain ⟨hs₃, hle₃⟩ := (DeclaredAnnotations.interning_attributes _).leads _ _ _ hannotations hs₂
    obtain ⟨hs₄, hle₄⟩ := (ParameterAnnotations.interning_attributes _ _).leads _ _ _ hparameters hs₃
    exact ⟨hs₄, ConstantPool.le_trans hle₂ (ConstantPool.le_trans hle₃ hle₄)⟩

theorem returns_codeAttribute {attributes : List RawAttribute} {code : CodeWriter}
    (hret : Returns (m.codeAttribute c) p (attributes, code) p') :
    m.hasCode = true ∧ (∃ a, attributes = [a] ∧
      Returns (CodeWriter.finish (context c m.header.info) m.code) p (a, code) p') ∨
    m.hasCode = false ∧ attributes = [] ∧ code = m.code ∧ p' = p := by
  unfold codeAttribute at hret
  cases hhas : m.hasCode with
  | true =>
    rw [hhas, if_pos rfl] at hret
    obtain ⟨⟨a, code'⟩, p₁, hfinish, hdone⟩ := returns_bind.1 hret
    obtain ⟨heq, rfl⟩ := returns_pure.1 hdone
    obtain ⟨rfl, rfl⟩ := Prod.mk.injEq .. ▸ heq
    exact .inl ⟨rfl, a, rfl, hfinish⟩
  | false =>
    rw [hhas, if_neg Bool.false_ne_true] at hret
    obtain ⟨heq, rfl⟩ := returns_pure.1 hret
    obtain ⟨rfl, rfl⟩ := Prod.mk.injEq .. ▸ heq
    exact .inr ⟨rfl, rfl, rfl, rfl⟩

theorem later_finish (hm : CodeWriter.Kept c.hierarchy m.code p)
    (hret : Returns (m.finish c) p m' p') : p'.Sound c.hierarchy ∧ p ≤ p' := by
  obtain ⟨attributes, others, p₁, hcode, -, hrest⟩ := returns_finish (h := c.hierarchy) hret
  have hcode' : p₁.Sound c.hierarchy ∧ p ≤ p₁ := by
    rcases returns_codeAttribute hcode with ⟨-, a, -, hfinish⟩ | ⟨-, -, -, rfl⟩
    · obtain ⟨hs₁, hle, -⟩ := hm.finish (fun _ => rfl) hfinish
      exact ⟨hs₁, hle⟩
    · exact ⟨hm.sound, ConstantPool.le_refl _⟩
  obtain ⟨hs, hle⟩ := hrest hcode'.1
  exact ⟨hs, ConstantPool.le_trans hcode'.2 hle⟩

theorem event_finish (m : MethodWriter) : m.event c .finish = m.finish c := rfl

theorem returns_events_cons {e : MethodEvent} {es : List MethodEvent} :
    Returns (m.events c (e :: es)) p m' p' ↔
      ∃ m₁ p₁, Returns (m.event c e) p m₁ p₁ ∧ Returns (m₁.events c es) p₁ m' p' := by
  unfold events
  rw [List.foldlM_cons]
  exact returns_bind

theorem returns_events_singleton {e : MethodEvent} :
    Returns (m.events c [e]) p m' p' ↔ Returns (m.event c e) p m' p' := by
  refine returns_events_cons.trans ⟨?_, fun hret => ⟨m', p', hret, returns_pure.2 ⟨rfl, rfl⟩⟩⟩
  rintro ⟨m₁, p₁, hret, hnil⟩
  obtain ⟨rfl, rfl⟩ := returns_pure.1 hnil
  exact hret

theorem returns_events_append {es es' : List MethodEvent} :
    Returns (m.events c (es ++ es')) p m' p' ↔
      ∃ m₁ p₁, Returns (m.events c es) p m₁ p₁ ∧ Returns (m₁.events c es') p₁ m' p' := by
  unfold events
  rw [List.foldlM_append]
  exact returns_bind

/-- Nothing comes behind the end of a method. -/
def Closed (es : List MethodEvent) : Prop := .finish ∉ es.dropLast

/-- **Pools only grow while a method is written.** -/
theorem later_events (hm : CodeWriter.Kept c.hierarchy m.code p) {es : List MethodEvent}
    (hes : Closed es) (hret : Returns (m.events c es) p m' p') : p'.Sound c.hierarchy ∧ p ≤ p' := by
  induction es generalizing m p with
  | nil =>
    obtain ⟨rfl, rfl⟩ := returns_pure.1 hret
    exact ⟨hm.sound, ConstantPool.le_refl _⟩
  | cons e es ih =>
    obtain ⟨m₁, p₁, he, hrest⟩ := returns_events_cons.1 hret
    cases es with
    | nil =>
      obtain ⟨rfl, rfl⟩ := returns_pure.1 hrest
      by_cases hfinish : e = .finish
      · exact later_finish hm (hfinish ▸ he)
      · obtain ⟨hm₁, hle⟩ := kept_event hm hfinish he
        exact ⟨hm₁.sound, hle⟩
    | cons e' es =>
      have hopen : e ≠ .finish ∧ Closed (e' :: es) := by
        rw [Closed, List.dropLast_cons_cons, List.mem_cons, not_or] at hes
        exact ⟨Ne.symm hes.1, hes.2⟩
      obtain ⟨hm₁, hle⟩ := kept_event hm hopen.1 he
      obtain ⟨hs, hle'⟩ := ih hm₁ hopen.2 hrest
      exact ⟨hs, ConstantPool.le_trans hle hle'⟩

/-- **What events without an end leave**, if each label is placed once, and debug labels are not
used. -/
theorem tracked_events {done : List Label} (hm : CodeWriter.Tracked h done m.code p)
    {es : List MethodEvent} (hes : .finish ∉ es)
    (hplaced : (es.filterMap MethodEvent.placed?).Nodup)
    (hdone : ∀ l ∈ es.filterMap MethodEvent.placed?, l ∉ done)
    (hused : ∀ e ∈ es, ∀ l ∈ e.used, l.debug = false) (hret : Returns (m.events c es) p m' p') :
    CodeWriter.Tracked h ((es.filterMap MethodEvent.placed?).reverse ++ done) m'.code p' ∧ p ≤ p' := by
  induction es generalizing m p done with
  | nil =>
    obtain ⟨rfl, rfl⟩ := returns_pure.1 hret
    exact ⟨hm, ConstantPool.le_refl _⟩
  | cons e es ih =>
    obtain ⟨m₁, p₁, he, hrest⟩ := returns_events_cons.1 hret
    rw [List.mem_cons, not_or] at hes
    have hfilter : (e :: es).filterMap MethodEvent.placed? =
        e.placed?.toList ++ es.filterMap MethodEvent.placed? := by
      rw [List.filterMap_cons]
      cases e.placed? <;> rfl
    have hreverse : e.placed?.toList.reverse = e.placed?.toList := by
      cases e.placed? <;> rfl
    rw [hfilter] at hplaced hdone
    rw [hfilter, List.reverse_append, hreverse, List.append_assoc]
    obtain ⟨-, hnodup, hapart⟩ := List.nodup_append.1 hplaced
    obtain ⟨hm₁, hle⟩ := tracked_event hm (Ne.symm hes.1)
      (fun l hl => hdone l (List.mem_append_left _ (Option.mem_toList.2 hl)))
      (hused e List.mem_cons_self) he
    have hrest_done : ∀ l ∈ es.filterMap MethodEvent.placed?, l ∉ e.placed?.toList ++ done := by
      intro l hl hmem
      rcases List.mem_append.1 hmem with hmem | hmem
      · exact hapart l hmem l hl rfl
      · exact hdone l (List.mem_append_right _ hl) hmem
    obtain ⟨hm', hle'⟩ := ih hm₁ hes.2 hnodup hrest_done
      (fun e' he' => hused e' (List.mem_cons_of_mem _ he')) hrest
    exact ⟨hm', ConstantPool.le_trans hle hle'⟩

/-- Only the code and what is kept for the end changes. -/
theorem header_events {es : List MethodEvent} (hes : .finish ∉ es)
    (hret : Returns (m.events c es) p m' p') :
    m'.header = m.header ∧ m'.table = m.table ∧
      (m'.hasCode = true ↔ m.hasCode = true ∨ .code ∈ es) := by
  have hone : ∀ {e : MethodEvent} {m m' : MethodWriter} {p p' : ConstantPool}, e ≠ .finish →
      Returns (m.event c e) p m' p' → m'.header = m.header ∧ m'.table = m.table ∧
        (m'.hasCode = true ↔ m.hasCode = true ∨ .code = e) := by
    intro e m m' p p' he hret
    cases e
    case finish => exact absurd rfl he
    case code =>
      obtain ⟨rfl, rfl⟩ := returns_pure.1 hret
      exact ⟨rfl, rfl, iff_of_true rfl (.inr rfl)⟩
    case default | annotated | parameterAnnotated =>
      obtain ⟨_, _, -, hdone⟩ := returns_bind.1 hret
      obtain ⟨rfl, rfl⟩ := returns_pure.1 hdone
      exact ⟨rfl, rfl, ⟨.inl, fun h => h.resolve_right fun h => nomatch h⟩⟩
    all_goals
      obtain ⟨_, -, rfl⟩ := returns_onCode.1 hret
      exact ⟨rfl, rfl, ⟨.inl, fun h => h.resolve_right fun h => nomatch h⟩⟩
  induction es generalizing m p with
  | nil =>
    obtain ⟨rfl, rfl⟩ := returns_pure.1 hret
    exact ⟨rfl, rfl, ⟨.inl, fun h => h.resolve_right List.not_mem_nil⟩⟩
  | cons e es ih =>
    obtain ⟨m₁, p₁, he, hrest⟩ := returns_events_cons.1 hret
    rw [List.mem_cons, not_or] at hes
    obtain ⟨hheader, htable, hcode⟩ := hone (Ne.symm hes.1) he
    obtain ⟨hheader', htable', hcode'⟩ := ih hes.2 hrest
    refine ⟨hheader'.trans hheader, htable'.trans htable, ?_⟩
    rw [hcode', hcode, List.mem_cons, or_assoc]

end MethodWriter

/-! ## 3. Names of attributes -/

/-- The attributes have names in the pool, which are some of a list, in the order of the list. -/
def ConstantPool.Called (p : ConstantPool) (names : List String) (as : List RawAttribute) : Prop :=
  ∃ found, List.Forall₂ (fun name a => p.text? a.name = some name) found as ∧ found.Sublist names

namespace ConstantPool.Called

variable {names names' : List String} {as as' : List RawAttribute} {name : String} {a : RawAttribute}

theorem nil : p.Called names [] := ⟨[], .nil, List.nil_sublist _⟩

theorem singleton (ha : p.text? a.name = some name) : p.Called [name] [a] :=
  ⟨[name], .cons ha .nil, List.Sublist.refl _⟩

theorem later (has : p.Called names as) (hle : p ≤ p') : p'.Called names as :=
  have ⟨found, hfound, hsublist⟩ := has
  ⟨found, hfound.imp fun _ _ ha => text?_later hle ha, hsublist⟩

theorem append (has : p.Called names as) (has' : p.Called names' as') :
    p.Called (names ++ names') (as ++ as') :=
  have ⟨found, hfound, hsublist⟩ := has
  have ⟨found', hfound', hsublist'⟩ := has'
  ⟨found ++ found', List.rel_append hfound hfound', hsublist.append hsublist'⟩

theorem length_le (has : p.Called names as) : as.length ≤ names.length :=
  have ⟨_, hfound, hsublist⟩ := has
  hfound.length_eq ▸ hsublist.length_le

end ConstantPool.Called

theorem ConstantPool.Sound.named (hp : p.Sound h) {a : Attribute} {r : RawAttribute}
    (hret : Returns (named a) p r p') : p'.Sound h ∧ p ≤ p' ∧ p'.text? r.name = some a.name := by
  obtain ⟨i, p₁, hi, hret⟩ := returns_bind.1 hret
  obtain ⟨rfl, rfl⟩ := returns_pure.1 hret
  exact hp.utf8 hi

theorem called_constantAttribute {α : Type} {constant : α → PoolM ConstantIndex}
    (hc : ∀ v, Leads (Later h) (constant v)) {content : ConstantIndex → Attribute} {name : String}
    (hname : ∀ i, (content i).name = name) {value : Option α} (hp : p.Sound h)
    {as : List RawAttribute} (hret : Returns (constantAttribute constant content value) p as p') :
    p'.Called [name] as := by
  cases value with
  | none =>
    obtain ⟨rfl, rfl⟩ := returns_pure.1 hret
    exact .nil
  | some v =>
    obtain ⟨i, p₁, hi, hret⟩ := returns_bind.1 hret
    obtain ⟨a, p₂, ha, hret⟩ := returns_bind.1 hret
    obtain ⟨rfl, rfl⟩ := returns_pure.1 hret
    obtain ⟨hs₁, -⟩ := hc v _ _ _ hi hp
    obtain ⟨-, -, htext⟩ := hs₁.named ha
    exact .singleton (hname i ▸ htext)

theorem called_deprecatedAttribute {deprecated : Bool} (hp : p.Sound h) {as : List RawAttribute}
    (hret : Returns (deprecatedAttribute deprecated) p as p') : p'.Called ["Deprecated"] as := by
  cases deprecated with
  | false =>
    obtain ⟨rfl, rfl⟩ := returns_pure.1 hret
    exact .nil
  | true =>
    obtain ⟨i, p₁, hi, hret⟩ := returns_bind.1 hret
    obtain ⟨rfl, rfl⟩ := returns_pure.1 hret
    exact .singleton (hp.utf8 hi).2.2

theorem AnnotationSet.called_attribute? {s : AnnotationSet} {name : String} (hp : p.Sound h)
    {a : Option RawAttribute} (hret : Returns (s.attribute? name) p a p') :
    p'.Called [name] a.toList := by
  unfold attribute? at hret
  split at hret
  · obtain ⟨rfl, rfl⟩ := returns_pure.1 hret
    exact .nil
  · obtain ⟨i, p₁, hi, hret⟩ := returns_bind.1 hret
    obtain ⟨rfl, rfl⟩ := returns_pure.1 hret
    exact .singleton (hp.utf8 hi).2.2

namespace DeclaredAnnotations

theorem called_attributes {d : DeclaredAnnotations} (hp : p.Sound h) {as : List RawAttribute}
    (hret : Returns d.attributes p as p') :
    p'.Called ["RuntimeVisibleAnnotations", "RuntimeInvisibleAnnotations"] as := by
  obtain ⟨visible, p₁, hvisible, hret⟩ := returns_bind.1 hret
  obtain ⟨invisible, p₂, hinvisible, hret⟩ := returns_bind.1 hret
  obtain ⟨rfl, rfl⟩ := returns_pure.1 hret
  obtain ⟨hs₁, -⟩ := (AnnotationSet.interning_attribute? _ _).leads _ _ _ hvisible hp
  obtain ⟨-, hle₂⟩ := (AnnotationSet.interning_attribute? _ _).leads _ _ _ hinvisible hs₁
  exact ((AnnotationSet.called_attribute? hp hvisible).later hle₂).append
    (AnnotationSet.called_attribute? hs₁ hinvisible)

end DeclaredAnnotations

namespace MethodWriter

variable {m m' : MethodWriter} {c : ClassContext}

theorem called_exceptionsAttribute {exceptions : List String} (hp : p.Sound h)
    {as : List RawAttribute} (hret : Returns (exceptionsAttribute exceptions) p as p') :
    p'.Called ["Exceptions"] as := by
  unfold exceptionsAttribute at hret
  split at hret
  · obtain ⟨rfl, rfl⟩ := returns_pure.1 hret
    exact .nil
  · obtain ⟨classes, p₁, hclasses, hret⟩ := returns_bind.1 hret
    obtain ⟨a, p₂, ha, hret⟩ := returns_bind.1 hret
    obtain ⟨rfl, rfl⟩ := returns_pure.1 hret
    obtain ⟨hs₁, -⟩ := Leads.mapM ConstantPool.leads_classRef _ _ _ _ hclasses hp
    exact .singleton (hs₁.named ha).2.2

theorem called_defaultAttribute {default : Option Bytes} (hp : p.Sound h) {as : List RawAttribute}
    (hret : Returns (defaultAttribute default) p as p') : p'.Called ["AnnotationDefault"] as := by
  cases default with
  | none =>
    obtain ⟨rfl, rfl⟩ := returns_pure.1 hret
    exact .nil
  | some payload =>
    obtain ⟨i, p₁, hi, hret⟩ := returns_bind.1 hret
    obtain ⟨rfl, rfl⟩ := returns_pure.1 hret
    exact .singleton (hp.utf8 hi).2.2

theorem called_codeAttribute (hm : CodeWriter.Kept c.hierarchy m.code p) {as : List RawAttribute}
    {code : CodeWriter} (hret : Returns (m.codeAttribute c) p (as, code) p') :
    p'.Sound c.hierarchy ∧ p ≤ p' ∧ p'.Called ["Code"] as := by
  rcases returns_codeAttribute hret with ⟨-, a, rfl, hfinish⟩ | ⟨-, rfl, -, rfl⟩
  · obtain ⟨hs, hle, hname⟩ := hm.finish (fun _ => rfl) hfinish
    exact ⟨hs, hle, .singleton hname⟩
  · exact ⟨hm.sound, ConstantPool.le_refl _, .nil⟩

/-- The names of the attributes of a declaration. -/
def declarationNames : List String := ["Exceptions", "Signature", "Deprecated"]

/-- **A method that has started**: the attributes of its declaration, and the number of its
parameters. -/
theorem called_start (hp : p.Sound h) {mode : ComputeMode} {info : MethodInfo} {table : MemberTable}
    (hret : Returns (start mode info table) p m p') : p'.Called declarationNames m.attributes ∧
      m.parameterAnnotations = .empty ∧ ∃ type, Descriptor.methodType info.descriptor = .ok type ∧
        m.header.parameters = type.parameters.length := by
  obtain ⟨type, p₁, hlift, hret₁⟩ := returns_bind.1 hret
  obtain ⟨htype, rfl⟩ := returns_lift.1 hlift
  obtain ⟨name, p₂, hname, hret₂⟩ := returns_bind.1 hret₁
  obtain ⟨descriptor, p₃, hdescriptor, hret₃⟩ := returns_bind.1 hret₂
  obtain ⟨exceptions, p₄, hexceptions, hret₄⟩ := returns_bind.1 hret₃
  obtain ⟨signature, p₅, hsignature, hret₅⟩ := returns_bind.1 hret₄
  obtain ⟨deprecated, p₆, hdeprecated, hret₆⟩ := returns_bind.1 hret₅
  obtain ⟨rfl, rfl⟩ := returns_pure.1 hret₆
  obtain ⟨hs₂, -⟩ := hp.utf8 hname
  obtain ⟨hs₃, -⟩ := hs₂.utf8 hdescriptor
  obtain ⟨hs₄, -⟩ := (interning_exceptionsAttribute _).leads _ _ _ hexceptions hs₃
  obtain ⟨hs₅, hle₅⟩ :=
    (interning_constantAttribute ConstantPool.interning_utf8 _ _).leads _ _ _ hsignature hs₄
  obtain ⟨-, hle₆⟩ := (interning_deprecatedAttribute _).leads _ _ _ hdeprecated hs₅
  refine ⟨?_, rfl, type, htype, rfl⟩
  have hname : ∀ i, (Attribute.signature i).name = "Signature" := fun _ => rfl
  have hfirst := called_exceptionsAttribute hs₃ hexceptions
  have hsecond := called_constantAttribute ConstantPool.leads_utf8 hname hs₄ hsignature
  exact (((hfirst.later hle₅).append hsecond).later hle₆).append
    (called_deprecatedAttribute hs₅ hdeprecated)

/-- The names of the attributes of a method that are in front of those of its parameters. -/
def frontNames : List String :=
  ["Code"] ++ declarationNames ++ ["AnnotationDefault"] ++
    ["RuntimeVisibleAnnotations", "RuntimeInvisibleAnnotations"]

/-- **The attributes of a method that ends**: those of its parameters are behind all others. -/
theorem called_finish (hm : CodeWriter.Kept c.hierarchy m.code p)
    (hattributes : p.Called declarationNames m.attributes) (hret : Returns (m.finish c) p m' p') :
    ∃ front parameters p₁, p₁.Sound c.hierarchy ∧ p ≤ p₁ ∧ p₁.Called frontNames front ∧
      Returns (m.parameterAnnotations.attributes m.header.parameters) p₁ parameters p' ∧
      m'.table = m.table.add m.header.info.access m.header.name m.header.descriptor
        (front ++ parameters) := by
  obtain ⟨code, default, annotations, parameters, p₁, p₂, p₃, hcode, hdefault, hannotations,
    hparameters, htable⟩ := returns_finish_parts hret
  obtain ⟨hs₁, hle₁, hcode⟩ := called_codeAttribute hm hcode
  obtain ⟨hs₂, hle₂⟩ := (interning_defaultAttribute _).leads _ _ _ hdefault hs₁
  obtain ⟨hs₃, hle₃⟩ := (DeclaredAnnotations.interning_attributes _).leads _ _ _ hannotations hs₂
  have hfront := ((((hcode.append (hattributes.later hle₁)).later hle₂).append
    (called_defaultAttribute hs₁ hdefault)).later hle₃).append
      (DeclaredAnnotations.called_attributes hs₂ hannotations)
  exact ⟨_, parameters, p₃, hs₃, ConstantPool.le_trans hle₁ (ConstantPool.le_trans hle₂ hle₃), hfront,
    hparameters, htable⟩

end MethodWriter

end ClassFile
