/-
# What is added to a pool while a class is written

Whatever the events of a class are, its pool is asked for records and for numbers of bootstrap methods, and
something is done to its types; nothing else happens to it.  A relation between pools that holds behind each
of these (`Additive`) holds behind every event of a method and of a class, and behind putting the class
together (`ClassWriter.leads_event`, `ClassWriter.leads_bytes`).

So the numbers of the bootstrap table are right at any time (`ClassWriter.Run.ordered`), and the pool of the
class file carries what that of a method had (`ClassWriter.carried_class`).
-/
import ClassFile.Proofs.ClassWriter
import ClassFile.Proofs.ConstantPool.Carried
import ClassFile.Proofs.Code.Modes
import ClassFile.Proofs.StackMap.Made

namespace ClassFile

open ConstantPool (Later Numbering)

variable {h : Hierarchy} {p p' p'' : ConstantPool}

/-! ## 1. Code -/

/-- The relation holds behind whatever is asked of a pool or done to its types. -/
structure ConstantPool.Additive (R : ConstantPool → ConstantPool → Prop) : Prop where
  asked : ∀ {α : Type} {m : PoolM α}, Interning m → Leads R m
  types : ∀ {α : Type} (f : TypeM α), Leads R (ConstantPool.onTypes f)

section Additive

variable {R : ConstantPool → ConstantPool → Prop} [IsPreorder ConstantPool R]
  (hR : ConstantPool.Additive R)

include hR

namespace CodeWriter

theorem leads_onGraph {α : Type} (f : GraphM α) (w : CodeWriter) : Leads R (onGraph f w) :=
  (hR.types _).bind fun _ => .pure _

theorem leads_onAssembler {α : Type} {f : AssembleM α} {w : CodeWriter}
    (hf : Interning (f w.assembler)) : Leads R (onAssembler f w) :=
  (hR.asked hf).bind fun _ => .pure _

theorem leads_instruction (i : Instruction Label) (w : CodeWriter) : Leads R (instruction i w) := by
  refine Leads.get_above.bind_above fun start w₁ => ?_
  refine (leads_onAssembler hR (Assembler.interning_encode i _)).bind_above fun around w₂ => ?_
  refine (Leads.modify_above _).bind_above fun _ w₃ => Leads.get_above.bind_above fun stop w₄ => ?_
  refine (leads_onGraph hR _ _).bind_above fun _ w₅ => Leads.get_above.bind_above fun w w₆ => ?_
  split
  · exact leads_onGraph hR _ _
  · exact Leads.pure _

theorem leads_label (l : Label) (w : CodeWriter) : Leads R (label l w) := by
  refine Leads.get_above.bind_above fun position w₁ => ?_
  refine (leads_onAssembler hR ?_).bind_above fun _ w₂ => ?_
  · exact (Interning.lift _).bind fun _ => .pure _
  split
  · exact Leads.pure _
  · exact leads_onGraph hR _ _

theorem leads_handler (start stop target : Label) (caught : Option String) (w : CodeWriter) :
    Leads R (handler start stop target caught w) := by
  have hrest : ∀ index w, Leads R ((do
      modify fun w => { w with handlers := w.handlers.push ⟨start, stop, target, index⟩ }
      onGraph (modify (BlockGraph.addHandler ⟨start, stop, target, caught⟩)) : CodeM Unit) w) :=
    fun _ _ => (Leads.modify_above _).bind_above fun _ _ => leads_onGraph hR _ _
  cases caught with
  | none => exact Leads.bind_above (Leads.pure _) hrest
  | some name =>
    refine Leads.bind_above ?_ hrest
    exact Leads.bind (hR.asked (ConstantPool.interning_classRef name)).lift_above fun _ => .pure _

theorem leads_analyse (context : MethodContext) (w : CodeWriter) : Leads R (analyse context w) := by
  refine Leads.get_above.bind_above fun w₁ w₂ => ?_
  cases w₁.graph.mode with
  | frames =>
    refine (leads_onGraph hR _ _).bind_above fun _ w₃ => Leads.get_above.bind_above fun _ w₄ => ?_
    refine Leads.bind_above (Leads.lift_above ?_) fun _ _ => .pure _
    exact BlockGraph.leads_stackMap (fun name => hR.asked (ConstantPool.interning_classRef name))
      (fun i => hR.types _) _ _
  | maxStack =>
    exact (leads_onGraph hR _ _).bind_above fun _ w₃ => Leads.get_above.bind_above fun _ w₄ => .pure _

theorem leads_finish (context : UInt16 → MethodContext) (w : CodeWriter) :
    Leads R (finish context w) := by
  rintro p ⟨code, w'⟩ p' hret
  obtain ⟨-, maxStack, frames, handlers, lineEntries, localEntries, lines, locals, map, p₁, p₂, p₃,
    p₄, hanalyse, -, -, -, hlines, hlocals, hmap, hname, -⟩ := returns_finish hret
  have htables : R p₁ p₄ := trans_of R (hR.asked (interning_table _ _) _ _ _ hlines)
    (trans_of R (hR.asked (interning_table _ _) _ _ _ hlocals)
      (hR.asked (interning_table _ _) _ _ _ hmap))
  exact trans_of R (leads_analyse hR _ _ _ _ _ hanalyse)
    (trans_of R htables (hR.asked (ConstantPool.interning_utf8 _) _ _ _ hname))

end CodeWriter

/-! ## 2. Methods and classes -/

namespace MethodWriter

variable {c : ClassContext}

theorem leads_finish (m : MethodWriter) : Leads R (m.finish c) := by
  refine Leads.bind ?_ fun _ => (hR.asked (interning_defaultAttribute _)).bind fun _ =>
    (hR.asked (DeclaredAnnotations.interning_attributes _)).bind fun _ =>
    (hR.asked (ParameterAnnotations.interning_attributes _ _)).bind fun _ => .pure _
  unfold codeAttribute
  split
  · exact (CodeWriter.leads_finish hR _ _).bind fun _ => .pure _
  · exact .pure _

theorem leads_event (e : MethodEvent) (m : MethodWriter) : Leads R (m.event c e) := by
  cases e with
  | handler start stop target caught =>
    exact (CodeWriter.leads_handler hR start stop target caught _).bind fun _ => .pure _
  | instruction i => exact (CodeWriter.leads_instruction hR i _).bind fun _ => .pure _
  | label l => exact (CodeWriter.leads_label hR l _).bind fun _ => .pure _
  | finish => exact leads_finish hR m
  | _ => exact hR.asked (interning_event rfl nofun)

theorem leads_events (es : List MethodEvent) (m : MethodWriter) : Leads R (m.events c es) :=
  Leads.foldlM (fun m e => leads_event hR e m) es m

end MethodWriter

namespace ClassWriter

/-- **Behind an event of a class.** -/
theorem leads_event (e : ClassEvent) (w : ClassWriter) : Leads R (w.event e) := by
  cases e with
  | header => exact (hR.asked (ClassHeader.interning_of _ _ _ _)).bind fun _ => .pure _
  | annotated => exact (hR.asked (DeclaredAnnotations.interning_add _ _)).bind fun _ => .pure _
  | innerClass => exact (hR.asked (InnerClassTable.interning_add _ _)).bind fun _ => .pure _
  | field info es => exact hR.asked (interning_field info es w)
  | method info es =>
    refine Leads.bind (fun p mw p' hstart => ?_) fun _ => (MethodWriter.leads_events hR es _).bind
      fun _ => .pure _
    exact hR.asked (MethodWriter.interning_start _ _ _) _ _ _ (returns_startMethod.1 hstart).1
  | finish => exact .pure _

end ClassWriter

end Additive

/-! ## 3. Pools in order -/

namespace ConstantPool

theorem additive_numbering : Additive Numbering where
  asked hm := hm.leads_of numbering_intern numbering_internBootstrap
  types := numbering_onTypes

end ConstantPool

namespace MethodWriter

variable {c : ClassContext} {m m' : MethodWriter} {es : List MethodEvent}

/-- **The pool stays in order while a method is written**, and carries what it had. -/
theorem ordered_events (hm : CodeWriter.Kept c.hierarchy m.code p) (hp : p.bootstrap.Numbered)
    (hes : Closed es) (hret : Returns (m.events c es) p m' p') :
    p'.Ordered c.hierarchy ∧ p.Carried p' := by
  obtain ⟨hs, hle⟩ := later_events hm hes hret
  obtain ⟨hb, hleb⟩ := leads_events ConstantPool.additive_numbering es m _ _ _ hret hp
  exact ⟨⟨hs, hb⟩, ConstantPool.carried_of_le hle hleb⟩

end MethodWriter

namespace ClassWriter

open ConstantPool (additive_numbering)

variable {options : WriterOptions} {w w' : ClassWriter}

/-- **At any time the pool is in order.** -/
theorem Run.ordered (hrun : Run options w p) : p.Ordered options.hierarchy := by
  refine ⟨hrun.sound.1, ?_⟩
  induction hrun with
  | fresh => exact BootstrapTable.numbered_empty
  | copied hcopy => exact ConstantPool.numbered_copyOf hcopy
  | event _ _ hret ih => exact (leads_event additive_numbering _ _ _ _ _ hret ih).1

/-- **The pool of the class file carries what that at any time has**, and is in order. -/
theorem carried_class (hp : p.Ordered w.options.hierarchy) {es : List ClassEvent}
    (hes : ∀ e ∈ es, e.Closed) {b : Bytes}
    (hret : Returns (do (← es.foldlM event w).bytes) p b p') :
    p'.Ordered w.options.hierarchy ∧ p.Carried p' := by
  obtain ⟨hs, hle⟩ := later_class hp.sound hes hret
  have hall : Leads Numbering (do (← es.foldlM event w).bytes) :=
    (Leads.foldlM (fun w e => leads_event additive_numbering e w) es w).bind
      fun w => leads_bytes additive_numbering.asked w
  obtain ⟨hb, hleb⟩ := hall _ _ _ hret hp.numbered
  exact ⟨⟨hs, hb⟩, ConstantPool.carried_of_le hle hleb⟩

end ClassWriter

end ClassFile
