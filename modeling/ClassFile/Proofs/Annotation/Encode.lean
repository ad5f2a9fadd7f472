/-
# Annotations and the constant pool

Annotations add the constants that they need, and do nothing else to the pool: `interning_encode` for
one that is written event by event, and `interning_attribute?` for the attribute of a set.
-/
import ClassFile.Annotation.Encode
import ClassFile.Proofs.ConstantPool.Interning

namespace ClassFile

variable {h : Hierarchy}

/-! ## 1. Values -/

namespace ElementValue

theorem interning_putTagged (tag : Char) (index : ConstantIndex) (b : Bytes) :
    Interning (putTagged tag index b) := .modify_above _

theorem interning_putLiteral (tag : Char) {constant : PoolM ConstantIndex}
    (hc : Interning constant) (b : Bytes) : Interning (putLiteral tag constant b) :=
  .bind_above (.lift_above hc) fun i b => interning_putTagged tag i b

theorem interning_putEnum (descriptor value : String) (b : Bytes) :
    Interning (putEnum descriptor value b) :=
  .bind_above (.lift_above (ConstantPool.interning_utf8 _)) fun _ _ =>
    .bind_above (.lift_above (ConstantPool.interning_utf8 _)) fun _ _ => .modify_above _

theorem interning_reserve (b : Bytes) : Interning (reserve b) := .pure _

mutual

/-- A value, and those in it. -/
theorem interning_putValue : ∀ (value : ElementValue) (b : Bytes), Interning (putValue value b)
  | .boolean _, b | .byte _, b | .char _, b | .short _, b | .int _, b | .long _, b | .float _, b
  | .double _, b => interning_putLiteral _ (.intern _) b
  | .string _, b | .classLiteral _, b => interning_putLiteral _ (ConstantPool.interning_utf8 _) b
  | .enumConstant descriptor value, b => interning_putEnum descriptor value b
  | .nested _ values, _ =>
    .bind_above (.lift_above (ConstantPool.interning_utf8 _)) fun _ _ =>
      .bind_above (interning_putTagged _ _ _) fun _ _ =>
      .bind_above (interning_reserve _) fun _ _ =>
      .bind_above (interning_putPairs 0 values _) fun _ _ => .modify_above _
  | .array values, _ =>
    .bind_above (.modify_above _) fun _ _ =>
      .bind_above (interning_reserve _) fun _ _ =>
      .bind_above (interning_putEntries 0 values _) fun _ _ => .modify_above _

theorem interning_putPairs : ∀ (count : UInt16) (values : List (String × ElementValue)) (b : Bytes),
    Interning (putPairs count values b)
  | _, [], _ => .pure_above _
  | count, (_, value) :: values, _ =>
    .bind_above (.lift_above (ConstantPool.interning_utf8 _)) fun _ _ =>
      .bind_above (.modify_above _) fun _ _ =>
      .bind_above (interning_putValue value _) fun _ _ => interning_putPairs (count + 1) values _

theorem interning_putEntries : ∀ (count : UInt16) (values : List ElementValue) (b : Bytes),
    Interning (putEntries count values b)
  | _, [], _ => .pure_above _
  | count, value :: values, _ =>
    .bind_above (interning_putValue value _) fun _ _ => interning_putEntries (count + 1) values _

end

end ElementValue

/-! ## 2. Events -/

namespace AnnotationWriter

open ElementValue

theorem interning_putName (name : Option String) (level : AnnotationLevel) (b : Bytes) :
    Interning (putName name level b) := by
  cases level with
  | bare => exact .pure_above _
  | counted named count place =>
    unfold putName
    cases named with
    | true =>
      exact .bind_above (.lift_above (ConstantPool.interning_utf8 _)) fun _ _ =>
        .bind_above (.modify_above _) fun _ _ => .pure_above _
    | false => exact .pure_above _

theorem interning_putWhole (value : ElementValue) (level : AnnotationLevel) (b : Bytes) :
    Interning (putWhole value level b) := by
  cases level with
  | counted named count place => exact interning_putValue value b
  | bare =>
    refine .bind_above (.lift_above ?_) fun _ _ => .modify_above _
    exact .bind_above (interning_reserve _) fun _ _ => interning_putValue value _

theorem interning_begin (named : Bool) (levels : List AnnotationLevel) (b : Bytes) :
    Interning (AnnotationWriter.begin named levels b) :=
  .bind_above (interning_reserve _) fun _ _ => .pure_above _

theorem interning_event (levels : List AnnotationLevel) (e : AnnotationEvent) (b : Bytes) :
    Interning (event levels e b) := by
  cases levels with
  | nil => exact .pure_above _
  | cons level outer =>
    cases e with
    | value name value =>
      exact .bind_above (interning_putName _ _ _) fun _ _ =>
        .bind_above (interning_putWhole _ _ _) fun _ _ => .pure_above _
    | enumConstant name descriptor value =>
      exact .bind_above (interning_putName _ _ _) fun _ _ =>
        .bind_above (interning_putEnum _ _ _) fun _ _ => .pure_above _
    | beginNested name descriptor =>
      exact .bind_above (interning_putName _ _ _) fun _ _ =>
        .bind_above (.lift_above (ConstantPool.interning_utf8 _)) fun _ _ =>
        .bind_above (interning_putTagged _ _ _) fun _ _ => interning_begin _ _ _
    | beginArray name =>
      exact .bind_above (interning_putName _ _ _) fun _ _ =>
        .bind_above (.modify_above _) fun _ _ => interning_begin _ _ _
    | finish =>
      cases level with
      | bare => exact .pure_above _
      | counted named count place => exact .bind_above (.modify_above _) fun _ _ => .pure_above _

theorem interning_all (levels : List AnnotationLevel) (es : List AnnotationEvent) (b : Bytes) :
    Interning (all levels es b) := by
  induction es generalizing levels b with
  | nil => exact .pure_above _
  | cons e es ih => exact .bind_above (interning_event _ _ _) fun levels b => ih levels b

theorem interning_encode (descriptor : String) (es : List AnnotationEvent) :
    Interning (encode descriptor es) := by
  refine .bind ?_ fun _ => .pure _
  exact .bind_above (.lift_above (ConstantPool.interning_utf8 _)) fun _ _ =>
    .bind_above (.modify_above _) fun _ _ =>
    .bind_above (interning_begin _ _ _) fun levels b => interning_all levels es b

theorem interning_encodeDefault (b : Bytes) (es : List AnnotationEvent) :
    Interning (encodeDefault b es) :=
  .bind (interning_all _ es b) fun _ => .pure _

theorem leads_encodeDefault (b : Bytes) (es : List AnnotationEvent) :
    Leads (ConstantPool.Later h) (encodeDefault b es) :=
  (interning_encodeDefault b es).leads

end AnnotationWriter

/-! ## 3. Sets -/

namespace AnnotationSet

theorem interning_add (s : AnnotationSet) (descriptor : String) (es : List AnnotationEvent) :
    Interning (s.add descriptor es) :=
  .bind (AnnotationWriter.interning_encode _ _) fun _ => .pure _

theorem leads_add (s : AnnotationSet) (descriptor : String) (es : List AnnotationEvent) :
    Leads (ConstantPool.Later h) (s.add descriptor es) :=
  (s.interning_add descriptor es).leads

theorem interning_attribute? (s : AnnotationSet) (name : String) :
    Interning (s.attribute? name) := by
  unfold attribute?
  split
  · exact .pure _
  · exact (ConstantPool.interning_utf8 _).bind fun _ => .pure _

theorem interning_parametersAttribute? (sets : Array AnnotationSet) (parameters : Nat)
    (name : String) : Interning (parametersAttribute? sets parameters name) := by
  unfold parametersAttribute?
  split
  · exact .pure _
  · exact (ConstantPool.interning_utf8 _).bind fun _ => .pure _

end AnnotationSet

end ClassFile
