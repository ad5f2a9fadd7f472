/-
# Errors that are not about the layout of code

Three errors are about where code lies: a jump leads too far, a label has no place, or the code is too
long (`Error.Layout`).  All others are about what a class says (`Error.Content`).

The operations on a constant pool and the writing of annotations know nothing of code, so their errors
are of content.  Some of them fail only if the pool is full (`ConstantPool.overflows_intern`).
-/
import ClassFile.Annotation.Encode
import ClassFile.Descriptor.WellFormed
import ClassFile.Proofs.Stateful

namespace ClassFile

/-! ## 1. Kinds of errors -/

/-- The errors about where code lies. -/
def Error.Layout : Error → Prop
  | .jumpOffsetOverflow .. | .unresolvedLabel _ | .methodCodeOverflow _ => True
  | _ => False

/-- The errors about anything else. -/
def Error.Content (e : Error) : Prop := ¬ e.Layout

theorem Error.Layout.not_content {e : Error} (h : e.Layout) : ¬ e.Content := not_not_intro h

/-- Whatever is wrong with a descriptor, it is not about code. -/
theorem Descriptor.content_orMalformed {α : Type} {descriptor : String}
    {parsed : Except DescriptorError α} {e : Error} (h : orMalformed descriptor parsed = .error e) :
    e.Content := by
  cases parsed <;> cases h
  exact id

/-! ## 2. Constants -/

namespace ConstantPool

/-- Interning fails only if the pool is full. -/
theorem overflows_intern {E : Error → Prop} (hE : ∀ c n, E (.constantPoolOverflow c n)) (c : Constant) :
    Raises E (intern c) := by
  refine Raises.get.bind fun p => ?_
  cases p.lookup.get? c with
  | some index => exact .pure index
  | none =>
    refine Raises.bind ?_ fun index => Raises.bind (.modifyGet _) fun _ => .pure index
    rintro ⟨records, lookup, bootstrap, types⟩ e p' h
    unfold Fails push at h
    dsimp only at h
    split at h
    · cases h
      exact hE _ _
    · cases h

theorem overflows_classRef {E : Error → Prop} (hE : ∀ c n, E (.constantPoolOverflow c n))
    (name : String) : Raises E (classRef name) :=
  (overflows_intern hE _).bind fun _ => overflows_intern hE _

theorem raises_intern (c : Constant) : Raises Error.Content (intern c) :=
  overflows_intern (fun _ _ => id) c

theorem raises_utf8 (text : String) : Raises Error.Content (utf8 text) := raises_intern _

theorem raises_classRef (name : String) : Raises Error.Content (classRef name) :=
  overflows_classRef (fun _ _ => id) name

/-- Constants that are made of others: each of the records may be the one that the pool has no room
for. -/
theorem raises_nameAndType (name descriptor : String) :
    Raises Error.Content (nameAndType name descriptor) :=
  (raises_utf8 name).bind fun _ => (raises_utf8 descriptor).bind fun _ => raises_intern _

theorem raises_fieldRef (owner name descriptor : String) :
    Raises Error.Content (fieldRef owner name descriptor) :=
  (raises_classRef owner).bind fun _ => (raises_nameAndType name descriptor).bind fun _ =>
    raises_intern _

theorem raises_methodRef (owner name descriptor : String) (interface : Bool) :
    Raises Error.Content (methodRef owner name descriptor interface) :=
  (raises_classRef owner).bind fun _ => (raises_nameAndType name descriptor).bind fun _ =>
    raises_intern _

theorem raises_methodHandle (handle : MethodHandle) : Raises Error.Content (methodHandle handle) := by
  unfold methodHandle
  split
  · exact (raises_fieldRef _ _ _).bind fun _ => raises_intern _
  · exact (raises_methodRef _ _ _ _).bind fun _ => raises_intern _

/-- A call site of a bootstrap method that is not there is wrong, and this has nothing to do with
where code lies. -/
theorem raises_checkBootstrap (index : UInt16) : Raises Error.Content (checkBootstrap index) := by
  refine Raises.get.bind fun p => ?_
  split
  · exact .pure _
  · exact .throw id

theorem raises_dynamic (name descriptor : String) (bootstrap : UInt16) :
    Raises Error.Content (dynamic name descriptor bootstrap) :=
  (raises_checkBootstrap bootstrap).bind fun _ => (raises_nameAndType name descriptor).bind fun _ =>
    raises_intern _

theorem raises_invokeDynamic (name descriptor : String) (bootstrap : UInt16) :
    Raises Error.Content (invokeDynamic name descriptor bootstrap) :=
  (raises_checkBootstrap bootstrap).bind fun _ => (raises_nameAndType name descriptor).bind fun _ =>
    raises_intern _

mutual

/-- Loadable constants and the lists of arguments that they contain, along the recursion of
`loadable`. -/
theorem raises_loadable : ∀ value : Loadable, Raises Error.Content (loadable value)
  | .integer _ | .float _ | .long _ | .double _ => raises_intern _
  | .string text => (raises_utf8 text).bind fun _ => raises_intern _
  | .type name => raises_classRef name
  | .methodType descriptor => (raises_utf8 descriptor).bind fun _ => raises_intern _
  | .handle handle => raises_methodHandle handle
  | .dynamic name descriptor bootstrap arguments =>
    (raises_methodHandle bootstrap).bind fun _ => (raises_loadables [] arguments).bind fun _ =>
      Raises.bind (.modifyGet _) fun _ => raises_dynamic name descriptor _

theorem raises_loadables (done : List ConstantIndex) :
    ∀ values : List Loadable, Raises Error.Content (loadables done values)
  | [] => .pure _
  | value :: values => (raises_loadable value).bind fun i => raises_loadables (i :: done) values

end

/-- A bootstrap method needs constants for its handle and its arguments. -/
theorem raises_bootstrapMethod (handle : MethodHandle) (arguments : List Loadable) :
    Raises Error.Content (bootstrapMethod handle arguments) :=
  (raises_methodHandle handle).bind fun _ => (raises_loadables [] arguments).bind fun _ =>
    .modifyGet _

theorem overflows_named {E : Error → Prop} (hE : ∀ c n, E (.constantPoolOverflow c n))
    (a : Attribute) : Raises E (named a) :=
  (overflows_intern hE _).bind fun _ => .pure _

end ConstantPool

/-! ## 3. Values of annotations -/

namespace ElementValue

theorem raises_putTagged (tag : Char) (index : ConstantIndex) (b : Bytes) :
    Raises Error.Content (putTagged tag index b) := .modify_above _

/-- A value that is a tag and the index of a constant. -/
theorem raises_putLiteral (tag : Char) {constant : PoolM ConstantIndex}
    (hc : Raises Error.Content constant) (b : Bytes) :
    Raises Error.Content (putLiteral tag constant b) :=
  Raises.bind_above (.lift_above hc) fun i b => raises_putTagged tag i b

theorem raises_putEnum (descriptor value : String) (b : Bytes) :
    Raises Error.Content (putEnum descriptor value b) :=
  Raises.bind_above (.lift_above (ConstantPool.raises_utf8 _)) fun _ _ =>
    Raises.bind_above (.lift_above (ConstantPool.raises_utf8 _)) fun _ _ => .modify_above _

theorem raises_reserve (b : Bytes) : Raises Error.Content (reserve b) := Raises.pure _

mutual

/-- Values, the pairs of annotations and the entries of arrays, along the recursion of `putValue`.
-/
theorem raises_putValue : ∀ (value : ElementValue) (b : Bytes),
    Raises Error.Content (putValue value b)
  | .boolean _, b | .byte _, b | .char _, b | .short _, b | .int _, b | .long _, b | .float _, b
  | .double _, b => raises_putLiteral _ (ConstantPool.raises_intern _) b
  | .string _, b | .classLiteral _, b => raises_putLiteral _ (ConstantPool.raises_utf8 _) b
  | .enumConstant descriptor value, b => raises_putEnum descriptor value b
  | .nested _ values, _ =>
    Raises.bind_above (.lift_above (ConstantPool.raises_utf8 _)) fun _ _ =>
      Raises.bind_above (raises_putTagged _ _ _) fun _ _ =>
      Raises.bind_above (raises_reserve _) fun _ _ =>
      Raises.bind_above (raises_putPairs 0 values _) fun _ _ => .modify_above _
  | .array values, _ =>
    Raises.bind_above (.modify_above _) fun _ _ =>
      Raises.bind_above (raises_reserve _) fun _ _ =>
      Raises.bind_above (raises_putEntries 0 values _) fun _ _ => .modify_above _

theorem raises_putPairs : ∀ (count : UInt16) (values : List (String × ElementValue)) (b : Bytes),
    Raises Error.Content (putPairs count values b)
  | _, [], _ => .pure_above _
  | count, (_, value) :: values, _ =>
    Raises.bind_above (.lift_above (ConstantPool.raises_utf8 _)) fun _ _ =>
      Raises.bind_above (.modify_above _) fun _ _ =>
      Raises.bind_above (raises_putValue value _) fun _ _ => raises_putPairs (count + 1) values _

theorem raises_putEntries : ∀ (count : UInt16) (values : List ElementValue) (b : Bytes),
    Raises Error.Content (putEntries count values b)
  | _, [], _ => .pure_above _
  | count, value :: values, _ =>
    Raises.bind_above (raises_putValue value _) fun _ _ => raises_putEntries (count + 1) values _

end

end ElementValue

/-! ## 4. Annotations -/

namespace AnnotationWriter

open ElementValue

/-- A value has a name in an annotation, and none in an array. -/
theorem raises_putName (name : Option String) (level : AnnotationLevel) (b : Bytes) :
    Raises Error.Content (putName name level b) := by
  cases level with
  | bare => exact .pure_above _
  | counted named count place =>
    unfold putName
    cases named with
    | true =>
      exact Raises.bind_above (.lift_above (ConstantPool.raises_utf8 _)) fun _ _ =>
        Raises.bind_above (.modify_above _) fun _ _ => .pure_above _
    | false => exact .pure_above _

theorem raises_putWhole (value : ElementValue) (level : AnnotationLevel) (b : Bytes) :
    Raises Error.Content (putWhole value level b) := by
  cases level with
  | counted named count place => exact raises_putValue value b
  | bare =>
    refine Raises.bind_above (.lift_above ?_) fun _ _ => .modify_above _
    exact Raises.bind_above (raises_reserve _) fun _ _ => raises_putValue value _

theorem raises_begin (named : Bool) (levels : List AnnotationLevel) (b : Bytes) :
    Raises Error.Content (AnnotationWriter.begin named levels b) :=
  Raises.bind_above (raises_reserve _) fun _ _ => .pure_above _

/-- Each event of an annotation adds a value, opens a level or closes one. -/
theorem raises_event (levels : List AnnotationLevel) (e : AnnotationEvent) (b : Bytes) :
    Raises Error.Content (event levels e b) := by
  cases levels with
  | nil => exact .pure_above _
  | cons level outer =>
    cases e with
    | value name value =>
      exact Raises.bind_above (raises_putName _ _ _) fun _ _ =>
        Raises.bind_above (raises_putWhole _ _ _) fun _ _ => .pure_above _
    | enumConstant name descriptor value =>
      exact Raises.bind_above (raises_putName _ _ _) fun _ _ =>
        Raises.bind_above (raises_putEnum _ _ _) fun _ _ => .pure_above _
    | beginNested name descriptor =>
      exact Raises.bind_above (raises_putName _ _ _) fun _ _ =>
        Raises.bind_above (.lift_above (ConstantPool.raises_utf8 _)) fun _ _ =>
        Raises.bind_above (raises_putTagged _ _ _) fun _ _ => raises_begin _ _ _
    | beginArray name =>
      exact Raises.bind_above (raises_putName _ _ _) fun _ _ =>
        Raises.bind_above (.modify_above _) fun _ _ => raises_begin _ _ _
    | finish =>
      cases level with
      | bare => exact .pure_above _
      | counted named count place =>
        exact Raises.bind_above (.modify_above _) fun _ _ => .pure_above _

theorem raises_all (levels : List AnnotationLevel) (es : List AnnotationEvent) (b : Bytes) :
    Raises Error.Content (all levels es b) := by
  induction es generalizing levels b with
  | nil => exact .pure_above _
  | cons e es ih => exact Raises.bind_above (raises_event _ _ _) fun levels b => ih levels b

/-- An annotation as a whole. -/
theorem raises_encode (descriptor : String) (es : List AnnotationEvent) :
    Raises Error.Content (encode descriptor es) := by
  refine Raises.bind ?_ fun _ => .pure _
  exact Raises.bind_above (.lift_above (ConstantPool.raises_utf8 _)) fun _ _ =>
    Raises.bind_above (.modify_above _) fun _ _ =>
    Raises.bind_above (raises_begin _ _ _) fun levels b => raises_all levels es b

end AnnotationWriter

namespace AnnotationSet

theorem raises_add (s : AnnotationSet) (descriptor : String) (es : List AnnotationEvent) :
    Raises Error.Content (s.add descriptor es) :=
  Raises.bind (AnnotationWriter.raises_encode _ _) fun _ => .pure _

/-- A table of annotations needs a constant for its own name. -/
theorem overflows_attribute? {E : Error → Prop} (hE : ∀ c n, E (.constantPoolOverflow c n))
    (s : AnnotationSet) (name : String) : Raises E (s.attribute? name) := by
  unfold attribute?
  split
  · exact .pure _
  · exact (ConstantPool.overflows_intern hE _).bind fun _ => .pure _

theorem overflows_parametersAttribute? {E : Error → Prop}
    (hE : ∀ c n, E (.constantPoolOverflow c n)) (sets : Array AnnotationSet) (parameters : Nat)
    (name : String) : Raises E (parametersAttribute? sets parameters name) := by
  unfold parametersAttribute?
  split
  · exact .pure _
  · exact (ConstantPool.overflows_intern hE _).bind fun _ => .pure _

end AnnotationSet

end ClassFile
