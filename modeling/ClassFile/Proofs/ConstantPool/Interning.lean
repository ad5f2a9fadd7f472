/-
# Operations that only ask for records

Whatever is written into a class asks the pool for records and for numbers of bootstrap methods, and
does nothing else to it (`Interning`).  So the pool only grows (`Interning.leads`).  Such an operation
neither looks at the types of the pool nor changes them: with other types, everything else is the same
(`Interning.withTypes`).

This is so for annotations (`AnnotationWriter.interning_encode`), for instructions
(`Assembler.interning_encode`) and for declarations (`MethodWriter.interning_start`,
`ClassHeader.interning_of`), but not for what is reported to the block graph, and not for stack maps.
-/
import ClassFile.Proofs.ConstantPool.Coherent

namespace ClassFile

/-! ## 1. Operations made of requests -/

/-- An operation that is made of requests for records and bootstrap methods. -/
inductive Interning : {α : Type} → PoolM α → Prop
  | pure {α : Type} (a : α) : Interning (pure a)
  | lift {α : Type} (e : Except Error α) : Interning (liftM e)
  | intern (c : Constant) : Interning (ConstantPool.intern c)
  | internBootstrap (e : BootstrapEntry) : Interning (ConstantPool.internBootstrap e)
  | checkBootstrap (index : UInt16) : Interning (ConstantPool.checkBootstrap index)
  | bind {α β : Type} {m : PoolM α} {k : α → PoolM β} (hm : Interning m)
      (hk : ∀ a, Interning (k a)) : Interning (m >>= k)

namespace Interning

section Rules

variable {α β φ : Type} {f : φ}

theorem bind_above {m : StateT φ PoolM α} {k : α → StateT φ PoolM β} (hm : Interning (m f))
    (hk : ∀ a f, Interning (k a f)) : Interning ((m >>= k) f) :=
  Interning.bind hm fun p => hk p.1 p.2

theorem pure_above (a : α) : Interning ((Pure.pure a : StateT φ PoolM α) f) := .pure (a, f)

theorem lift_above {m : PoolM α} (hm : Interning m) :
    Interning ((liftM m : StateT φ PoolM α) f) :=
  .bind hm fun _ => .pure _

theorem modify_above (k : φ → φ) : Interning ((modify k : StateT φ PoolM PUnit) f) := .pure _

theorem map {m : PoolM α} (k : α → β) (hm : Interning m) : Interning (k <$> m) := by
  rw [map_eq_pure_bind]
  exact hm.bind fun a => .pure (k a)

theorem mapM {k : α → PoolM β} (hk : ∀ a, Interning (k a)) (l : List α) : Interning (l.mapM k) := by
  induction l with
  | nil => exact .pure []
  | cons a l ih =>
    rw [List.mapM_cons]
    exact (hk a).bind fun _ => ih.bind fun _ => .pure _

theorem foldlM {k : β → α → PoolM β} (hk : ∀ b a, Interning (k b a)) (l : List α) (b : β) :
    Interning (l.foldlM k b) := by
  induction l generalizing b with
  | nil => exact .pure b
  | cons a l ih =>
    rw [List.foldlM_cons]
    exact (hk b a).bind fun _ => ih _

/-- **A relation that holds behind every request** holds behind what is made of requests. -/
theorem leads_of {R : ConstantPool → ConstantPool → Prop} [IsPreorder ConstantPool R]
    (hrecord : ∀ c, Leads R (ConstantPool.intern c))
    (hentry : ∀ e, Leads R (ConstantPool.internBootstrap e)) {m : PoolM α} (hm : Interning m) :
    Leads R m := by
  induction hm with
  | pure a => exact .pure a
  | lift e => exact .lift e
  | intern c => exact hrecord c
  | internBootstrap e => exact hentry e
  | checkBootstrap index =>
    refine Leads.get.bind fun p => ?_
    split
    · exact .pure _
    · exact .throw _
  | bind _ _ ihm ihk => exact ihm.bind ihk

/-- **It keeps the pool sound**, and what the pool has. -/
theorem leads {h : Hierarchy} {m : PoolM α} (hm : Interning m) : Leads (ConstantPool.Later h) m :=
  hm.leads_of ConstantPool.leads_intern ConstantPool.leads_internBootstrap

/-- **What such an operation does has nothing to do with the types of the pool.** -/
theorem withTypes {m : PoolM α} (hm : Interning m) (p : ConstantPool) (T : TypeTable) :
    m { p with types := T } = ((m p : Except Error α × ConstantPool).1,
      { (m p : Except Error α × ConstantPool).2 with types := T }) := by
  induction hm generalizing p with
  | pure a => rfl
  | lift e => rfl
  | intern c =>
    rw [ConstantPool.intern_apply, ConstantPool.intern_apply]
    dsimp only
    split
    · rfl
    · split <;> rfl
  | internBootstrap e =>
    rw [ConstantPool.internBootstrap_apply, ConstantPool.internBootstrap_apply]
  | checkBootstrap index =>
    rw [ConstantPool.checkBootstrap_apply, ConstantPool.checkBootstrap_apply]
    dsimp only
    split <;> rfl
  | @bind α β m k hm hk ihm ihk =>
    rw [bind_apply, bind_apply, ihm p]
    rcases (m p : Except Error α × ConstantPool) with ⟨e | a, p'⟩
    · rfl
    · exact ihk a p'

variable {p p' q : ConstantPool} {T : TypeTable}

/-- It leaves the types as they are. -/
theorem types_eq {m : PoolM α} (hm : Interning m) {a : α} (hret : Returns m p a p') :
    p'.types = p.types := by
  have h := hm.withTypes p p.types
  rw [show (m p : Except Error α × ConstantPool) = (.ok a, p') from hret] at h
  exact congrArg (fun r : Except Error α × ConstantPool => r.2.types) h

/-- So it does the same in two pools that differ by their types. -/
theorem same {m : PoolM α} (hm : Interning m) {a b : α} (hp : Returns m p a p')
    (hq : Returns m { p with types := T } b q) : b = a ∧ q = { p' with types := T } := by
  have h := hm.withTypes p T
  rw [show (m p : Except Error α × ConstantPool) = (.ok a, p') from hp,
    show (m { p with types := T } : Except Error α × ConstantPool) = (.ok b, q) from hq] at h
  cases h
  exact ⟨rfl, rfl⟩

end Rules

end Interning

/-- Two pools have the same types. -/
def ConstantPool.SameTypes (p p' : ConstantPool) : Prop := p'.types = p.types

instance : IsPreorder ConstantPool ConstantPool.SameTypes where
  refl _ := rfl
  trans _ _ _ h h' := h'.trans h

theorem Interning.sameTypes {α : Type} {m : PoolM α} (hm : Interning m) :
    Leads ConstantPool.SameTypes m := fun _ _ _ hret => hm.types_eq hret

/-! ## 2. Records -/

namespace ConstantPool

theorem interning_utf8 (text : String) : Interning (utf8 text) := .intern _

/-- The operations that give a record with a text are alike. -/
theorem interning_names (kind : ConstantIndex → Constant) (text : String) :
    Interning (do intern (kind (← utf8 text))) := (interning_utf8 text).bind fun _ => .intern _

theorem interning_classRef (name : String) : Interning (classRef name) :=
  interning_names .classRef name

theorem interning_nameAndType (name descriptor : String) :
    Interning (nameAndType name descriptor) :=
  (interning_utf8 name).bind fun _ => (interning_utf8 descriptor).bind fun _ => .intern _

theorem interning_fieldRef (owner name descriptor : String) :
    Interning (fieldRef owner name descriptor) :=
  (interning_classRef owner).bind fun _ => (interning_nameAndType name descriptor).bind fun _ =>
    .intern _

theorem interning_methodRef (owner name descriptor : String) (interface : Bool) :
    Interning (methodRef owner name descriptor interface) :=
  (interning_classRef owner).bind fun _ => (interning_nameAndType name descriptor).bind fun _ =>
    .intern _

theorem interning_methodHandle (handle : MethodHandle) : Interning (methodHandle handle) := by
  unfold methodHandle
  split
  · exact (interning_fieldRef _ _ _).bind fun _ => .intern _
  · exact (interning_methodRef _ _ _ _).bind fun _ => .intern _

theorem interning_dynamic (name descriptor : String) (bootstrap : UInt16) :
    Interning (dynamic name descriptor bootstrap) :=
  (Interning.checkBootstrap bootstrap).bind fun _ =>
    (interning_nameAndType name descriptor).bind fun _ => .intern _

theorem interning_invokeDynamic (name descriptor : String) (bootstrap : UInt16) :
    Interning (invokeDynamic name descriptor bootstrap) :=
  (Interning.checkBootstrap bootstrap).bind fun _ =>
    (interning_nameAndType name descriptor).bind fun _ => .intern _

mutual

/-- A loadable constant, with all records that it is made of. -/
theorem interning_loadable : ∀ value : Loadable, Interning (loadable value)
  | .integer _ | .float _ | .long _ | .double _ => .intern _
  | .string text => interning_names .string text
  | .type name => interning_classRef name
  | .methodType descriptor => interning_names .methodType descriptor
  | .handle handle => interning_methodHandle handle
  | .dynamic name descriptor bootstrap arguments =>
    (interning_methodHandle bootstrap).bind fun _ => (interning_loadables [] arguments).bind fun _ =>
      (Interning.internBootstrap _).bind fun _ => interning_dynamic name descriptor _

theorem interning_loadables (done : List ConstantIndex) :
    ∀ values : List Loadable, Interning (loadables done values)
  | [] => .pure _
  | value :: values => (interning_loadable value).bind fun i => interning_loadables (i :: done) values

end

theorem interning_bootstrapMethod (handle : MethodHandle) (arguments : List Loadable) :
    Interning (bootstrapMethod handle arguments) :=
  (interning_methodHandle handle).bind fun _ => (interning_loadables [] arguments).bind fun _ =>
    .internBootstrap _

theorem interning_named (a : Attribute) : Interning (named a) :=
  (interning_utf8 a.name).bind fun _ => .pure _

end ConstantPool

end ClassFile
