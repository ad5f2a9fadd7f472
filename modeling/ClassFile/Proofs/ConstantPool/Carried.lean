/-
# Answers of any pool

A pool that was copied from a class file has whatever records the class file had, so it need not be
coherent.  But it is *in order*: what is remembered about a record is an index of it, and the numbers of its
bootstrap table are right (`Ordered`).  That is enough for an operation that interns to give an answer that
stands for what was asked for, in its own pool and in every pool that carries what that has (`Stays`).

Nothing that is done to a pool changes the numbers of its bootstrap table, and nothing makes them wrong
(`Numbering`); they are right in a copy as well (`numbered_copyOf`).
-/
import ClassFile.Proofs.ConstantPool.Copy
import ClassFile.Proofs.ConstantPool.Interning
import ClassFile.Proofs.ConstantPool.Operations

namespace ClassFile

namespace ConstantPool

open Constant

variable {h : Hierarchy} {p p' p'' : ConstantPool}

/-! ## 1. Numbers of bootstrap methods -/

/-- A pool whose bootstrap table has right numbers becomes one with a later table of such numbers. -/
def Numbering (p p' : ConstantPool) : Prop :=
  p.bootstrap.Numbered → p'.bootstrap.Numbered ∧ p.bootstrap ≤ p'.bootstrap

instance : IsPreorder ConstantPool Numbering where
  refl _ hp := ⟨hp, BootstrapTable.le_refl _⟩
  trans _ _ _ h₁ h₂ hp :=
    have ⟨hp', hle⟩ := h₁ hp
    have ⟨hp'', hle'⟩ := h₂ hp'
    ⟨hp'', BootstrapTable.le_trans hle hle'⟩

theorem numbering_of_eq (heq : p'.bootstrap = p.bootstrap) : Numbering p p' :=
  fun hp => ⟨heq.symm ▸ hp, heq.symm ▸ BootstrapTable.le_refl _⟩

theorem numbering_push (c : Constant) : Leads Numbering (push c) := by
  intro p i p' hret
  obtain ⟨-, -, rfl⟩ := returns_push.1 hret
  exact numbering_of_eq rfl

theorem numbering_remember (c : Constant) (i : ConstantIndex) : Leads Numbering (remember c i) := by
  intro p u p' hret
  obtain rfl := returns_remember.1 hret
  exact numbering_of_eq rfl

theorem numbering_intern (c : Constant) : Leads Numbering (intern c) := by
  intro p i p' hret
  rcases returns_intern.1 hret with ⟨-, rfl⟩ | ⟨-, p₁, hpush, hremember⟩
  · exact numbering_of_eq rfl
  · exact trans_of Numbering (numbering_push c _ _ _ hpush) (numbering_remember c i _ _ _ hremember)

theorem numbering_internBootstrap (e : BootstrapEntry) : Leads Numbering (internBootstrap e) := by
  intro p k p' hret hp
  rw [Returns, internBootstrap_apply] at hret
  cases hret
  obtain ⟨ht, hle, -⟩ := hp.intern e
  exact ⟨ht, hle⟩

theorem numbering_onTypes {α : Type} (f : TypeM α) : Leads Numbering (onTypes f) := by
  intro p a p' hret
  obtain ⟨T, -, rfl⟩ := returns_onTypes.1 hret
  exact numbering_of_eq rfl

theorem numbering_copyBootstrap (b : Bytes) (count offset : Nat) :
    Leads Numbering (copyBootstrap b count offset) := by
  induction count generalizing offset with
  | zero => exact .pure _
  | succ count ih =>
    exact (Leads.lift _).bind fun _ => (Leads.lift _).bind fun _ => (Leads.lift _).bind fun _ =>
      (numbering_internBootstrap _).bind fun _ => ih _

/-- **The numbers of a copied table are right.** -/
theorem numbered_copyOf {source : ClassBytes} {table : Option Nat} (hcopy : copyOf source table = .ok p) :
    p.bootstrap.Numbered := by
  have hrecords : Leads Numbering (copyRecords source 1) := fun _ _ _ hret =>
    numbering_of_eq (bootstrap_of_copyRecords source 1 _ _ _ hret)
  unfold copyOf at hcopy
  dsimp only at hcopy
  split at hcopy
  · rename_i pool hrun
    cases hcopy
    cases table with
    | none =>
      have hcopied := (Leads.pure ()).bind fun _ => hrecords
      exact (hcopied _ _ _ hrun BootstrapTable.numbered_empty).1
    | some offset =>
      have hcopied := (Leads.lift (source.bytes.u16At offset)).bind fun count =>
        (numbering_copyBootstrap source.bytes count.toNat (offset + 2)).bind fun _ => hrecords
      exact (hcopied _ _ _ hrun BootstrapTable.numbered_empty).1
  · cases hcopy

/-! ## 2. Pools in order -/

theorem Carried.refl (p : ConstantPool) : p.Carried p := ⟨fun _ _ hc => hc, fun _ _ hk => hk⟩

theorem Carried.trans (hk : p.Carried p') (hk' : p'.Carried p'') : p.Carried p'' :=
  ⟨fun i c hc => hk'.record i c (hk.record i c hc), fun e k he => hk'.number e k (hk.number e k he)⟩

/-- A later pool carries what the one before it has. -/
theorem carried_of_le (hle : p ≤ p') (hb : p.bootstrap ≤ p'.bootstrap) : p.Carried p' :=
  ⟨hle.record, hb.2⟩

/-- What is remembered in a pool is right: indices of records, and numbers of bootstrap methods. -/
structure Ordered (h : Hierarchy) (p : ConstantPool) : Prop where
  sound : p.Sound h
  numbered : p.bootstrap.Numbered

/-- An operation that gives an answer leaves the pool in order, with what it had, and from then on this is
true of the answer. -/
def Stays (h : Hierarchy) {α : Type} (m : PoolM α) (D : α → ConstantPool → Prop) : Prop :=
  ∀ p a p', Returns m p a p' → p.Ordered h → p'.Ordered h ∧ p.Carried p' ∧ ∀ q, p'.Carried q → D a q

section Rules

variable {α β : Type} {m : PoolM α} {D : α → ConstantPool → Prop}

theorem Stays.imp {E : α → ConstantPool → Prop} (hm : Stays h m D) (hDE : ∀ a q, D a q → E a q) :
    Stays h m E := by
  intro p a p' hret hp
  obtain ⟨hp', hk, ha⟩ := hm p a p' hret hp
  exact ⟨hp', hk, fun q hq => hDE a q (ha q hq)⟩

theorem Stays.pure {a : α} (ha : ∀ q, D a q) : Stays h (pure a) D := by
  intro p b p' hret hp
  obtain ⟨rfl, rfl⟩ := returns_pure.1 hret
  exact ⟨hp, .refl p, fun q _ => ha q⟩

/-- What is true of the first answer is still true behind the second one. -/
theorem Stays.bind {f : α → PoolM β} {E : α → β → ConstantPool → Prop} (hm : Stays h m D)
    (hf : ∀ a, Stays h (f a) (E a)) : Stays h (m >>= f) fun b q => ∃ a, D a q ∧ E a b q := by
  intro p b p' hret hp
  obtain ⟨a, p₁, ha, hb⟩ := returns_bind.1 hret
  obtain ⟨hp₁, hk₁, hD⟩ := hm p a p₁ ha hp
  obtain ⟨hp', hk', hE⟩ := hf a p₁ b p' hb hp₁
  exact ⟨hp', hk₁.trans hk', fun q hq => ⟨a, hD q (hk'.trans hq), hE q hq⟩⟩

end Rules

/-! ## 3. The operations -/

theorem stays_intern (c : Constant) : Stays h (intern c) fun i q => q.get? i = some c := by
  intro p i p' hret hp
  obtain ⟨hs, hle, hi, -⟩ := hp.sound.intern hret
  obtain ⟨hb, hleb⟩ := numbering_intern c _ _ _ hret hp.numbered
  exact ⟨⟨hs, hb⟩, carried_of_le hle hleb, fun q hq => hq.record i c hi⟩

theorem stays_internBootstrap (e : BootstrapEntry) :
    Stays h (internBootstrap e) fun k q => q.bootstrap.lookup.get? e = some k := by
  intro p k p' hret hp
  obtain ⟨hs, hle⟩ := leads_internBootstrap e _ _ _ hret hp.sound
  obtain ⟨hb, hleb⟩ := numbering_internBootstrap e _ _ _ hret hp.numbered
  rw [Returns, internBootstrap_apply] at hret
  cases hret
  obtain ⟨-, -, hget, -⟩ := hp.numbered.intern e
  exact ⟨⟨hs, hb⟩, carried_of_le hle hleb, fun q hq => hq.number e _ hget⟩

theorem stays_checkBootstrap (b : UInt16) : Stays h (checkBootstrap b) fun _ _ => True := by
  intro p u p' hret hp
  rw [Returns, checkBootstrap_apply] at hret
  split at hret <;> cases hret
  exact ⟨hp, .refl p, fun _ _ => trivial⟩

theorem stays_utf8 (text : String) : Stays h (utf8 text) fun i q => q.text? i = some text :=
  (stays_intern _).imp fun _ _ hi => text?_eq_some_iff.2 hi

/-- The operations that give a record with a text are alike. -/
theorem stays_names (kind : ConstantIndex → Constant) (text : String) :
    Stays h (do intern (kind (← utf8 text))) fun i q => q.Names kind i text :=
  ((stays_utf8 text).bind fun n => stays_intern (kind n)).imp fun _ _ ⟨n, hn, hi⟩ => ⟨n, hi, hn⟩

theorem stays_classRef (name : String) :
    Stays h (classRef name) fun i q => q.Names .classRef i name := stays_names .classRef name

theorem stays_nameAndType (name descriptor : String) :
    Stays h (nameAndType name descriptor) fun i q => q.IsNameAndType i name descriptor :=
  ((stays_utf8 name).bind fun n => (stays_utf8 descriptor).bind fun d =>
    stays_intern (.nameAndType n d)).imp fun _ _ ⟨n, hn, d, hd, hi⟩ => ⟨n, d, hi, hn, hd⟩

/-- The operations that give a record with an owner are alike. -/
theorem stays_member (kind : ConstantIndex → ConstantIndex → Constant)
    (owner name descriptor : String) :
    Stays h (do
        let owner ← classRef owner
        let member ← nameAndType name descriptor
        intern (kind owner member))
      fun i q => ∃ o m, q.get? i = some (kind o m) ∧ q.Names .classRef o owner ∧
        q.IsNameAndType m name descriptor :=
  ((stays_classRef owner).bind fun o => (stays_nameAndType name descriptor).bind fun m =>
    stays_intern (kind o m)).imp fun _ _ ⟨o, ho, m, hm, hi⟩ => ⟨o, m, hi, ho, hm⟩

theorem stays_fieldRef (owner name descriptor : String) :
    Stays h (fieldRef owner name descriptor) fun i q => q.IsField i owner name descriptor :=
  stays_member .fieldRef owner name descriptor

theorem stays_methodRef (owner name descriptor : String) (interface : Bool) :
    Stays h (methodRef owner name descriptor interface)
      fun i q => q.IsMethod i owner name descriptor interface :=
  stays_member (.methodRef · · interface) owner name descriptor

theorem stays_methodHandle (handle : MethodHandle) :
    Stays h (methodHandle handle) fun i q => q.IsHandle i handle := by
  unfold methodHandle IsHandle
  split
  · exact ((stays_fieldRef _ _ _).bind fun m => stays_intern (.methodHandle _ m)).imp
      fun _ _ ⟨m, hm, hi⟩ => ⟨m, hi, hm⟩
  · exact ((stays_methodRef _ _ _ _).bind fun m => stays_intern (.methodHandle _ m)).imp
      fun _ _ ⟨m, hm, hi⟩ => ⟨m, hi, hm⟩

/-- The operations that give a record with a bootstrap method are alike. -/
theorem stays_withBootstrap (kind : UInt16 → ConstantIndex → Constant) (name descriptor : String)
    (b : UInt16) :
    Stays h (do
        checkBootstrap b
        let member ← nameAndType name descriptor
        intern (kind b member))
      fun i q => ∃ m, q.get? i = some (kind b m) ∧ q.IsNameAndType m name descriptor :=
  ((stays_checkBootstrap b).bind fun _ => (stays_nameAndType name descriptor).bind fun m =>
    stays_intern (kind b m)).imp fun _ _ ⟨_, _, m, hm, hi⟩ => ⟨m, hi, hm⟩

mutual

/-- **A loadable constant gets an index that spells it out**, whatever else is in the pool. -/
theorem stays_loadable : ∀ v : Loadable, Stays h (loadable v) fun i q => q.Spells v i
  | .integer _ | .float _ | .long _ | .double _ => by
    simp only [loadable, Spells]
    exact stays_intern _
  | .string text => by
    simp only [loadable, Spells]
    exact stays_names .string text
  | .type name => by
    simp only [loadable, Spells]
    exact stays_classRef name
  | .methodType descriptor => by
    simp only [loadable, Spells]
    exact stays_names .methodType descriptor
  | .handle handle => by
    simp only [loadable, Spells]
    exact stays_methodHandle handle
  | .dynamic name descriptor bootstrap arguments => by
    simp only [loadable, Spells]
    refine ((stays_methodHandle bootstrap).bind fun handle =>
      (stays_loadables [] arguments).bind fun indices =>
      (stays_internBootstrap ⟨handle, indices⟩).bind fun b =>
      stays_withBootstrap .dynamic name descriptor b).imp ?_
    rintro _ q ⟨handle, hhandle, indices, ⟨_, rfl, hall⟩, b, hb, m, hi, hm⟩
    exact ⟨b, m, handle, _, hi, hm, hb, hhandle, hall⟩

theorem stays_loadables (done : List ConstantIndex) : ∀ vs : List Loadable,
    Stays h (loadables done vs) fun is q =>
      ∃ rest, is = done.reverse ++ rest ∧ q.SpellsAll vs rest
  | [] => by
    simp only [loadables, SpellsAll]
    exact .pure fun q => ⟨[], (List.append_nil _).symm, rfl⟩
  | v :: vs => by
    simp only [loadables, SpellsAll]
    refine ((stays_loadable v).bind fun i => stays_loadables (i :: done) vs).imp ?_
    rintro _ q ⟨i, hi, rest, rfl, hrest⟩
    exact ⟨i :: rest, by simp, i, rest, rfl, hi, hrest⟩

end

theorem stays_bootstrapMethod (handle : MethodHandle) (arguments : List Loadable) :
    Stays h (bootstrapMethod handle arguments) fun k q => q.Bootstraps k handle arguments := by
  refine ((stays_methodHandle handle).bind fun i => (stays_loadables [] arguments).bind fun indices =>
    stays_internBootstrap ⟨i, indices⟩).imp ?_
  rintro k q ⟨i, hi, indices, ⟨_, rfl, hall⟩, hk⟩
  exact ⟨i, _, hk, hi, hall⟩

end ConstantPool

end ClassFile
