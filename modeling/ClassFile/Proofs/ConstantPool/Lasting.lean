/-
# What stands from then on

`Lasts m D` says that `m`, when it gives an answer on a pool that is coherent and modest, leaves such a
pool, with all that was there, and that `D` is true of the answer in every pool from then on.  What is
done one after the other lasts together (`Lasts.bind`), so that nothing has to be carried along from pool
to pool by hand: in the end, everything is said of the pool that is written.

Answers last because operations are steady; that short strings and tables keep a pool modest is shown
here (`modestly_loadable`).
-/
import ClassFile.Proofs.ConstantPool.Room
import Mathlib.Data.List.Forall2

namespace ClassFile

namespace ConstantPool

open Constant

variable {p p' : ConstantPool}

/-! ## 1. Modest pools -/

/-- A modest pool becomes a modest one. -/
def Modestly (p p' : ConstantPool) : Prop := p.Modest → p'.Modest

instance : IsPreorder ConstantPool Modestly where
  refl _ := id
  trans _ _ _ h h' := h' ∘ h

theorem modestly_intern {c : Constant} (hc : c.Short) : Leads Modestly (intern c) := by
  intro p i p' hret hp
  rcases returns_intern.1 hret with ⟨-, rfl⟩ | ⟨-, p₁, hpush, hremember⟩
  · exact hp
  · obtain ⟨-, -, rfl⟩ := returns_push.1 hpush
    obtain rfl := returns_remember.1 hremember
    refine ⟨fun e he => ?_, hp.arguments⟩
    rw [OffsetTable.toList_push, List.mem_append, List.mem_singleton] at he
    rcases he with he | rfl
    · exact hp.short e he
    · exact hc

theorem modestly_utf8 {text : String} (htext : ModifiedUtf8.Fits text) :
    Leads Modestly (utf8 text) :=
  modestly_intern fun _ h => Constant.utf8.inj h ▸ htext

/-- The operations that give a record with a text are alike. -/
theorem modestly_names (kind : ConstantIndex → Constant) (hkind : ∀ i, (kind i).Short)
    {text : String} (htext : ModifiedUtf8.Fits text) :
    Leads Modestly (do intern (kind (← utf8 text))) :=
  (modestly_utf8 htext).bind fun i => modestly_intern (hkind i)

theorem modestly_classRef {name : String} (hname : ModifiedUtf8.Fits name) :
    Leads Modestly (classRef name) :=
  modestly_names .classRef (by rintro _ _ ⟨⟩) hname

theorem modestly_nameAndType {name descriptor : String} (hname : ModifiedUtf8.Fits name)
    (hdescriptor : ModifiedUtf8.Fits descriptor) : Leads Modestly (nameAndType name descriptor) :=
  (modestly_utf8 hname).bind fun _ => (modestly_utf8 hdescriptor).bind fun _ =>
    modestly_intern fun _ h => nomatch h

theorem modestly_methodHandle {h : MethodHandle} (hh : h.Short) :
    Leads Modestly (methodHandle h) := by
  obtain ⟨howner, hname, hdescriptor⟩ := hh
  unfold methodHandle
  split
  · refine Leads.bind ?_ fun _ => modestly_intern fun _ h => nomatch h
    exact (modestly_classRef howner).bind fun _ => (modestly_nameAndType hname hdescriptor).bind
      fun _ => modestly_intern fun _ h => nomatch h
  · refine Leads.bind ?_ fun _ => modestly_intern fun _ h => nomatch h
    exact (modestly_classRef howner).bind fun _ => (modestly_nameAndType hname hdescriptor).bind
      fun _ => modestly_intern fun _ h => nomatch h

theorem modestly_internBootstrap {e : BootstrapEntry} (he : e.arguments.length ≤ 65535) :
    Leads Modestly (internBootstrap e) := by
  intro p k p' hret hp
  rw [Returns, internBootstrap_apply] at hret
  cases hret
  refine ⟨hp.short, fun x hx => ?_⟩
  have hentries : (p.bootstrap.intern e).2.entries = p.bootstrap.entries ∨
      (p.bootstrap.intern e).2.entries = p.bootstrap.entries.push e := by
    cases hk : p.bootstrap.lookup.get? e with
    | some k =>
      rw [BootstrapTable.intern_of_get? hk]
      split
      · exact .inr rfl
      · exact .inl rfl
    | none =>
      rw [BootstrapTable.intern_of_new hk]
      exact .inr rfl
  rcases hentries with hsame | hpushed
  · exact hp.arguments x (hsame ▸ hx)
  · rcases Array.mem_push.1 (hpushed ▸ hx) with hx | rfl
    · exact hp.arguments x hx
    · exact he

theorem modestly_dynamic {name descriptor : String} (hname : ModifiedUtf8.Fits name)
    (hdescriptor : ModifiedUtf8.Fits descriptor) (b : UInt16) :
    Leads Modestly (dynamic name descriptor b) := by
  refine Leads.bind (fun p u p' hret => ?_) fun _ =>
    (modestly_nameAndType hname hdescriptor).bind fun _ => modestly_intern fun _ h => nomatch h
  rw [Returns, checkBootstrap_apply] at hret
  split at hret <;> cases hret
  exact id

/-- As many indices as values. -/
theorem length_of_loadables {vs : List Loadable} : ∀ {done is : List ConstantIndex}
    {p p' : ConstantPool}, Returns (loadables done vs) p is p' → is.length = done.length + vs.length := by
  induction vs with
  | nil =>
    intro done is p p' hret
    simp only [loadables] at hret
    obtain ⟨rfl, -⟩ := returns_pure.1 hret
    exact List.length_reverse
  | cons v vs ih =>
    intro done is p p' hret
    simp only [loadables] at hret
    obtain ⟨i, p₁, -, hrest⟩ := returns_bind.1 hret
    rw [ih hrest, List.length_cons, List.length_cons]
    omega

mutual

/-- **A value with short strings and tables** keeps a pool modest. -/
theorem modestly_loadable : ∀ v : Loadable, v.Short → Leads Modestly (loadable v)
  | .integer _, _ | .float _, _ | .long _, _ | .double _, _ => by
    simp only [loadable]
    exact modestly_intern fun _ h => nomatch h
  | .string _, hv => by
    simp only [loadable]
    exact modestly_names .string (fun _ _ h => nomatch h) hv
  | .type _, hv => by
    simp only [loadable]
    exact modestly_classRef hv
  | .methodType _, hv => by
    simp only [loadable]
    exact modestly_names .methodType (fun _ _ h => nomatch h) hv
  | .handle _, hv => by
    simp only [loadable]
    exact modestly_methodHandle hv
  | .dynamic name descriptor bootstrap arguments, hv => by
    obtain ⟨hname, hdescriptor, hbootstrap, hlength, harguments⟩ := hv
    simp only [loadable]
    refine (modestly_methodHandle hbootstrap).bind fun handle p i p' hret => ?_
    obtain ⟨indices, p₁, hindices, hret⟩ := returns_bind.1 hret
    have hcount : indices.length ≤ 65535 := by
      rw [length_of_loadables hindices, List.length_nil, Nat.zero_add]
      exact hlength
    have hrest : Leads Modestly (internBootstrap ⟨handle, indices⟩ >>= dynamic name descriptor) :=
      (modestly_internBootstrap hcount).bind fun b => modestly_dynamic hname hdescriptor b
    exact hrest p₁ i p' hret ∘ modestly_loadables [] arguments harguments p indices p₁ hindices

theorem modestly_loadables (done : List ConstantIndex) : ∀ vs : List Loadable,
    Loadable.AllShort vs → Leads Modestly (loadables done vs)
  | [], _ => by
    simp only [loadables]
    exact .pure _
  | v :: vs, hvs => by
    simp only [loadables]
    exact (modestly_loadable v hvs.1).bind fun i => modestly_loadables (i :: done) vs hvs.2

end

theorem modestly_bootstrapAttribute? : Leads Modestly bootstrapAttribute? := by
  have hname : ModifiedUtf8.Fits "BootstrapMethods" := by decide
  refine Leads.get.bind fun p => ?_
  dsimp only
  split
  · exact .pure _
  · exact Leads.bind ((modestly_utf8 hname).bind fun _ => .pure _) fun _ => .pure _

/-! ## 2. Answers that last -/

/-- From a coherent and modest pool an operation leads to one that has kept everything, and this is true
of its answer from then on. -/
def Lasts {α : Type} (m : PoolM α) (D : α → ConstantPool → Prop) : Prop :=
  ∀ p a p', Returns m p a p' → p.Coherent → p.Modest →
    p'.Coherent ∧ p'.Modest ∧ p.Kept p' ∧ ∀ q, p'.Kept q → D a q

section Rules

variable {α β σ : Type} {m : PoolM α} {D : α → ConstantPool → Prop}

theorem Lasts.imp {E : α → ConstantPool → Prop} (hm : Lasts m D) (h : ∀ a q, D a q → E a q) :
    Lasts m E := by
  intro p a p' hret hp hp₀
  obtain ⟨hp', hp₀', hk, ha⟩ := hm p a p' hret hp hp₀
  exact ⟨hp', hp₀', hk, fun q hq => h a q (ha q hq)⟩

theorem Lasts.pure {a : α} (ha : ∀ q, D a q) : Lasts (pure a) D := by
  intro p b p' hret hp hp₀
  obtain ⟨rfl, rfl⟩ := returns_pure.1 hret
  exact ⟨hp, hp₀, .refl p, fun q _ => ha q⟩

theorem Lasts.lift {e : Except Error α} (he : ∀ a, e = .ok a → ∀ q, D a q) :
    Lasts (liftM e) D := by
  intro p a p' hret hp hp₀
  obtain ⟨ha, rfl⟩ := returns_lift.1 hret
  exact ⟨hp, hp₀, .refl p, fun q _ => he a ha q⟩

/-- **One after the other**: what is true of the first answer is still true behind the second one, which
may depend on it. -/
theorem Lasts.bind_of {f : α → PoolM β} {E : α → β → ConstantPool → Prop} (hm : Lasts m D)
    (hf : ∀ a q, D a q → Lasts (f a) (E a)) : Lasts (m >>= f) fun b q => ∃ a, D a q ∧ E a b q := by
  intro p b p' hret hp hp₀
  obtain ⟨a, p₁, ha, hb⟩ := returns_bind.1 hret
  obtain ⟨hp₁, hm₁, hk₁, hD⟩ := hm p a p₁ ha hp hp₀
  obtain ⟨hp', hm', hk', hE⟩ := hf a p₁ (hD p₁ (.refl p₁)) p₁ b p' hb hp₁ hm₁
  exact ⟨hp', hm', hk₁.trans hk', fun q hq => ⟨a, hD q (hk'.trans hq), hE q hq⟩⟩

theorem Lasts.bind {f : α → PoolM β} {E : α → β → ConstantPool → Prop} (hm : Lasts m D)
    (hf : ∀ a, Lasts (f a) (E a)) : Lasts (m >>= f) fun b q => ∃ a, D a q ∧ E a b q :=
  hm.bind_of fun a _ _ => hf a

theorem Lasts.map (f : α → β) {E : β → ConstantPool → Prop} (hm : Lasts m D)
    (h : ∀ a q, D a q → E (f a) q) : Lasts (f <$> m) E := by
  intro p b p' hret hp hp₀
  obtain ⟨a, ha, rfl⟩ := returns_map.1 hret
  obtain ⟨hp', hp₀', hk, hD⟩ := hm p a p' ha hp hp₀
  exact ⟨hp', hp₀', hk, fun q hq => h a q (hD q hq)⟩

/-- An operation on each entry of a list. -/
theorem Lasts.mapM {f : α → PoolM β} {E : α → β → ConstantPool → Prop} {l : List α}
    (hf : ∀ a ∈ l, Lasts (f a) (E a)) :
    Lasts (l.mapM f) fun bs q => List.Forall₂ (fun a b => E a b q) l bs := by
  induction l with
  | nil => exact .pure fun _ => .nil
  | cons a l ih =>
    rw [List.mapM_cons]
    refine ((hf a (by simp)).bind fun b => (ih fun x hx => hf x (by simp [hx])).map (b :: ·)
      (E := fun bs q => ∃ bs', List.Forall₂ (fun a b => E a b q) l bs' ∧ bs = b :: bs')
      fun bs q hbs => ⟨bs, hbs, rfl⟩).imp ?_
    rintro _ q ⟨b, hb, bs, hbs, rfl⟩
    exact .cons hb hbs

/-- **An operation that goes through a list**, where `I` says what is true when some of it is done. -/
theorem Lasts.foldlM {step : σ → α → PoolM σ} {I : List α → σ → ConstantPool → Prop} {l : List α}
    (hstep : ∀ a ∈ l, ∀ done s, Lasts (step s a) fun s' q => I done s q → I (done ++ [a]) s' q)
    (done : List α) (s : σ) :
    Lasts (l.foldlM step s) fun s' q => I done s q → I (done ++ l) s' q := by
  induction l generalizing done s with
  | nil => exact .pure fun q h => by rwa [List.append_nil]
  | cons a l ih =>
    rw [List.foldlM_cons]
    refine ((hstep a (by simp) done s).bind fun s₁ =>
      ih (fun x hx => hstep x (by simp [hx])) (done ++ [a]) s₁).imp ?_
    rintro s' q ⟨s₁, h₁, h'⟩ h
    rw [List.append_cons]
    exact h' (h₁ h)

/-- The answer of a steady operation lasts, if what it stands for does. -/
theorem Lasts.of_steady (hm : ∀ p, Steady p m D) (hmodest : Leads Modestly m)
    (hlater : ∀ a {p p' : ConstantPool}, p.Kept p' → D a p → D a p') : Lasts m D := by
  intro p a p' hret hp hp₀
  obtain ⟨hp', hk, hD, -⟩ := (hm p).of_returns hp hret
  exact ⟨hp', hmodest p a p' hret hp₀, hk, fun q hq => hlater a hq hD⟩

end Rules

/-! ## 3. Operations -/

theorem lasts_utf8 {text : String} (htext : ModifiedUtf8.Fits text) :
    Lasts (utf8 text) fun i q => q.text? i = some text :=
  .of_steady (fun _ => steady_utf8 text) (modestly_utf8 htext) fun _ _ _ hk hi => hk.carried.text? hi

theorem lasts_classRef {name : String} (hname : ModifiedUtf8.Fits name) :
    Lasts (classRef name) fun i q => q.Names .classRef i name :=
  .of_steady (fun _ => steady_classRef name) (modestly_classRef hname) fun _ _ _ hk hi =>
    hi.later hk.carried

theorem lasts_loadable {v : Loadable} (hv : v.Short) :
    Lasts (loadable v) fun i q => q.Spells v i :=
  .of_steady (fun _ => steady_loadable v) (modestly_loadable v hv)
    fun i _ _ hk hi => Spells.later hk.carried v i hi

theorem lasts_named {a : Attribute} (ha : ModifiedUtf8.Fits a.name) :
    Lasts (named a) fun r q => q.text? r.name = some a.name ∧ r.payload = a.payload := by
  refine ((lasts_utf8 ha).bind fun i =>
    .pure (D := fun r _ => r = ⟨i, a.payload⟩) fun _ => rfl).imp ?_
  rintro _ q ⟨i, hi, rfl⟩
  exact ⟨hi, rfl⟩

/-- The index of a constant that may be absent. -/
def optional {α : Type} (constant : α → PoolM ConstantIndex) :
    Option α → PoolM (Option ConstantIndex)
  | some v => some <$> constant v
  | none => Pure.pure none

theorem lasts_optional {α : Type} {constant : α → PoolM ConstantIndex}
    {D : α → ConstantIndex → ConstantPool → Prop} {value : Option α}
    (hconstant : ∀ v ∈ value, Lasts (constant v) (D v)) :
    Lasts (optional constant value) fun o q => Option.Rel (fun v i => D v i q) value o := by
  cases value with
  | none => exact .pure fun _ => .none
  | some v => exact (hconstant v rfl).map some fun _ _ h => .some h

end ConstantPool

end ClassFile
