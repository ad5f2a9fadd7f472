/-
# Operations that succeed

An operation on a pool fails only for want of indices, or because it is given the number of a
bootstrap method that is not there.  `Takes p m n` says that `m` succeeds on `p` if `n` indices are
left, and adds no more than `n` of them, nor more bootstrap methods.  `Loadable.slots` is how many a
loadable constant can take, with all the records that it is made of.

A pool is *modest* if it can be written: the length of each string, and the number of arguments of each
bootstrap method, fit two bytes.  Operations with short strings keep it modest.
-/
import ClassFile.Proofs.ConstantPool.Operations

namespace ClassFile

/-! ## 1. What fits two bytes -/

/-- Does the length of a string record fit two bytes? -/
def Constant.Short (c : Constant) : Prop :=
  ∀ text, c = .utf8 text → (ModifiedUtf8.encode text).size ≤ 65535

/-- Does the length of a string fit two bytes? -/
def ModifiedUtf8.Fits (text : String) : Prop := (ModifiedUtf8.encode text).size ≤ 65535

instance : DecidablePred ModifiedUtf8.Fits := fun text =>
  inferInstanceAs (Decidable ((ModifiedUtf8.encode text).size ≤ 65535))

/-- Do the lengths of the strings of a method handle fit? -/
def MethodHandle.Short (h : MethodHandle) : Prop :=
  ModifiedUtf8.Fits h.owner ∧ ModifiedUtf8.Fits h.name ∧ ModifiedUtf8.Fits h.descriptor

/- The strings and tables of a value, and of the arguments of a bootstrap method. -/
mutual

/-- Do the lengths of all strings and the numbers of all arguments in a value fit? -/
def Loadable.Short : Loadable → Prop
  | .integer _ | .float _ | .long _ | .double _ => True
  | .string text | .type text | .methodType text => ModifiedUtf8.Fits text
  | .handle h => h.Short
  | .dynamic name descriptor bootstrap arguments =>
    ModifiedUtf8.Fits name ∧ ModifiedUtf8.Fits descriptor ∧ bootstrap.Short ∧
      arguments.length ≤ 65535 ∧ Loadable.AllShort arguments

/-- Do they fit in several values? -/
def Loadable.AllShort : List Loadable → Prop
  | [] => True
  | value :: values => value.Short ∧ Loadable.AllShort values

end

/- The indices of a value, and of the arguments of a bootstrap method. -/
mutual

/-- The number of indices and bootstrap methods that a loadable constant takes at most. -/
def Loadable.slots : Loadable → Nat
  | .integer _ | .float _ => 1
  | .long _ | .double _ => 2
  | .string _ | .type _ | .methodType _ => 2
  | .handle _ => 7
  | .dynamic _ _ _ arguments => 7 + (Loadable.slotsAll arguments + (1 + 4))

/-- The number of indices and bootstrap methods that several loadable constants take at most. -/
def Loadable.slotsAll : List Loadable → Nat
  | [] => 0
  | value :: values => value.slots + Loadable.slotsAll values

end

namespace ConstantPool

open Constant

/-- The lengths of the strings of a pool, and of the arguments in its bootstrap table, fit. -/
structure Modest (p : ConstantPool) : Prop where
  short : ∀ e ∈ p.records.toList, e.2.Short
  arguments : ∀ e ∈ p.bootstrap.entries, e.arguments.length ≤ 65535

theorem modest_empty : empty.Modest :=
  ⟨by simp [empty], by simp [empty, BootstrapTable.empty]⟩

/-! ## 2. Operations within bounds -/

/-- The second pool has at most so many indices more than the first one, and at most so many bootstrap
methods. -/
structure Within (n : Nat) (p p' : ConstantPool) : Prop where
  next : p'.records.nextOffset ≤ p.records.nextOffset + n
  entries : p'.bootstrap.entries.size ≤ p.bootstrap.entries.size + n
  modest : p.Modest → p'.Modest

variable {p p' p'' : ConstantPool}

theorem Within.refl (n : Nat) (p : ConstantPool) : Within n p p :=
  ⟨Nat.le_add_right _ _, Nat.le_add_right _ _, id⟩

theorem Within.trans {n k : Nat} (h : Within n p p') (h' : Within k p' p'') :
    Within (n + k) p p'' where
  next := by have := h.next; have := h'.next; omega
  entries := by have := h.entries; have := h'.entries; omega
  modest hp := h'.modest (h.modest hp)

/-- With so many indices left, an operation succeeds and adds no more of them. -/
def Takes {α : Type} (p : ConstantPool) (m : PoolM α) (n : Nat) : Prop :=
  p.records.nextOffset + n ≤ 65535 → ∃ a p', Returns m p a p' ∧ Within n p p'

section Rules

variable {α β : Type} {m : PoolM α} {n k : Nat}

theorem Takes.pure (a : α) : Takes p (pure a) 0 :=
  fun _ => ⟨a, p, returns_pure.2 ⟨rfl, rfl⟩, .refl 0 p⟩

theorem Takes.bind {f : α → PoolM β} (hm : Takes p m n)
    (hf : ∀ a p', Returns m p a p' → Takes p' (f a) k) : Takes p (m >>= f) (n + k) := by
  intro hroom
  obtain ⟨a, p₁, hr₁, hw₁⟩ := hm (by omega)
  obtain ⟨b, p₂, hr₂, hw₂⟩ := hf a p₁ hr₁ (by have := hw₁.next; omega)
  exact ⟨b, p₂, returns_bind.2 ⟨a, p₁, hr₁, hr₂⟩, hw₁.trans hw₂⟩

theorem Takes.mono (hm : Takes p m n) (h : n ≤ k) : Takes p m k := by
  intro hroom
  obtain ⟨a, p', hret, hw⟩ := hm (by omega)
  exact ⟨a, p', hret, Nat.add_sub_cancel' h ▸ hw.trans (.refl (k - n) p')⟩

end Rules

/-! ## 3. Records -/

theorem takes_intern {c : Constant} (hc : c.Short) : Takes p (intern c) (width c) := by
  intro hroom
  cases hl : p.lookup.get? c with
  | some i => exact ⟨i, p, by rw [Returns, intern_apply, hl], .refl _ p⟩
  | none =>
    refine ⟨UInt16.ofNat p.records.nextOffset, { p with
      records := (p.records.push c).2
      lookup := (p.lookup.insert c (UInt16.ofNat p.records.nextOffset)).2 }, ?_,
      Nat.mod_le _ _, Nat.le_add_right _ _, fun hp => ⟨fun e he => ?_, hp.arguments⟩⟩
    · rw [Returns, intern_apply, hl]
      dsimp only
      rw [if_neg (Nat.not_lt_of_le hroom)]
    · rw [OffsetTable.toList_push, List.mem_append, List.mem_singleton] at he
      rcases he with he | rfl
      · exact hp.short e he
      · exact hc

theorem takes_utf8 {text : String} (htext : ModifiedUtf8.Fits text) : Takes p (utf8 text) 1 :=
  takes_intern (c := .utf8 text) fun _ h => Constant.utf8.inj h ▸ htext

/-- A record with a text. -/
theorem takes_names (kind : ConstantIndex → Constant) (hkind : ∀ i, width (kind i) = 1)
    (hshort : ∀ i, (kind i).Short) {text : String} (htext : ModifiedUtf8.Fits text) :
    Takes p (do intern (kind (← utf8 text))) (1 + 1) :=
  (takes_utf8 htext).bind fun n _ _ => hkind n ▸ takes_intern (hshort n)

theorem takes_classRef {name : String} (hname : ModifiedUtf8.Fits name) : Takes p (classRef name) 2 :=
  takes_names .classRef (fun _ => rfl) (fun _ _ h => nomatch h) hname

theorem takes_named {a : Attribute} (ha : ModifiedUtf8.Fits a.name) : Takes p (named a) 1 :=
  (takes_utf8 ha).bind fun _ _ _ => .pure _

theorem takes_bootstrapAttribute? : Takes p bootstrapAttribute? 1 := by
  have hname : ModifiedUtf8.Fits "BootstrapMethods" := by decide
  have hget : Takes p (get : PoolM ConstantPool) 0 :=
    fun _ => ⟨p, p, returns_get.2 ⟨rfl, rfl⟩, .refl 0 p⟩
  refine hget.bind (k := 1) fun q _ _ => ?_
  dsimp only
  split
  · exact (Takes.pure _).mono (Nat.zero_le 1)
  · exact (takes_named (a := .bootstrapMethods _) hname).bind fun _ _ _ => .pure _

theorem takes_nameAndType {name descriptor : String} (hname : ModifiedUtf8.Fits name)
    (hdescriptor : ModifiedUtf8.Fits descriptor) :
    Takes p (nameAndType name descriptor) (1 + (1 + 1)) :=
  (takes_utf8 hname).bind fun _ _ _ => (takes_utf8 hdescriptor).bind fun _ _ _ =>
    takes_intern fun _ h => nomatch h

theorem takes_methodHandle {h : MethodHandle} (hh : h.Short) :
    Takes p (methodHandle h) (2 + (3 + 1) + 1) := by
  obtain ⟨howner, hname, hdescriptor⟩ := hh
  have hclass : ∀ {p : ConstantPool}, Takes p (classRef h.owner) 2 := takes_classRef howner
  have hmember : ∀ {p : ConstantPool}, Takes p (nameAndType h.name h.descriptor) 3 :=
    takes_nameAndType hname hdescriptor
  unfold methodHandle
  split
  · have hfield : Takes p (fieldRef h.owner h.name h.descriptor) (2 + (3 + 1)) :=
      hclass.bind fun _ _ _ => hmember.bind fun _ _ _ => takes_intern fun _ h => nomatch h
    exact hfield.bind fun _ _ _ => takes_intern fun _ h => nomatch h
  · have hmethod : Takes p (methodRef h.owner h.name h.descriptor h.interface) (2 + (3 + 1)) := by
      refine hclass.bind fun o _ _ => hmember.bind fun m _ _ => ?_
      have hwidth : width (Constant.methodRef o m h.interface) = 1 := by cases h.interface <;> rfl
      exact hwidth ▸ takes_intern fun _ h => nomatch h
    exact hmethod.bind fun _ _ _ => takes_intern fun _ h => nomatch h

/-! ## 4. Loadable constants -/

theorem takes_internBootstrap {e : BootstrapEntry} (he : e.arguments.length ≤ 65535)
    (hp : p.bootstrap.Numbered) : Takes p (internBootstrap e) 1 := by
  intro _
  refine ⟨_, _, internBootstrap_apply e p, Nat.le_add_right _ _, ?_, fun hm => ⟨hm.short, ?_⟩⟩
  · show (p.bootstrap.intern e).2.entries.size ≤ _
    cases hk : p.bootstrap.lookup.get? e with
    | some k =>
      rw [BootstrapTable.intern_of_get? hk]
      split
      · exact Nat.le_of_eq (Array.size_push _)
      · exact Nat.le_add_right _ _
    | none =>
      rw [BootstrapTable.intern_of_new hk]
      exact Nat.le_of_eq (Array.size_push _)
  · obtain ⟨-, -, -, hentries⟩ := hp.intern e
    intro x hx
    rcases hentries x hx with hx | rfl
    · exact hm.arguments x hx
    · exact he

/-- A dynamic constant of a bootstrap method that is there. -/
theorem takes_dynamic {name descriptor : String} (hname : ModifiedUtf8.Fits name)
    (hdescriptor : ModifiedUtf8.Fits descriptor) {b : UInt16}
    (hb : b.toNat < p.bootstrap.entries.size) :
    Takes p (dynamic name descriptor b) (0 + (3 + 1)) := by
  have hcheck : Takes p (checkBootstrap b) 0 := fun _ =>
    ⟨(), p, by rw [Returns, checkBootstrap_apply, if_pos hb], .refl 0 p⟩
  exact hcheck.bind fun _ _ _ => (takes_nameAndType hname hdescriptor).bind fun _ _ _ =>
    takes_intern (by rintro _ ⟨⟩)

theorem SpellsAll.length_eq {vs : List Loadable} {is : List ConstantIndex} (h : p.SpellsAll vs is) :
    is.length = vs.length := by
  induction vs generalizing is with
  | nil =>
    simp only [SpellsAll] at h
    rw [h]
    rfl
  | cons v vs ih =>
    simp only [SpellsAll] at h
    obtain ⟨i, rest, rfl, -, hrest⟩ := h
    exact congrArg Nat.succ (ih hrest)

mutual

/-- **A loadable constant gets an index** if there are as many left as it can take. -/
theorem takes_loadable : ∀ (v : Loadable) {p : ConstantPool}, p.Coherent → v.Short →
    Takes p (loadable v) v.slots
  | .integer _, _, _, _ | .float _, _, _, _ | .long _, _, _, _ | .double _, _, _, _ => by
    simp only [loadable, Loadable.slots]
    exact takes_intern fun _ h => nomatch h
  | .string _, _, _, hv => by
    simp only [loadable, Loadable.slots]
    exact takes_names .string (fun _ => rfl) (fun _ _ h => nomatch h) hv
  | .type _, _, _, hv => by
    simp only [loadable, Loadable.slots]
    exact takes_names .classRef (fun _ => rfl) (fun _ _ h => nomatch h) hv
  | .methodType _, _, _, hv => by
    simp only [loadable, Loadable.slots]
    exact takes_names .methodType (fun _ => rfl) (fun _ _ h => nomatch h) hv
  | .handle h, _, _, hv => by
    simp only [loadable, Loadable.slots]
    exact takes_methodHandle hv
  | .dynamic name descriptor bootstrap arguments, p, hp, hv => by
    obtain ⟨hname, hdescriptor, hbootstrap, hlength, harguments⟩ := hv
    simp only [loadable, Loadable.slots]
    refine (takes_methodHandle hbootstrap).bind fun handle p₁ hr₁ => ?_
    obtain ⟨hp₁, -⟩ := (steady_methodHandle bootstrap).of_returns hp hr₁
    refine (takes_loadables [] arguments hp₁ harguments).bind fun indices p₂ hr₂ => ?_
    obtain ⟨hp₂, -, ⟨_, rfl, hindices⟩, -⟩ := (steady_loadables [] arguments).of_returns hp₁ hr₂
    have hcount : indices.length ≤ 65535 := hindices.length_eq ▸ hlength
    refine (takes_internBootstrap hcount hp₂.bootstrap).bind (k := 4) fun b p₃ hr₃ => ?_
    obtain ⟨hp₃, -, hb, -⟩ := (steady_internBootstrap hindices.placed).of_returns hp₂ hr₃
    exact takes_dynamic hname hdescriptor (hp₃.bootstrap.lookup_lt _ _ hb)

theorem takes_loadables (done : List ConstantIndex) : ∀ (vs : List Loadable) {p : ConstantPool},
    p.Coherent → Loadable.AllShort vs → Takes p (loadables done vs) (Loadable.slotsAll vs)
  | [], _, _, _ => by
    simp only [loadables, Loadable.slotsAll]
    exact .pure _
  | v :: vs, p, hp, hvs => by
    simp only [loadables, Loadable.slotsAll]
    refine (takes_loadable v hp hvs.1).bind fun i p₁ hr₁ => ?_
    obtain ⟨hp₁, -⟩ := (steady_loadable v).of_returns hp hr₁
    exact takes_loadables (i :: done) vs hp₁ hvs.2

end

/-- A dynamic constant with another one among its arguments. -/
def nestedConstant : Loadable :=
  .dynamic "outer" "J" ⟨.invokeStatic, "T", "make", "()J", false⟩
    [.dynamic "inner" "F" ⟨.getStatic, "T", "f", "F", false⟩ [], .long 7]

/-- Asked for first, it gets an index. -/
theorem loadable_nestedConstant :
    ∃ i p, Returns (loadable nestedConstant) empty i p ∧ Within nestedConstant.slots empty p := by
  refine takes_loadable nestedConstant coherent_empty ?_ ?_
  · simp only [nestedConstant, Loadable.Short, Loadable.AllShort, MethodHandle.Short,
      ModifiedUtf8.Fits]
    decide +kernel
  · simp [nestedConstant, Loadable.slots, Loadable.slotsAll, empty, OffsetTable.startingAt]

end ConstantPool

end ClassFile
