/-
# What an index from a pool stands for

`Spells p v i` says that the record at `i` spells out the loadable constant `v`, through all the
records and bootstrap methods that it refers to; `Names`, `IsNameAndType`, `IsField`, `IsMethod` and
`IsHandle` say it for the records of which it is made.  All of them last as long as the pool is kept.

Each operation on a pool is steady, and the index that it gives stands for what was asked for.
-/
import ClassFile.Proofs.ConstantPool.Coherent

namespace ClassFile.ConstantPool

open Constant

variable {p p' : ConstantPool}

/-! ## 1. Records that stand for something -/

/-- The record is of a kind that has a text, and this is the text. -/
def Names (p : ConstantPool) (kind : ConstantIndex → Constant) (i : ConstantIndex)
    (text : String) : Prop :=
  ∃ n, p.get? i = some (kind n) ∧ p.text? n = some text

/-- The record has this name and this descriptor. -/
def IsNameAndType (p : ConstantPool) (i : ConstantIndex) (name descriptor : String) : Prop :=
  ∃ n d, p.get? i = some (.nameAndType n d) ∧ p.text? n = some name ∧ p.text? d = some descriptor

/-- The record refers to this field. -/
def IsField (p : ConstantPool) (i : ConstantIndex) (owner name descriptor : String) : Prop :=
  ∃ o m, p.get? i = some (.fieldRef o m) ∧ p.Names .classRef o owner ∧
    p.IsNameAndType m name descriptor

/-- The record refers to this method. -/
def IsMethod (p : ConstantPool) (i : ConstantIndex) (owner name descriptor : String)
    (interface : Bool) : Prop :=
  ∃ o m, p.get? i = some (.methodRef o m interface) ∧ p.Names .classRef o owner ∧
    p.IsNameAndType m name descriptor

/-- The record is this method handle; of a field, it does not say whether it is one of an
interface. -/
def IsHandle (p : ConstantPool) (i : ConstantIndex) (h : MethodHandle) : Prop :=
  ∃ m, p.get? i = some (.methodHandle h.kind m) ∧
    if h.kind.isField then p.IsField m h.owner h.name h.descriptor
    else p.IsMethod m h.owner h.name h.descriptor h.interface

/- The records of a value, and of the arguments of a bootstrap method. -/
mutual

/-- The record spells out this value. -/
def Spells (p : ConstantPool) : Loadable → ConstantIndex → Prop
  | .integer value, i => p.get? i = some (.integer value)
  | .float value, i => p.get? i = some (.float value)
  | .long value, i => p.get? i = some (.long value)
  | .double value, i => p.get? i = some (.double value)
  | .string text, i => p.Names .string i text
  | .type name, i => p.Names .classRef i name
  | .methodType descriptor, i => p.Names .methodType i descriptor
  | .handle h, i => p.IsHandle i h
  | .dynamic name descriptor bootstrap arguments, i =>
    ∃ b m handle indices, p.get? i = some (.dynamic b m) ∧ p.IsNameAndType m name descriptor ∧
      p.bootstrap.lookup.get? ⟨handle, indices⟩ = some b ∧ p.IsHandle handle bootstrap ∧
      p.SpellsAll arguments indices

/-- The records spell out these values. -/
def SpellsAll (p : ConstantPool) : List Loadable → List ConstantIndex → Prop
  | [], indices => indices = []
  | value :: values, indices =>
    ∃ i rest, indices = i :: rest ∧ p.Spells value i ∧ p.SpellsAll values rest

end

/-- The entry of the bootstrap table spells out this method with these arguments. -/
def Bootstraps (p : ConstantPool) (k : UInt16) (bootstrap : MethodHandle)
    (arguments : List Loadable) : Prop :=
  ∃ handle indices, p.bootstrap.lookup.get? ⟨handle, indices⟩ = some k ∧
    p.IsHandle handle bootstrap ∧ p.SpellsAll arguments indices

/-! ## 2. They last -/

/-- The second pool has the records of the first one, and remembers its numbers of bootstrap methods. -/
structure Carried (p p' : ConstantPool) : Prop where
  record : ∀ i c, p.get? i = some c → p'.get? i = some c
  number : ∀ e k, p.bootstrap.lookup.get? e = some k → p'.bootstrap.lookup.get? e = some k

theorem Kept.carried (hk : p.Kept p') : p.Carried p' := ⟨hk.record, hk.bootstrap.2⟩

section Later

variable {i : ConstantIndex}

theorem Carried.text? (hk : p.Carried p') {text : String} (hi : p.text? i = some text) :
    p'.text? i = some text := by
  rw [text?_eq_some_iff] at hi ⊢
  exact hk.record _ _ hi

theorem Names.later (hk : p.Carried p') {kind : ConstantIndex → Constant} {text : String}
    (hi : p.Names kind i text) : p'.Names kind i text :=
  have ⟨n, hn, htext⟩ := hi
  ⟨n, hk.record _ _ hn, hk.text? htext⟩

theorem IsNameAndType.later (hk : p.Carried p') {name descriptor : String}
    (hi : p.IsNameAndType i name descriptor) : p'.IsNameAndType i name descriptor :=
  have ⟨n, d, hget, hname, hdescriptor⟩ := hi
  ⟨n, d, hk.record _ _ hget, hk.text? hname, hk.text? hdescriptor⟩

theorem IsField.later (hk : p.Carried p') {owner name descriptor : String}
    (hi : p.IsField i owner name descriptor) : p'.IsField i owner name descriptor :=
  have ⟨o, m, hget, ho, hm⟩ := hi
  ⟨o, m, hk.record _ _ hget, ho.later hk, hm.later hk⟩

theorem IsMethod.later (hk : p.Carried p') {owner name descriptor : String} {interface : Bool}
    (hi : p.IsMethod i owner name descriptor interface) :
    p'.IsMethod i owner name descriptor interface :=
  have ⟨o, m, hget, ho, hm⟩ := hi
  ⟨o, m, hk.record _ _ hget, ho.later hk, hm.later hk⟩

theorem IsHandle.later (hk : p.Carried p') {h : MethodHandle} (hi : p.IsHandle i h) :
    p'.IsHandle i h := by
  obtain ⟨m, hget, hm⟩ := hi
  refine ⟨m, hk.record _ _ hget, ?_⟩
  split at hm
  · rename_i hfield
    rw [if_pos hfield]
    exact hm.later hk
  · rename_i hfield
    rw [if_neg hfield]
    exact hm.later hk

mutual

theorem Spells.later (hk : p.Carried p') : ∀ (v : Loadable) (i : ConstantIndex), p.Spells v i →
    p'.Spells v i
  | .integer _, _, hi | .float _, _, hi | .long _, _, hi | .double _, _, hi => by
    simp only [Spells] at hi ⊢
    exact hk.record _ _ hi
  | .string _, _, hi | .type _, _, hi | .methodType _, _, hi => by
    simp only [Spells] at hi ⊢
    exact hi.later hk
  | .handle _, _, hi => by
    simp only [Spells] at hi ⊢
    exact hi.later hk
  | .dynamic _ _ _ arguments, _, hi => by
    simp only [Spells] at hi ⊢
    obtain ⟨b, m, handle, indices, hget, hm, hb, hhandle, harguments⟩ := hi
    exact ⟨b, m, handle, indices, hk.record _ _ hget, hm.later hk, hk.number _ _ hb,
      hhandle.later hk, SpellsAll.later hk arguments indices harguments⟩

theorem SpellsAll.later (hk : p.Carried p') : ∀ (vs : List Loadable) (is : List ConstantIndex),
    p.SpellsAll vs is → p'.SpellsAll vs is
  | [], _, his => by
    simp only [SpellsAll] at his ⊢
    exact his
  | v :: vs, _, his => by
    simp only [SpellsAll] at his ⊢
    obtain ⟨i, rest, rfl, hi, hrest⟩ := his
    exact ⟨i, rest, rfl, Spells.later hk v i hi, SpellsAll.later hk vs rest hrest⟩

end

theorem Bootstraps.later (hk : p.Carried p') {k : UInt16} {h : MethodHandle} {vs : List Loadable}
    (hb : p.Bootstraps k h vs) : p'.Bootstraps k h vs :=
  have ⟨handle, indices, hget, hhandle, hvs⟩ := hb
  ⟨handle, indices, hk.number _ _ hget, hhandle.later hk, SpellsAll.later hk vs _ hvs⟩

end Later

/-! ## 3. What other records may refer to -/

section Fits

variable {i j : ConstantIndex}

theorem plays_utf8 {text : String} (hi : p.text? i = some text) : p.Plays i .utf8 :=
  ⟨_, text?_eq_some_iff.1 hi, rfl⟩

theorem Names.plays {name : String} (hi : p.Names .classRef i name) : p.Plays i .classRef :=
  have ⟨_, hget, _⟩ := hi
  ⟨_, hget, rfl⟩

theorem IsNameAndType.plays {name descriptor : String} (hi : p.IsNameAndType i name descriptor) :
    p.Plays i .nameAndType :=
  have ⟨_, _, hget, _⟩ := hi
  ⟨_, hget, rfl⟩

/-- A record that refers to no other one. -/
theorem fits_literal {c : Constant} (hc : c.references = []) (hb : c.bootstrap? = none) :
    p.Fits c :=
  ⟨by simp [hc], by simp [hb]⟩

/-- A record that refers to one other record. -/
theorem fits_one {c : Constant} {role : Role} (hc : c.references = [(i, role)])
    (hb : c.bootstrap? = none) (hi : p.Plays i role) : p.Fits c :=
  ⟨by simpa [hc] using hi, by simp [hb]⟩

/-- A record that refers to two other records. -/
theorem fits_two {c : Constant} {role role' : Role} (hc : c.references = [(i, role), (j, role')])
    (hb : c.bootstrap? = none) (hi : p.Plays i role) (hj : p.Plays j role') : p.Fits c :=
  ⟨by simpa [hc] using ⟨hi, hj⟩, by simp [hb]⟩

theorem Names.placed {kind : ConstantIndex → Constant} {text : String} (hi : p.Names kind i text) :
    ∃ c, p.get? i = some c :=
  have ⟨_, hget, _⟩ := hi
  ⟨_, hget⟩

theorem IsNameAndType.placed {name descriptor : String} (hi : p.IsNameAndType i name descriptor) :
    ∃ c, p.get? i = some c :=
  have ⟨_, _, hget, _⟩ := hi
  ⟨_, hget⟩

theorem IsField.placed {owner name descriptor : String} (hi : p.IsField i owner name descriptor) :
    ∃ c, p.get? i = some c :=
  have ⟨_, _, hget, _⟩ := hi
  ⟨_, hget⟩

theorem IsMethod.placed {owner name descriptor : String} {interface : Bool}
    (hi : p.IsMethod i owner name descriptor interface) : ∃ c, p.get? i = some c :=
  have ⟨_, _, hget, _⟩ := hi
  ⟨_, hget⟩

theorem IsHandle.placed {h : MethodHandle} (hi : p.IsHandle i h) : ∃ c, p.get? i = some c :=
  have ⟨_, hget, _⟩ := hi
  ⟨_, hget⟩

theorem Spells.placed : ∀ {v : Loadable} {i : ConstantIndex}, p.Spells v i →
    ∃ c, p.get? i = some c
  | .integer _, _, hi | .float _, _, hi | .long _, _, hi | .double _, _, hi => by
    simp only [Spells] at hi
    exact ⟨_, hi⟩
  | .string _, _, hi | .type _, _, hi | .methodType _, _, hi | .handle _, _, hi => by
    simp only [Spells] at hi
    exact hi.placed
  | .dynamic _ _ _ _, _, hi => by
    simp only [Spells] at hi
    obtain ⟨_, _, _, _, hget, -⟩ := hi
    exact ⟨_, hget⟩

theorem SpellsAll.placed : ∀ {vs : List Loadable} {is : List ConstantIndex}, p.SpellsAll vs is →
    ∀ i ∈ is, ∃ c, p.get? i = some c
  | [], _, his => by
    simp only [SpellsAll] at his
    simp [his]
  | _ :: _, _, his => by
    simp only [SpellsAll] at his
    obtain ⟨i, rest, rfl, hi, hrest⟩ := his
    intro j hj
    rcases List.mem_cons.1 hj with rfl | hj
    · exact hi.placed
    · exact hrest.placed j hj

end Fits

/-! ## 4. The operations -/

theorem steady_utf8 (text : String) :
    Steady p (utf8 text) fun i p' => p'.text? i = some text :=
  (steady_intern (fits_literal rfl rfl)).imp fun _ _ _ hi => text?_eq_some_iff.2 hi

/-- The operations that give a record with a text are alike. -/
theorem steady_names {kind : ConstantIndex → Constant}
    (hkind : ∀ i, (kind i).references = [(i, .utf8)]) (hb : ∀ i, (kind i).bootstrap? = none)
    (text : String) :
    Steady p (do intern (kind (← utf8 text))) fun i p' => p'.Names kind i text :=
  (steady_utf8 text).bind fun n _ _ _ hn =>
    (steady_intern (fits_one (hkind n) (hb n) (plays_utf8 hn))).imp fun _ _ hk hi =>
      ⟨n, hi, hk.carried.text? hn⟩

theorem steady_classRef (name : String) :
    Steady p (classRef name) fun i p' => p'.Names .classRef i name :=
  steady_names (fun _ => rfl) (fun _ => rfl) name

theorem steady_string (text : String) :
    Steady p (string text) fun i p' => p'.Names .string i text :=
  steady_names (fun _ => rfl) (fun _ => rfl) text

theorem steady_methodType (descriptor : String) :
    Steady p (methodType descriptor) fun i p' => p'.Names .methodType i descriptor :=
  steady_names (fun _ => rfl) (fun _ => rfl) descriptor

theorem steady_module (name : String) :
    Steady p (module name) fun i p' => p'.Names .module i name :=
  steady_names (fun _ => rfl) (fun _ => rfl) name

theorem steady_package (name : String) :
    Steady p (package name) fun i p' => p'.Names .package i name :=
  steady_names (fun _ => rfl) (fun _ => rfl) name

theorem steady_nameAndType (name descriptor : String) :
    Steady p (nameAndType name descriptor) fun i p' => p'.IsNameAndType i name descriptor := by
  refine (steady_utf8 name).bind fun n p₁ _ _ hn => ?_
  refine (steady_utf8 descriptor).bind fun d p₂ _ hk₂ hd => ?_
  have hn := hk₂.carried.text? hn
  exact (steady_intern (fits_two rfl rfl (plays_utf8 hn) (plays_utf8 hd))).imp
    fun _ _ hk hi => ⟨n, d, hi, hk.carried.text? hn, hk.carried.text? hd⟩

theorem steady_fieldRef (owner name descriptor : String) :
    Steady p (fieldRef owner name descriptor) fun i p' => p'.IsField i owner name descriptor := by
  refine (steady_classRef owner).bind fun o p₁ _ _ ho => ?_
  refine (steady_nameAndType name descriptor).bind fun m p₂ _ hk₂ hm => ?_
  have ho := ho.later hk₂.carried
  exact (steady_intern (fits_two rfl rfl ho.plays hm.plays)).imp
    fun _ _ hk hi => ⟨o, m, hi, ho.later hk.carried, hm.later hk.carried⟩

theorem steady_methodRef (owner name descriptor : String) (interface : Bool) :
    Steady p (methodRef owner name descriptor interface)
      fun i p' => p'.IsMethod i owner name descriptor interface := by
  refine (steady_classRef owner).bind fun o p₁ _ _ ho => ?_
  refine (steady_nameAndType name descriptor).bind fun m p₂ _ hk₂ hm => ?_
  have ho := ho.later hk₂.carried
  exact (steady_intern (fits_two rfl rfl ho.plays hm.plays)).imp
    fun _ _ hk hi => ⟨o, m, hi, ho.later hk.carried, hm.later hk.carried⟩

theorem steady_methodHandle (h : MethodHandle) :
    Steady p (methodHandle h) fun i p' => p'.IsHandle i h := by
  unfold methodHandle
  by_cases hfield : h.kind.isField = true
  · rw [if_pos hfield]
    refine (steady_fieldRef h.owner h.name h.descriptor).bind fun m p₁ _ _ hm => ?_
    have hplays : p₁.Plays m (memberRole h.kind) := by
      obtain ⟨_, _, hget, -⟩ := hm
      exact ⟨_, hget, by simp [memberRole, hfield, Role.accepts]⟩
    refine (steady_intern (fits_one rfl rfl hplays)).imp fun _ _ hk hi => ⟨m, hi, ?_⟩
    rw [if_pos hfield]
    exact hm.later hk.carried
  · rw [if_neg hfield]
    refine (steady_methodRef h.owner h.name h.descriptor h.interface).bind fun m p₁ _ _ hm => ?_
    have hplays : p₁.Plays m (memberRole h.kind) := by
      obtain ⟨_, _, hget, -⟩ := hm
      exact ⟨_, hget, by simp [memberRole, hfield, Role.accepts]⟩
    refine (steady_intern (fits_one rfl rfl hplays)).imp fun _ _ hk hi => ⟨m, hi, ?_⟩
    rw [if_neg hfield]
    exact hm.later hk.carried

/-- A record that refers to a name and type and to an entry of the bootstrap table. -/
theorem fits_bootstrap {c : Constant} {b : UInt16} {m : ConstantIndex} {name descriptor : String}
    (hc : c.references = [(m, .nameAndType)]) (hb : c.bootstrap? = some b)
    (hm : p.IsNameAndType m name descriptor) (hlt : b.toNat < p.bootstrap.entries.size) :
    p.Fits c := by
  refine ⟨by simpa [hc] using hm.plays, fun b' hb' => ?_⟩
  rw [hb] at hb'
  cases hb'
  exact hlt

/-- The operations that give a record with a bootstrap method are alike. -/
theorem steady_withBootstrap {kind : UInt16 → ConstantIndex → Constant}
    (hkind : ∀ b m, (kind b m).references = [(m, .nameAndType)])
    (hb : ∀ b m, (kind b m).bootstrap? = some b) (name descriptor : String) (b : UInt16) :
    Steady p (do
        checkBootstrap b
        let member ← nameAndType name descriptor
        intern (kind b member))
      fun i p' => ∃ m, p'.get? i = some (kind b m) ∧ p'.IsNameAndType m name descriptor := by
  refine (steady_checkBootstrap b).bind fun _ p₁ _ _ hlt => ?_
  refine (steady_nameAndType name descriptor).bind fun m p₂ _ hk₂ hm => ?_
  have hlt := Nat.lt_of_lt_of_le hlt (BootstrapTable.size_le hk₂.bootstrap)
  exact (steady_intern (fits_bootstrap (hkind b m) (hb b m) hm hlt)).imp
    fun _ _ hk hi => ⟨m, hi, hm.later hk.carried⟩

theorem steady_dynamic (name descriptor : String) (b : UInt16) :
    Steady p (dynamic name descriptor b)
      fun i p' => ∃ m, p'.get? i = some (.dynamic b m) ∧ p'.IsNameAndType m name descriptor :=
  steady_withBootstrap (fun _ _ => rfl) (fun _ _ => rfl) name descriptor b

theorem steady_invokeDynamic (name descriptor : String) (b : UInt16) :
    Steady p (invokeDynamic name descriptor b)
      fun i p' => ∃ m, p'.get? i = some (.invokeDynamic b m) ∧
        p'.IsNameAndType m name descriptor :=
  steady_withBootstrap (fun _ _ => rfl) (fun _ _ => rfl) name descriptor b

mutual

/-- **A loadable constant gets an index that spells it out.** -/
theorem steady_loadable : ∀ (v : Loadable) {p : ConstantPool},
    Steady p (loadable v) fun i p' => p'.Spells v i
  | .integer _, _ | .float _, _ | .long _, _ | .double _, _ => by
    simp only [loadable, Spells]
    exact steady_intern (fits_literal rfl rfl)
  | .string text, _ => by
    simp only [loadable, Spells]
    exact steady_string text
  | .type name, _ => by
    simp only [loadable, Spells]
    exact steady_classRef name
  | .methodType descriptor, _ => by
    simp only [loadable, Spells]
    exact steady_methodType descriptor
  | .handle h, _ => by
    simp only [loadable, Spells]
    exact steady_methodHandle h
  | .dynamic name descriptor bootstrap arguments, _ => by
    simp only [loadable, Spells]
    refine (steady_methodHandle bootstrap).bind fun handle p₁ _ _ hhandle => ?_
    refine (steady_loadables [] arguments).bind fun indices p₂ _ hk₂ hindices => ?_
    obtain ⟨_, rfl, hindices⟩ := hindices
    refine (steady_internBootstrap hindices.placed).bind fun b p₃ _ hk₃ hb => ?_
    refine (steady_dynamic name descriptor b).imp fun i p₄ hk₄ hi => ?_
    obtain ⟨m, hget, hm⟩ := hi
    exact ⟨b, m, handle, indices, hget, hm, hk₄.bootstrap.2 _ _ hb,
      hhandle.later (hk₂.trans (hk₃.trans hk₄)).carried,
      SpellsAll.later (hk₃.trans hk₄).carried arguments indices hindices⟩

theorem steady_loadables (done : List ConstantIndex) : ∀ (vs : List Loadable) {p : ConstantPool},
    Steady p (loadables done vs) fun is p' =>
      ∃ rest, is = done.reverse ++ rest ∧ p'.SpellsAll vs rest
  | [], _ => by
    simp only [loadables, SpellsAll]
    exact .pure ⟨[], (List.append_nil _).symm, rfl⟩
  | v :: vs, _ => by
    simp only [loadables, SpellsAll]
    refine (steady_loadable v).bind fun i p₁ _ _ hi => ?_
    refine (steady_loadables (i :: done) vs).imp fun is p₂ hk₂ his => ?_
    obtain ⟨rest, rfl, hrest⟩ := his
    exact ⟨i :: rest, by simp, i, rest, rfl, Spells.later hk₂.carried v i hi, hrest⟩

end

theorem steady_bootstrapMethod (h : MethodHandle) (arguments : List Loadable) :
    Steady p (bootstrapMethod h arguments) fun k p' => p'.Bootstraps k h arguments := by
  refine (steady_methodHandle h).bind fun handle p₁ _ _ hhandle => ?_
  refine (steady_loadables [] arguments).bind fun indices p₂ _ hk₂ hindices => ?_
  obtain ⟨_, rfl, hindices⟩ := hindices
  exact (steady_internBootstrap hindices.placed).imp fun k p₃ hk₃ hk => ⟨handle, indices, hk,
    hhandle.later (hk₂.trans hk₃).carried, SpellsAll.later hk₃.carried arguments indices hindices⟩

theorem steady_named (a : Attribute) :
    Steady p (named a) fun r p' => p'.text? r.name = some a.name ∧ r.payload = a.payload :=
  (steady_utf8 a.name).bind fun _ _ _ _ hi => .pure ⟨hi, rfl⟩

end ClassFile.ConstantPool
