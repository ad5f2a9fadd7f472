/-
# Numbers of bootstrap methods

The entries of a bootstrap table are numbered in the order in which they are placed, with sixteen bits.
Whether an entry is new is told from the number that the interning table answers with: an entry is
placed if its number is the next one.

After any requests, every number that a table gives designates the entry that it was given for, exactly
if at most 65536 different entries have been asked for (`run_designates`).  With one more, numbers come
round, and two entries have the same one.  Up to then an entry is where its number says, stays there,
and calls that need different entries get different numbers.
-/
import ClassFile.Proofs.ConstantPool.Interning
import ClassFile.Proofs.ConstantPool.Requests
import Mathlib.Data.List.Perm.Subperm

namespace ClassFile

/-! ## 1. Tables whose numbers designate -/

theorem InternTable.length_toList {K V : Type} (t : InternTable K V) : t.toList.length = t.size := by
  simp [toList, size]

namespace BootstrapTable

variable {t : BootstrapTable}

/-- Each number is where the entry that it was given for stands. -/
def Designating (t : BootstrapTable) : Prop :=
  ∀ (e : BootstrapEntry) (k : UInt16), t.lookup.get? e = some k → t.entries[k.toNat]? = some e

/-- Numbers that designate are different for different entries, so there are no more of these than
numbers. -/
theorem Designating.size_le (hlinked : t.lookup.Linked) (ht : t.Designating) :
    t.lookup.size ≤ 65536 := by
  have hkeys := hlinked.keys_nodup
  have hinj : ∀ x ∈ t.lookup.toList, ∀ y ∈ t.lookup.toList, x.2.toNat = y.2.toNat → x = y := by
    rintro ⟨e, k⟩ he ⟨e', k'⟩ he' hk
    have hat := ht e k (hlinked.get?_eq_some_iff.2 he)
    have hat' := ht e' k' (hlinked.get?_eq_some_iff.2 he')
    dsimp only at hk
    rw [hk, hat', Option.some.injEq] at hat
    exact Prod.ext hat.symm (UInt16.toNat_inj.1 hk)
  have hnodup : (t.lookup.toList.map fun x => x.2.toNat).Nodup := hkeys.of_map.map_on hinj
  have hsub : (t.lookup.toList.map fun x => x.2.toNat) ⊆ List.range 65536 := by
    intro k hk
    obtain ⟨x, -, rfl⟩ := List.mem_map.1 hk
    exact List.mem_range.2 x.2.toNat_lt
  have hlength := (List.subperm_of_subset hnodup hsub).length_le
  rwa [List.length_map, InternTable.length_toList, List.length_range] at hlength

/-- **What interning preserves**: entries are placed twice only after 65536 different ones, and up to
then numbers designate. -/
structure Counted (t : BootstrapTable) : Prop extends t.Numbered where
  full : min t.entries.size 65536 ≤ t.lookup.size
  designating : t.lookup.size ≤ 65536 → t.Designating

theorem counted_empty : empty.Counted where
  toNumbered := numbered_empty
  full := by decide
  designating _ e k hk := by
    have hnone : empty.lookup.get? e = none := InternTable.get?_empty e
    rw [hnone] at hk
    cases hk

theorem size_insert_of_new (hlinked : t.lookup.Linked) {e : BootstrapEntry}
    (he : t.lookup.get? e = none) (k : UInt16) : (t.lookup.insert e k).2.size = t.lookup.size + 1 := by
  rw [← InternTable.length_toList, hlinked.toList_insert, he, if_neg (by simp), List.length_append,
    InternTable.length_toList]
  rfl

/-- An entry that has a number is placed again only when numbers have come round. -/
theorem Counted.place_again (ht : t.Counted) {e : BootstrapEntry}
    (he : t.lookup.get? e = some (UInt16.ofNat t.entries.size)) : 65536 ≤ t.lookup.size := by
  have hlt := ht.lookup_lt e _ he
  rw [UInt16.toNat_ofNat'] at hlt
  have := ht.full
  omega

theorem Counted.intern (ht : t.Counted) (e : BootstrapEntry) : (t.intern e).2.Counted := by
  have hnumbered := (ht.toNumbered.intern e).1
  refine { hnumbered with full := ?_, designating := ?_ }
  · cases hk : t.lookup.get? e with
    | some k =>
      rw [intern_of_get? hk]
      split
      · rename_i hnext
        have := ht.place_again (hnext ▸ hk)
        dsimp only
        omega
      · exact ht.full
    | none =>
      rw [intern_of_new hk]
      dsimp only
      rw [size_insert_of_new ht.linked hk, Array.size_push]
      have := ht.full
      omega
  · intro hfew x j hj
    cases hk : t.lookup.get? e with
    | some k =>
      rw [intern_of_get? hk] at hfew hj ⊢
      split at hfew <;> split at hj <;> try contradiction
      · rename_i hnext _
        rw [if_pos hnext]
        exact getElem?_push_of_some (ht.designating hfew x j hj)
      · rename_i hnext _
        rw [if_neg hnext]
        exact ht.designating hfew x j hj
    | none =>
      rw [intern_of_new hk] at hfew hj ⊢
      dsimp only at hfew hj ⊢
      rw [size_insert_of_new ht.linked hk] at hfew
      rw [ht.linked.get?_insert, hk, Option.getD_none] at hj
      split at hj
      · rename_i hx
        -- fewer than 65536 different entries, so fewer than 65536 places: the number is the place
        have hsize : t.entries.size < 65536 := by have := ht.full; omega
        cases hj
        rw [UInt16.toNat_ofNat_of_lt' hsize, Array.getElem?_push_size, hx]
      · exact getElem?_push_of_some (ht.designating (by omega) x j hj)

theorem Numbered.lookup_size_le (ht : t.Numbered) (hfew : t.entries.size ≤ 65536) :
    t.lookup.size ≤ 65536 :=
  Designating.size_le ht.linked fun e k => (ht.lookup_iff hfew e k).1

theorem Counted.designating_iff (ht : t.Counted) : t.Designating ↔ t.lookup.size ≤ 65536 :=
  ⟨fun h => h.size_le ht.linked, ht.designating⟩

end BootstrapTable

namespace ConstantPool

open Constant

/-! ## 2. Operations on pools -/

/-- An operation that keeps a bootstrap table counted, also when it fails. -/
def KeepsCount {α : Type} (m : PoolM α) : Prop :=
  Holds (fun p => p.bootstrap.Counted) m (fun _ p => p.bootstrap.Counted)
    fun p => p.bootstrap.Counted

section Rules

variable {α β : Type} {m : PoolM α}

theorem KeepsCount.pure (a : α) : KeepsCount (pure a) := fun _ hp => hp

theorem KeepsCount.bind {f : α → PoolM β} (hm : KeepsCount m) (hf : ∀ a, KeepsCount (f a)) :
    KeepsCount (m >>= f) := Holds.bind hm hf

theorem KeepsCount.map (f : α → β) (hm : KeepsCount m) : KeepsCount (f <$> m) := by
  rw [map_eq_pure_bind]
  exact hm.bind fun a => .pure (f a)

/-- An operation that does not touch the bootstrap table. -/
theorem KeepsCount.of_eq (hm : ∀ p, (m p : Except Error α × ConstantPool).2.bootstrap = p.bootstrap) :
    KeepsCount m := by
  intro p hp
  have hmp : (m p : Except Error α × ConstantPool).2.bootstrap.Counted := hm p ▸ hp
  rcases h : (m p : Except Error α × ConstantPool) with ⟨_ | _, p'⟩ <;> rw [h] at hmp <;> exact hmp

end Rules

/-- **What is made of requests for records and entries keeps a table counted.** -/
theorem keepsCount_of_interning {α : Type} {m : PoolM α} (hm : Interning m) : KeepsCount m := by
  induction hm with
  | pure a => exact .pure a
  | lift e => exact .of_eq fun _ => by cases e <;> rfl
  | intern c =>
    refine .of_eq fun p => ?_
    rw [intern_apply]
    split
    · rfl
    · split <;> rfl
  | internBootstrap e => exact fun _ hp => hp.intern e
  | checkBootstrap index =>
    refine .of_eq fun p => ?_
    rw [checkBootstrap_apply]
    split <;> rfl
  | bind _ _ ihm ihk => exact ihm.bind ihk

theorem keepsCount_onTypes {α : Type} (f : TypeM α) : KeepsCount (onTypes f) := .of_eq fun _ => rfl

theorem keepsCount_bootstrapMethod (h : MethodHandle) (arguments : List Loadable) :
    KeepsCount (bootstrapMethod h arguments) :=
  keepsCount_of_interning (interning_bootstrapMethod h arguments)

theorem keepsCount_act (r : Request) : KeepsCount r.act := by
  cases r with
  | initialized name => exact (keepsCount_onTypes _).map _
  | uninitialized name offset => exact (keepsCount_onTypes _).map _
  | merged hierarchy a b => exact (keepsCount_onTypes _).map _
  | utf8 text => exact keepsCount_of_interning ((interning_utf8 text).map _)
  | classRef name => exact keepsCount_of_interning ((interning_classRef name).map _)
  | string text => exact keepsCount_of_interning ((interning_names .string text).map _)
  | integer value => exact keepsCount_of_interning ((Interning.intern _).map _)
  | float value => exact keepsCount_of_interning ((Interning.intern _).map _)
  | long value => exact keepsCount_of_interning ((Interning.intern _).map _)
  | double value => exact keepsCount_of_interning ((Interning.intern _).map _)
  | nameAndType name descriptor => exact keepsCount_of_interning ((interning_nameAndType name descriptor).map _)
  | fieldRef owner name descriptor =>
    exact keepsCount_of_interning ((interning_fieldRef owner name descriptor).map _)
  | methodRef owner name descriptor interface =>
    exact keepsCount_of_interning ((interning_methodRef owner name descriptor interface).map _)
  | methodHandle handle => exact keepsCount_of_interning ((interning_methodHandle handle).map _)
  | methodType descriptor => exact keepsCount_of_interning ((interning_names .methodType descriptor).map _)
  | module name => exact keepsCount_of_interning ((interning_names .module name).map _)
  | package name => exact keepsCount_of_interning ((interning_names .package name).map _)
  | bootstrapMethod handle arguments =>
    exact keepsCount_of_interning ((interning_bootstrapMethod handle arguments).map _)
  | dynamic name descriptor bootstrap =>
    exact keepsCount_of_interning ((interning_dynamic name descriptor bootstrap).map _)
  | invokeDynamic name descriptor bootstrap =>
    exact keepsCount_of_interning ((interning_invokeDynamic name descriptor bootstrap).map _)
  | loadable value => exact keepsCount_of_interning ((interning_loadable value).map _)
  | named content => exact keepsCount_of_interning ((interning_named content).map _)

variable {p p' : ConstantPool}

theorem counted_run (rs : List Request) (hp : p.bootstrap.Counted) :
    (run rs p).bootstrap.Counted := by
  induction rs generalizing p with
  | nil => exact hp
  | cons r rs ih =>
    have hact := keepsCount_act r p hp
    refine ih ?_
    dsimp only
    rcases h : (r.act p : Except Error Answer × ConstantPool) with ⟨_ | _, p'⟩ <;>
      rw [h] at hact <;> exact hact

/-! ## 3. What stands for a value is unique -/

section Unique

variable {i j : ConstantIndex}

theorem text?_unique (hp : p.Coherent) {text : String} (hi : p.text? i = some text)
    (hj : p.text? j = some text) : i = j :=
  hp.index_unique (text?_eq_some_iff.1 hi) (text?_eq_some_iff.1 hj)

theorem Names.unique (hp : p.Coherent) {kind : ConstantIndex → Constant} {text : String}
    (hi : p.Names kind i text) (hj : p.Names kind j text) : i = j := by
  obtain ⟨n, hn, hname⟩ := hi
  obtain ⟨m, hm, hname'⟩ := hj
  obtain rfl := text?_unique hp hname hname'
  exact hp.index_unique hn hm

theorem IsNameAndType.unique (hp : p.Coherent) {name descriptor : String}
    (hi : p.IsNameAndType i name descriptor) (hj : p.IsNameAndType j name descriptor) : i = j := by
  obtain ⟨n, d, hget, hn, hd⟩ := hi
  obtain ⟨n', d', hget', hn', hd'⟩ := hj
  obtain rfl := text?_unique hp hn hn'
  obtain rfl := text?_unique hp hd hd'
  exact hp.index_unique hget hget'

theorem IsField.unique (hp : p.Coherent) {owner name descriptor : String}
    (hi : p.IsField i owner name descriptor) (hj : p.IsField j owner name descriptor) : i = j := by
  obtain ⟨o, m, hget, ho, hm⟩ := hi
  obtain ⟨o', m', hget', ho', hm'⟩ := hj
  obtain rfl := ho.unique hp ho'
  obtain rfl := hm.unique hp hm'
  exact hp.index_unique hget hget'

theorem IsMethod.unique (hp : p.Coherent) {owner name descriptor : String} {interface : Bool}
    (hi : p.IsMethod i owner name descriptor interface)
    (hj : p.IsMethod j owner name descriptor interface) : i = j := by
  obtain ⟨o, m, hget, ho, hm⟩ := hi
  obtain ⟨o', m', hget', ho', hm'⟩ := hj
  obtain rfl := ho.unique hp ho'
  obtain rfl := hm.unique hp hm'
  exact hp.index_unique hget hget'

theorem IsHandle.unique (hp : p.Coherent) {h : MethodHandle} (hi : p.IsHandle i h)
    (hj : p.IsHandle j h) : i = j := by
  obtain ⟨m, hget, hm⟩ := hi
  obtain ⟨m', hget', hm'⟩ := hj
  have hmember : m = m' := by
    split at hm
    · rename_i hfield
      rw [if_pos hfield] at hm'
      exact hm.unique hp hm'
    · rename_i hfield
      rw [if_neg hfield] at hm'
      exact hm.unique hp hm'
  subst hmember
  exact hp.index_unique hget hget'

end Unique

mutual

/-- **A value has one index.** -/
theorem Spells.unique (hp : p.Coherent) : ∀ (v : Loadable) {i j : ConstantIndex}, p.Spells v i →
    p.Spells v j → i = j
  | .integer _, _, _, hi, hj | .float _, _, _, hi, hj | .long _, _, _, hi, hj
  | .double _, _, _, hi, hj => by
    simp only [Spells] at hi hj
    exact hp.index_unique hi hj
  | .string _, _, _, hi, hj | .type _, _, _, hi, hj | .methodType _, _, _, hi, hj
  | .handle _, _, _, hi, hj => by
    simp only [Spells] at hi hj
    exact hi.unique hp hj
  | .dynamic _ _ _ arguments, _, _, hi, hj => by
    simp only [Spells] at hi hj
    obtain ⟨b, m, handle, indices, hget, hm, hb, hhandle, hall⟩ := hi
    obtain ⟨b', m', handle', indices', hget', hm', hb', hhandle', hall'⟩ := hj
    obtain rfl := hm.unique hp hm'
    obtain rfl := hhandle.unique hp hhandle'
    obtain rfl := SpellsAll.unique hp arguments hall hall'
    obtain rfl := Option.some.inj (hb.symm.trans hb')
    exact hp.index_unique hget hget'

theorem SpellsAll.unique (hp : p.Coherent) : ∀ (vs : List Loadable) {is js : List ConstantIndex},
    p.SpellsAll vs is → p.SpellsAll vs js → is = js
  | [], _, _, his, hjs => by
    simp only [SpellsAll] at his hjs
    rw [his, hjs]
  | v :: vs, _, _, his, hjs => by
    simp only [SpellsAll] at his hjs
    obtain ⟨i, rest, rfl, hi, hrest⟩ := his
    obtain ⟨j, rest', rfl, hj, hrest'⟩ := hjs
    rw [Spells.unique hp v hi hj, SpellsAll.unique hp vs hrest hrest']

end

/-! ## 4. Runs -/

/-- The entry that a bootstrap method with its arguments needs: the index of the one and the indices of
the others. -/
def Needs (p : ConstantPool) (bootstrap : MethodHandle) (arguments : List Loadable)
    (e : BootstrapEntry) : Prop :=
  p.IsHandle e.handle bootstrap ∧ p.SpellsAll arguments e.arguments

theorem Needs.later (hk : p.Kept p') {h : MethodHandle} {vs : List Loadable} {e : BootstrapEntry}
    (he : p.Needs h vs e) : p'.Needs h vs e :=
  ⟨he.1.later hk.carried, SpellsAll.later hk.carried vs _ he.2⟩

theorem Needs.unique (hp : p.Coherent) {h : MethodHandle} {vs : List Loadable}
    {e e' : BootstrapEntry} (he : p.Needs h vs e) (he' : p.Needs h vs e') : e = e' := by
  obtain ⟨handle, arguments⟩ := e
  obtain ⟨handle', arguments'⟩ := e'
  obtain rfl : handle = handle' := he.1.unique hp he'.1
  obtain rfl : arguments = arguments' := he.2.unique hp vs he'.2
  rfl

/-- The entry of the bootstrap table with this number is the one that is needed. -/
def Designates (p : ConstantPool) (k : UInt16) (bootstrap : MethodHandle)
    (arguments : List Loadable) : Prop :=
  ∃ e, p.bootstrap.entries[k.toNat]? = some e ∧ p.Needs bootstrap arguments e

theorem Designates.later (hk : p.Kept p') {k : UInt16} {h : MethodHandle} {vs : List Loadable}
    (hd : p.Designates k h vs) : p'.Designates k h vs :=
  have ⟨e, hat, he⟩ := hd
  ⟨e, hk.bootstrap.1 _ _ hat, he.later hk⟩

/-- What a number of a bootstrap method is worth from the pool that gives it on: it designates the
method with its arguments, and so does a number that is given for others, which therefore is the same
exactly if the entry is. -/
structure Numbers (h : MethodHandle) (vs : List Loadable) (k : UInt16) (p p' : ConstantPool) :
    Prop where
  designates : p'.Designates k h vs
  unchanged : ∀ (i : Nat) (e : BootstrapEntry), p.bootstrap.entries[i]? = some e →
    p'.bootstrap.entries[i]? = some e
  different : ∀ h' vs' k' p'', Returns (bootstrapMethod h' vs') p' k' p'' →
    p''.bootstrap.lookup.size ≤ 65536 → ∀ e e', p''.Needs h vs e → p''.Needs h' vs' e' →
      (k = k' ↔ e = e')

theorem Numbers.of_returns (hp : p.Coherent) (hc : p.bootstrap.Counted) {h : MethodHandle}
    {vs : List Loadable} {k : UInt16} (hr : Returns (bootstrapMethod h vs) p k p')
    (hfew : p'.bootstrap.lookup.size ≤ 65536) (rs : List Request) :
    Numbers h vs k p' (run rs p') := by
  have hc' : p'.bootstrap.Counted := (keepsCount_bootstrapMethod h vs).of_returns hc hr
  obtain ⟨hp', -, ⟨handle, indices, hget, hneeds⟩, -⟩ :=
    (steady_bootstrapMethod h vs).of_returns hp hr
  have hneeds : p'.Needs h vs ⟨handle, indices⟩ := hneeds
  obtain ⟨hlater, hk⟩ := coherent_run rs hp'
  have hd : p'.Designates k h vs := ⟨_, hc'.designating hfew _ _ hget, hneeds⟩
  refine ⟨hd.later hk, hk.bootstrap.1, fun h' vs' k' p'' hr' hfew' e e' he he' => ?_⟩
  have hc'' : p''.bootstrap.Counted :=
    (keepsCount_bootstrapMethod h' vs').of_returns (counted_run rs hc') hr'
  obtain ⟨hp'', hk', ⟨handle', indices', hget', hneeds'⟩, -⟩ :=
    (steady_bootstrapMethod h' vs').of_returns hlater hr'
  have hneeds' : p''.Needs h' vs' ⟨handle', indices'⟩ := hneeds'
  -- both numbers are remembered in the last pool, for the entries that are needed there
  have hremembered := hk'.bootstrap.2 _ _ (hk.bootstrap.2 _ _ hget)
  obtain rfl := he.unique hp'' (hneeds.later (hk.trans hk'))
  obtain rfl := he'.unique hp'' hneeds'
  constructor
  · rintro rfl
    exact Option.some.inj ((hc''.designating hfew' _ _ hremembered).symm.trans
      (hc''.designating hfew' _ _ hget'))
  · intro hsame
    rw [hsame, hget'] at hremembered
    exact (Option.some.inj hremembered).symm

/-- **After any requests, also ones that failed, the numbers of bootstrap methods designate exactly if
at most 65536 different entries have been asked for**; and a number that is given then is good from then
on. -/
theorem run_designates (rs : List Request) :
    ((run rs empty).bootstrap.Designating ↔ (run rs empty).bootstrap.lookup.size ≤ 65536) ∧
      ∀ h vs k p, Returns (bootstrapMethod h vs) (run rs empty) k p →
        p.bootstrap.lookup.size ≤ 65536 → ∀ rs' : List Request, Numbers h vs k p (run rs' p) := by
  have hempty : empty.bootstrap.Counted := BootstrapTable.counted_empty
  have hc := counted_run rs hempty
  obtain ⟨hp, -⟩ := coherent_run rs coherent_empty
  exact ⟨hc.designating_iff, fun h vs k p hr hfew rs' => .of_returns hp hc hr hfew rs'⟩

/-- **A bootstrap method gets a number** if there are as many indices left as it can take. -/
theorem takes_bootstrapMethod (hp : p.Coherent) {h : MethodHandle} (hh : h.Short)
    {vs : List Loadable} (hvs : Loadable.AllShort vs) (hlength : vs.length ≤ 65535) :
    Takes p (bootstrapMethod h vs) (7 + (Loadable.slotsAll vs + 1)) := by
  refine (takes_methodHandle hh).bind fun handle p₁ hr₁ => ?_
  obtain ⟨hp₁, -⟩ := (steady_methodHandle h).of_returns hp hr₁
  refine (takes_loadables [] vs hp₁ hvs).bind fun indices p₂ hr₂ => ?_
  obtain ⟨hp₂, -, ⟨_, rfl, hindices⟩, -⟩ := (steady_loadables [] vs).of_returns hp₁ hr₂
  exact takes_internBootstrap (hindices.length_eq ▸ hlength) hp₂.bootstrap

/-- The bootstrap method of the nested constant. -/
def nestedBootstrap : MethodHandle := ⟨.invokeStatic, "T", "make", "()J", false⟩

/-- A method is asked for with the nested constant as its argument; its number is good after the same
method without arguments, and a call site without a bootstrap method, have been asked for. -/
theorem run_designates_nested : ∃ k p,
    Returns (bootstrapMethod nestedBootstrap [nestedConstant]) (run [] empty) k p ∧
      p.bootstrap.lookup.size ≤ 65536 ∧ Numbers nestedBootstrap [nestedConstant] k p
        (run [.bootstrapMethod nestedBootstrap [], .invokeDynamic "run" "()V" 99] p) := by
  have hroom : empty.records.nextOffset + (7 + (Loadable.slotsAll [nestedConstant] + 1)) ≤ 65535 := by
    simp [nestedConstant, Loadable.slots, Loadable.slotsAll, empty, OffsetTable.startingAt]
  have hshort : nestedBootstrap.Short ∧ Loadable.AllShort [nestedConstant] := by
    simp only [nestedBootstrap, nestedConstant, Loadable.Short, Loadable.AllShort, MethodHandle.Short,
      ModifiedUtf8.Fits]
    decide +kernel
  obtain ⟨k, p, hr, hwithin⟩ :=
    takes_bootstrapMethod coherent_empty hshort.1 hshort.2 (by decide) hroom
  have hsize : p.bootstrap.entries.size ≤ 65536 := by
    have := hwithin.entries
    simp [nestedConstant, Loadable.slots, Loadable.slotsAll, empty, BootstrapTable.empty] at this
    omega
  obtain ⟨hp, -⟩ := (steady_bootstrapMethod nestedBootstrap [nestedConstant]).of_returns
    coherent_empty hr
  have hfew := hp.bootstrap.lookup_size_le hsize
  exact ⟨k, p, hr, hfew, (run_designates []).2 _ _ k p hr hfew _⟩

end ConstantPool

end ClassFile
