/-
# Runs of requests

A `Request` is an operation that is asked of a pool from outside; `run` asks for one after the other,
and goes on where one has failed.  Starting with the pool without records,

* the pool is always `Sane`: its count is one more than the widths of its records, which have unequal
  contents, refer only backwards, to records of the right kind, and to bootstrap methods that are
  there; and its types are all different;
* an answer is `Granted` for good: it stands for what was asked for, and asking again, however much
  later, gives the same answer and adds no record and no type.

As long as the bootstrap table has at most 65535 entries, asking again leaves the pool as it is.  With
one more, the number of the entry that would be next is that of the first one again, and asking for
the first one places it once more (`BootstrapTable.intern_first_again`).
-/
import ClassFile.Proofs.ConstantPool.Room

namespace ClassFile

namespace ConstantPool

open Constant

/-! ## 1. Requests and answers -/

/-- What is asked of a pool. -/
inductive Request where
  | utf8 (text : String)
  | classRef (name : String)
  | string (text : String)
  | integer (value : Int32)
  | float (value : Single)
  | long (value : Int64)
  | double (value : Double)
  | nameAndType (name descriptor : String)
  | fieldRef (owner name descriptor : String)
  | methodRef (owner name descriptor : String) (interface : Bool)
  | methodHandle (handle : MethodHandle)
  | methodType (descriptor : String)
  | module (name : String)
  | package (name : String)
  | bootstrapMethod (handle : MethodHandle) (arguments : List Loadable)
  | dynamic (name descriptor : String) (bootstrap : UInt16)
  | invokeDynamic (name descriptor : String) (bootstrap : UInt16)
  | loadable (value : Loadable)
  | named (content : Attribute)
  | initialized (name : String)
  | uninitialized (name : String) (offset : Nat)
  | merged (hierarchy : Hierarchy) (a b : TypeIndex)

/-- What a pool answers. -/
inductive Answer where
  | record (index : ConstantIndex)
  | bootstrap (number : UInt16)
  | raw (a : RawAttribute)
  | type (number : TypeIndex)

/-- The index of a record that is in the answer. -/
def Answer.index? : Answer → Option ConstantIndex
  | .record i => some i
  | .raw a => some a.name
  | .bootstrap _ | .type _ => none

namespace Request

/-- Asks a pool. -/
def act : Request → PoolM Answer
  | utf8 text => .record <$> ConstantPool.utf8 text
  | classRef name => .record <$> ConstantPool.classRef name
  | string text => .record <$> ConstantPool.string text
  | integer value => .record <$> intern (.integer value)
  | float value => .record <$> intern (.float value)
  | long value => .record <$> intern (.long value)
  | double value => .record <$> intern (.double value)
  | nameAndType name descriptor => .record <$> ConstantPool.nameAndType name descriptor
  | fieldRef owner name descriptor => .record <$> ConstantPool.fieldRef owner name descriptor
  | methodRef owner name descriptor interface =>
    .record <$> ConstantPool.methodRef owner name descriptor interface
  | methodHandle handle => .record <$> ConstantPool.methodHandle handle
  | methodType descriptor => .record <$> ConstantPool.methodType descriptor
  | module name => .record <$> ConstantPool.module name
  | package name => .record <$> ConstantPool.package name
  | bootstrapMethod handle arguments =>
    .bootstrap <$> ConstantPool.bootstrapMethod handle arguments
  | dynamic name descriptor bootstrap => .record <$> ConstantPool.dynamic name descriptor bootstrap
  | invokeDynamic name descriptor bootstrap =>
    .record <$> ConstantPool.invokeDynamic name descriptor bootstrap
  | loadable value => .record <$> ConstantPool.loadable value
  | named content => .raw <$> ConstantPool.named content
  | initialized name => .type <$> onTypes (TypeTable.initialized name)
  | uninitialized name offset => .type <$> onTypes (TypeTable.uninitialized name offset)
  | merged hierarchy a b => .type <$> onTypes (TypeTable.merged hierarchy a b)

end Request

/-- Asks one request after the other, whether or not there are answers. -/
def run (requests : List Request) (p : ConstantPool) : ConstantPool :=
  requests.foldl (fun p r => (r.act p : Except Error Answer × ConstantPool).2) p

/-- The answer stands for what was asked for. -/
def Stands (p : ConstantPool) : Request → Answer → Prop
  | .utf8 text, .record i => p.text? i = some text
  | .classRef name, .record i => p.Names .classRef i name
  | .string text, .record i => p.Names .string i text
  | .integer value, .record i => p.get? i = some (.integer value)
  | .float value, .record i => p.get? i = some (.float value)
  | .long value, .record i => p.get? i = some (.long value)
  | .double value, .record i => p.get? i = some (.double value)
  | .nameAndType name descriptor, .record i => p.IsNameAndType i name descriptor
  | .fieldRef owner name descriptor, .record i => p.IsField i owner name descriptor
  | .methodRef owner name descriptor interface, .record i =>
    p.IsMethod i owner name descriptor interface
  | .methodHandle handle, .record i => p.IsHandle i handle
  | .methodType descriptor, .record i => p.Names .methodType i descriptor
  | .module name, .record i => p.Names .module i name
  | .package name, .record i => p.Names .package i name
  | .bootstrapMethod handle arguments, .bootstrap k => p.Bootstraps k handle arguments
  | .dynamic name descriptor b, .record i =>
    ∃ m, p.get? i = some (.dynamic b m) ∧ p.IsNameAndType m name descriptor
  | .invokeDynamic name descriptor b, .record i =>
    ∃ m, p.get? i = some (.invokeDynamic b m) ∧ p.IsNameAndType m name descriptor
  | .loadable value, .record i => p.Spells value i
  | .named content, .raw a => p.text? a.name = some content.name ∧ a.payload = content.payload
  | .initialized name, .type t => p.types.entries[t]? = some (.initialized name)
  | .uninitialized name offset, .type t => p.types.entries[t]? = some (.uninitialized name offset)
  | .merged _ a b, .type t => p.types.merges.get? (min a b, max a b) = some t
  | _, _ => False

/-! ## 2. One request -/

variable {p p' : ConstantPool}

theorem Steady.map {α β : Type} {m : PoolM α} {Q : α → ConstantPool → Prop}
    {R : β → ConstantPool → Prop} (f : α → β) (hm : Steady p m Q)
    (hR : ∀ a p', Q a p' → R (f a) p') : Steady p (f <$> m) R := by
  rw [map_eq_pure_bind]
  exact hm.bind fun a p' _ _ ha => .pure (hR a p' ha)

/-- **A request is steady**, and what is answered stands for what was asked for. -/
theorem steady_act (r : Request) : Steady p r.act fun a p' => p'.Stands r a := by
  cases r with
  | utf8 text => exact (steady_utf8 text).map _ fun _ _ h => h
  | classRef name => exact (steady_classRef name).map _ fun _ _ h => h
  | string text => exact (steady_string text).map _ fun _ _ h => h
  | integer value => exact (steady_intern (fits_literal rfl rfl)).map _ fun _ _ h => h
  | float value => exact (steady_intern (fits_literal rfl rfl)).map _ fun _ _ h => h
  | long value => exact (steady_intern (fits_literal rfl rfl)).map _ fun _ _ h => h
  | double value => exact (steady_intern (fits_literal rfl rfl)).map _ fun _ _ h => h
  | nameAndType name descriptor => exact (steady_nameAndType name descriptor).map _ fun _ _ h => h
  | fieldRef owner name descriptor =>
    exact (steady_fieldRef owner name descriptor).map _ fun _ _ h => h
  | methodRef owner name descriptor interface =>
    exact (steady_methodRef owner name descriptor interface).map _ fun _ _ h => h
  | methodHandle handle => exact (steady_methodHandle handle).map _ fun _ _ h => h
  | methodType descriptor => exact (steady_methodType descriptor).map _ fun _ _ h => h
  | module name => exact (steady_module name).map _ fun _ _ h => h
  | package name => exact (steady_package name).map _ fun _ _ h => h
  | bootstrapMethod handle arguments =>
    exact (steady_bootstrapMethod handle arguments).map _ fun _ _ h => h
  | dynamic name descriptor bootstrap =>
    exact (steady_dynamic name descriptor bootstrap).map _ fun _ _ h => h
  | invokeDynamic name descriptor bootstrap =>
    exact (steady_invokeDynamic name descriptor bootstrap).map _ fun _ _ h => h
  | loadable value => exact (steady_loadable value).map _ fun _ _ h => h
  | named content => exact (steady_named content).map _ fun _ _ h => h
  | initialized name =>
    exact (steady_onTypes (TypeTable.firm_intern _)).map _ fun _ _ h => h
  | uninitialized name offset =>
    exact (steady_onTypes (TypeTable.firm_intern _)).map _ fun _ _ h => h
  | merged hierarchy a b =>
    exact (steady_onTypes (TypeTable.firm_merged hierarchy a b)).map _ fun _ _ h => h

/-- What an answer stands for lasts. -/
theorem Stands.later (hk : p.Kept p') {r : Request} {a : Answer} (h : p.Stands r a) :
    p'.Stands r a := by
  unfold Stands at h
  split at h <;> unfold Stands
  · exact hk.carried.text? h
  · exact h.later hk.carried
  · exact h.later hk.carried
  · exact hk.record _ _ h
  · exact hk.record _ _ h
  · exact hk.record _ _ h
  · exact hk.record _ _ h
  · exact h.later hk.carried
  · exact h.later hk.carried
  · exact h.later hk.carried
  · exact h.later hk.carried
  · exact h.later hk.carried
  · exact h.later hk.carried
  · exact h.later hk.carried
  · exact h.later hk.carried
  · obtain ⟨m, hm, hnt⟩ := h
    exact ⟨m, hk.record _ _ hm, hnt.later hk.carried⟩
  · obtain ⟨m, hm, hnt⟩ := h
    exact ⟨m, hk.record _ _ hm, hnt.later hk.carried⟩
  · exact Spells.later hk.carried _ _ h
  · exact ⟨hk.carried.text? h.1, h.2⟩
  · exact hk.types.entry _ _ h
  · exact hk.types.entry _ _ h
  · exact hk.types.merged _ _ h
  · exact h.elim

/-- An index in an answer is one of a record. -/
theorem Stands.placed {r : Request} {a : Answer} (h : p.Stands r a) {i : ConstantIndex}
    (hi : a.index? = some i) : ∃ c, p.get? i = some c := by
  unfold Stands at h
  split at h <;> simp only [Answer.index?, Option.some.injEq, reduceCtorEq] at hi <;> (try subst hi)
  · exact ⟨_, text?_eq_some_iff.1 h⟩
  · exact h.placed
  · exact h.placed
  · exact ⟨_, h⟩
  · exact ⟨_, h⟩
  · exact ⟨_, h⟩
  · exact ⟨_, h⟩
  · exact h.placed
  · exact h.placed
  · exact h.placed
  · exact h.placed
  · exact h.placed
  · exact h.placed
  · exact h.placed
  · exact ⟨_, h.choose_spec.1⟩
  · exact ⟨_, h.choose_spec.1⟩
  · exact h.placed
  · exact ⟨_, text?_eq_some_iff.1 h.1⟩
  · exact h.elim

/-- A number of a type in an answer is one of an entry. -/
theorem Stands.type_placed (hp : p.Coherent) {r : Request} {t : TypeIndex}
    (h : p.Stands r (.type t)) : ∃ e, p.types.entries[t]? = some e := by
  cases r with
  | initialized name => exact ⟨_, h⟩
  | uninitialized name offset => exact ⟨_, h⟩
  | merged hierarchy a b => exact hp.types.merged_placed _ _ h
  | _ => exact h.elim

/-! ## 3. Runs -/

/-- What can be relied on in a pool. -/
structure Sane (p : ConstantPool) : Prop where
  count : p.count.toNat = 1 + (p.records.toList.map fun r => width r.2).sum
  room : 1 + (p.records.toList.map fun r => width r.2).sum ≤ 65535
  distinct : ∀ i j c, p.get? i = some c → p.get? j = some c → i = j
  references : ∀ i c, p.get? i = some c → ∀ r ∈ c.references,
    r.1 < i ∧ ∃ d, p.get? r.1 = some d ∧ r.2.accepts d
  bootstrap : ∀ i c b, p.get? i = some c → c.bootstrap? = some b →
    b.toNat < p.bootstrap.entries.size
  types : ∀ (s t : TypeIndex) (x y : TypeEntry), p.types.entries[s]? = some x →
    p.types.entries[t]? = some y → (s = t ↔ x = y)

theorem Coherent.sane (hp : p.Coherent) : p.Sane := by
  have hstop : p.records.nextOffset = 1 + (p.records.toList.map fun r => width r.2).sum :=
    hp.laid.stop_eq
  have hroom := hp.room
  refine ⟨?_, hstop ▸ hroom, fun i j c hi hj => hp.index_unique hi hj, fun i c hi r hr =>
    ⟨hp.references_lt i c hi r hr, (hp.fits i c hi).references r hr⟩,
    fun i c b hi hb => (hp.fits i c hi).bootstrap b hb, fun s t x y hs ht => ?_⟩
  · rw [count, UInt16.toNat_ofNat_of_lt' (show p.records.nextOffset < 65536 by omega), hstop]
  · constructor
    · rintro rfl
      exact Option.some.inj (hs.symm.trans ht)
    · rintro rfl
      exact hp.types.index_unique hs ht

/-- **Whatever is asked, a pool stays coherent**, and what is in it is kept. -/
theorem coherent_run (rs : List Request) (hp : p.Coherent) :
    (run rs p).Coherent ∧ p.Kept (run rs p) := by
  induction rs generalizing p with
  | nil => exact ⟨hp, .refl p⟩
  | cons r rs ih =>
    obtain ⟨hp₁, hk₁, -⟩ := steady_act r hp _ _ rfl
    obtain ⟨hp₂, hk₂⟩ := ih hp₁
    exact ⟨hp₂, hk₁.trans hk₂⟩

/-- What an answer that was given by one pool is worth on a later one: it stands for what was asked
for, its number is that of the same record or type, and it is given again, without a new record or
type. -/
structure Granted (r : Request) (a : Answer) (p p' : ConstantPool) : Prop where
  stands : p'.Stands r a
  record : ∀ i, a.index? = some i → ∃ c, p.get? i = some c ∧ p'.get? i = some c
  type : ∀ t, a = .type t → ∃ e, p.types.entries[t]? = some e ∧ p'.types.entries[t]? = some e
  again : ∃ p'', Returns r.act p' a p'' ∧ p''.records = p'.records ∧ p''.types = p'.types

theorem granted_run {r : Request} {a : Answer} (hp : p.Coherent) (hr : Returns r.act p a p')
    (rs : List Request) : Granted r a p' (run rs p') ∧
      ((run rs p').bootstrap.entries.size ≤ 65535 → Returns r.act (run rs p') a (run rs p')) := by
  obtain ⟨hp', -, hstands, hagain⟩ := (steady_act r).of_returns hp hr
  obtain ⟨hlater, hk⟩ := coherent_run rs hp'
  obtain ⟨p'', h⟩ := hagain _ hlater hk
  refine ⟨⟨hstands.later hk, fun i hi => ?_, fun t ht => ?_, ?_⟩, fun hsize => ?_⟩
  · obtain ⟨c, hc⟩ := hstands.placed hi
    exact ⟨c, hc, hk.record i c hc⟩
  · subst ht
    obtain ⟨e, he⟩ := hstands.type_placed hp'
    exact ⟨e, he, hk.types.entry t e he⟩
  · exact ⟨p'', h.returns, h.unmoved.records, h.unmoved.types⟩
  · have hsame := h.returns
    rwa [h.same hsize] at hsame

/-- **After any requests, also ones that failed, a pool is sane**, and an answer that it gives then is
granted for good.  As long as the bootstrap table has at most 65535 entries, a request that is made again
leaves the pool as it is. -/
theorem run_sane (rs : List Request) : (run rs empty).Sane ∧
    ∀ (r : Request) (a : Answer) (p : ConstantPool), Returns r.act (run rs empty) a p →
      ∀ rs' : List Request, Granted r a p (run rs' p) ∧
        ((run rs' p).bootstrap.entries.size ≤ 65535 →
          Returns r.act (run rs' p) a (run rs' p)) := by
  obtain ⟨hp, -⟩ := coherent_run rs coherent_empty
  exact ⟨hp.sane, fun r a p hr rs' => granted_run hp hr rs'⟩

/-- A call site of a bootstrap method that is not there is refused, and changes nothing. -/
theorem run_invokeDynamic_missing {name descriptor : String} {b : UInt16}
    (hb : p.bootstrap.entries.size ≤ b.toNat) (rs : List Request) :
    run (.invokeDynamic name descriptor b :: rs) p = run rs p := by
  have hact : (Request.invokeDynamic name descriptor b).act p =
      (.error (.missingBootstrapMethod b), p) := by
    rw [Request.act, map_eq_pure_bind, bind_apply, ConstantPool.invokeDynamic, bind_apply,
      checkBootstrap_apply, if_neg (Nat.not_lt_of_le hb)]
  rw [run, List.foldl_cons, hact]
  rfl

/-- A request for a type leaves the bootstrap table as it is. -/
theorem bootstrap_type (f : TypeM TypeIndex) (p : ConstantPool) :
    ((Answer.type <$> onTypes f : PoolM Answer) p :
      Except Error Answer × ConstantPool).2.bootstrap = p.bootstrap := by
  rw [map_eq_pure_bind, bind_apply, onTypes]
  rcases f p.types with ⟨_ | _, T⟩ <;> rfl

/-- The nested constant is asked for, then a call site whose bootstrap method is missing, which fails,
and then the type of two merged classes.  Asking for the constant once more changes nothing. -/
theorem run_sane_nested : ∃ i p,
    Returns (Request.loadable nestedConstant).act (run [] empty) (.record i) p ∧
      let later := run [.invokeDynamic "run" "()V" 99, .initialized "A", .initialized "B",
        .merged .empty 0 1] p
      Granted (.loadable nestedConstant) (.record i) p later ∧
        later.bootstrap.entries.size ≤ 65535 ∧
        Returns (Request.loadable nestedConstant).act later (.record i) later := by
  obtain ⟨i, p, hr, hwithin⟩ := loadable_nestedConstant
  have hact : Returns (Request.loadable nestedConstant).act (run [] empty) (.record i) p :=
    returns_map.2 ⟨i, hr, rfl⟩
  have hsize : p.bootstrap.entries.size ≤ 99 := by
    have := hwithin.entries
    simp [nestedConstant, Loadable.slots, Loadable.slotsAll, empty, BootstrapTable.empty] at this
    omega
  have hlater : (run [.invokeDynamic "run" "()V" 99, .initialized "A", .initialized "B",
      .merged .empty 0 1] p).bootstrap = p.bootstrap := by
    rw [run_invokeDynamic_missing hsize]
    exact ((bootstrap_type _ _).trans (bootstrap_type _ _)).trans (bootstrap_type _ p)
  have hfew : (run [.invokeDynamic "run" "()V" 99, .initialized "A", .initialized "B",
      .merged .empty 0 1] p).bootstrap.entries.size ≤ 65535 := by
    rw [hlater]
    omega
  obtain ⟨hgranted, hagain⟩ := (run_sane []).2 _ _ p hact
    [.invokeDynamic "run" "()V" 99, .initialized "A", .initialized "B", .merged .empty 0 1]
  exact ⟨i, p, hact, hgranted, hfew, hagain hfew⟩

end ConstantPool

end ClassFile
