/-
# What a pool was asked for survives the class file

A pool is asked for something, gives an answer, and is asked for more; then it is written into a class,
together with its bootstrap table.  The class is accepted, and what is read at the answer is what was
asked for.

Two kinds of requests come back changed: a record of a field has no room to say that the field is one of
an interface, which only a method handle asks for (`MethodHandle.Plain`), and the reader does not look at
modules, packages and types.

A pool puts each record behind those that it refers to, so everything that was written with one can be
read to an end (`ends_of_assemble`).
-/
import ClassFile.Proofs.ClassBytes.Assembled
import ClassFile.Proofs.ConstantPool.Requests

namespace ClassFile.ClassBytes

open ConstantPool

/-! ## 1. Reading answers -/

/-- What is read at an answer is what was asked for. -/
def ReadsBack (c : ClassBytes) : Request → Answer → Prop
  | .utf8 text, .record i => c.readUtf8 i = .ok text
  | .classRef name, .record i => c.readClass i = .ok name ∧ c.readLoadable i = .ok (.type name)
  | .string text, .record i => c.readLoadable i = .ok (.string text)
  | .integer value, .record i => c.readLoadable i = .ok (.integer value)
  | .float value, .record i => c.readLoadable i = .ok (.float value)
  | .long value, .record i => c.readLoadable i = .ok (.long value)
  | .double value, .record i => c.readLoadable i = .ok (.double value)
  | .nameAndType name descriptor, .record i => c.readNameAndType i = .ok (name, descriptor)
  | .fieldRef owner name descriptor, .record i =>
    c.readMember i = .ok (MemberRef.mk owner name descriptor false)
  | .methodRef owner name descriptor interface, .record i =>
    c.readMember i = .ok (MemberRef.mk owner name descriptor interface)
  | .methodHandle handle, .record i => handle.Plain →
    c.readMethodHandle i = .ok handle ∧ c.readLoadable i = .ok (.handle handle)
  | .methodType descriptor, .record i => c.readLoadable i = .ok (.methodType descriptor)
  | .bootstrapMethod handle arguments, .bootstrap k => handle.Plain → Loadable.AllPlain arguments →
    c.readBootstrap k = .ok (handle, arguments)
  | .invokeDynamic name descriptor b, .record i =>
    c.readInvokeDynamic i = .ok (name, descriptor, b)
  | .loadable value, .record i => value.Plain → c.readLoadable i = .ok value
  | .named content, .raw a => c.readUtf8 a.name = .ok content.name
  | _, _ => True

variable {c : ClassBytes} {p : ConstantPool}

/-! ## 2. What was asked for -/

/-- **Where the pool is held, what an answer stands for is what is read at it.** -/
theorem HoldsPool.readsBack (h : c.HoldsPool p) (hp : p.Coherent) {r : Request} {a : Answer}
    (ha : p.Stands r a) : c.ReadsBack r a := by
  have hread : ∀ {v : Loadable} {i : ConstantIndex}, p.Spells v i → v.Plain →
      c.readLoadable i = .ok v := fun hi hv => h.readLoadable hp.bootstrap hi hv
  unfold Stands at ha
  split at ha <;> unfold ReadsBack
  · exact h.readUtf8 ha
  · exact ⟨h.readClass ha, hread (by simpa only [Spells] using ha) trivial⟩
  · exact hread (by simpa only [Spells] using ha) trivial
  · exact hread (by simpa only [Spells] using ha) trivial
  · exact hread (by simpa only [Spells] using ha) trivial
  · exact hread (by simpa only [Spells] using ha) trivial
  · exact hread (by simpa only [Spells] using ha) trivial
  · exact h.readNameAndType ha
  · exact h.readMember_of_field ha
  · exact h.readMember_of_method ha
  · exact fun hplain => ⟨h.readMethodHandle ha hplain,
      hread (by simpa only [Spells] using ha) hplain⟩
  · exact hread (by simpa only [Spells] using ha) trivial
  · trivial
  · trivial
  · exact fun hplain harguments => h.readBootstrap hp.bootstrap ha hplain harguments
  · trivial
  · exact h.readInvokeDynamic ha
  · exact fun hplain => hread ha hplain
  · exact h.readUtf8 ha.1
  · trivial
  · trivial
  · trivial
  · exact ha.elim

/-- **Constants survive the class file**: whatever was asked before and after, the class that is written
with the pool is accepted, and an answer reads back as what was asked for. -/
theorem ofBytes_readsBack (rs rs' : List Request) {r : Request} {a : Answer} {p : ConstantPool}
    (hr : Returns r.act (run rs empty) a p) {table : Option RawAttribute}
    (htable : (run rs' p).IsTable table) {w : ClassWriter} {attributes : List RawAttribute}
    (hw : w.Writable (run rs' p) table attributes) (classRef : ConstantIndex) :
    ∃ c, ofBytes (w.assemble (run rs' p) classRef attributes) = .ok c ∧ c.ReadsBack r a := by
  obtain ⟨hp, -⟩ := coherent_run rs coherent_empty
  obtain ⟨hp', -, hstands, -⟩ := (steady_act r).of_returns hp hr
  obtain ⟨hlater, hk⟩ := coherent_run rs' hp'
  obtain ⟨c, hc, hpool⟩ := ofBytes_assemble hlater.inOrder htable hw classRef
  exact ⟨c, hc, hpool.readsBack hlater (hstands.later hk)⟩

/-- A pool that was asked for the nested constant and for the name of the bootstrap table fits into a
class without members. -/
theorem writable_nested : ∃ i p table,
    Returns (Request.loadable nestedConstant).act (run [] empty) (.record i) p ∧
      (run [.utf8 "BootstrapMethods"] p).IsTable (some table) ∧
      (ClassWriter.start ⟨.maxStack, .empty⟩).Writable (run [.utf8 "BootstrapMethods"] p)
        (some table) [table] := by
  obtain ⟨i, p, hr, hwithin⟩ := loadable_nestedConstant
  obtain ⟨hp, -⟩ := (steady_loadable nestedConstant).of_returns coherent_empty hr
  have hact : Returns (Request.loadable nestedConstant).act (run [] empty) (.record i) p :=
    returns_map.2 ⟨i, hr, rfl⟩
  have hnext : p.records.nextOffset ≤ 1 + nestedConstant.slots := hwithin.next
  have hentries : p.bootstrap.entries.size ≤ 0 + nestedConstant.slots := hwithin.entries
  rw [show nestedConstant.slots = 26 by decide] at hnext hentries
  -- the name of the attribute is the last string that the pool is asked for
  obtain ⟨j, p', hr', hwithin'⟩ : ∃ j p', Returns (utf8 "BootstrapMethods") p j p' ∧ Within 1 p p' :=
    takes_utf8 (by decide) (by omega)
  have hrun : run [.utf8 "BootstrapMethods"] p = p' :=
    congrArg Prod.snd ((returns_map (f := Answer.record)).2 ⟨j, hr', rfl⟩)
  obtain ⟨-, -, htext, -⟩ := (steady_utf8 "BootstrapMethods").of_returns hp hr'
  have hentries' := hwithin'.entries
  refine ⟨i, p, ⟨j, (Attribute.bootstrapMethods p'.bootstrap.entries.toList).payload⟩, hact, ?_, ?_⟩
  · rw [hrun]
    exact ⟨htext, rfl⟩
  · rw [hrun]
    exact ⟨Nat.zero_le _, ⟨[], MemberTable.lists_empty⟩, ⟨[], MemberTable.lists_empty⟩,
      by simp, ⟨[], [], rfl, by simp, fun h => absurd rfl h⟩,
      hwithin'.modest (hwithin.modest modest_empty), by omega⟩

/-- The nested constant in a class without members, whose only attribute is the bootstrap table. -/
theorem ofBytes_readsBack_nested : ∃ i p table c,
    Returns (Request.loadable nestedConstant).act (run [] empty) (.record i) p ∧
      (run [.utf8 "BootstrapMethods"] p).IsTable (some table) ∧
      ofBytes ((ClassWriter.start ⟨.maxStack, .empty⟩).assemble (run [.utf8 "BootstrapMethods"] p) 0
        [table]) = .ok c ∧ c.readLoadable i = .ok nestedConstant := by
  obtain ⟨i, p, table, hact, htable, hw⟩ := writable_nested
  obtain ⟨c, hc, hread⟩ := ofBytes_readsBack [] [.utf8 "BootstrapMethods"] hact htable hw 0
  refine ⟨i, p, table, c, hact, htable, hc, hread ?_⟩
  simp [nestedConstant, Loadable.Plain, Loadable.AllPlain, MethodHandle.Plain]

/-! ## 3. Reading it ends -/

section Ends

open Relation

variable {i j : ConstantIndex} {k : UInt16}

/-- What is read as an argument of an entry was written as one. -/
theorem HoldsPool.mem_arguments (h : c.HoldsPool p) {e : BootstrapEntry}
    (he : p.bootstrap.entries[k.toNat]? = some e) (hki : c.ComesTo k i) : i ∈ e.arguments := by
  obtain ⟨offset, handle, method, count, m, hoffset, -, -, hcount, hm, hi, -⟩ := hki
  obtain ⟨o, ho, hat⟩ := h.entry _ e he
  obtain rfl : o = offset := Option.some.inj (ho.symm.trans hoffset)
  obtain ⟨hcount', hlength⟩ :=
    hat.right.left.count (h.modest.arguments e (Array.mem_of_getElem? he))
  obtain rfl : count = UInt16.ofNat e.arguments.length := Except.ok.inj (hcount.symm.trans hcount')
  rw [hlength] at hm
  obtain rfl : i = e.arguments[m] := Except.ok.inj (hi.symm.trans (hat.right.right.word hm))
  exact List.getElem_mem hm

/-- In a class file that has the records of a coherent pool, a constant needs only constants before
it. -/
theorem HoldsExactly.needs_lt (h : c.HoldsExactly p) (hp : p.Coherent) (hij : c.Needs i j) :
    j < i := by
  obtain ⟨offset, m, text, k, hi, hbyte, -, -, hk, hkj⟩ := hij
  obtain ⟨record, hrecord⟩ := h.vacant i offset hi
  obtain ⟨o, ho, hbyte', hat⟩ := h.found hrecord
  obtain rfl : o = offset := Except.ok.inj (ho.symm.trans hi)
  have htag : record.tag = .dynamic := by
    have hbytes := congrArg Constant.Tag.ofByte? (Except.ok.inj (hbyte'.symm.trans hbyte))
    simpa using hbytes
  obtain ⟨n, rfl⟩ : ∃ n, record = .dynamic k n := by
    cases record with
    | dynamic bootstrap n => exact ⟨n, by rw [Except.ok.inj (hat.left.u16At.symm.trans hk)]⟩
    | methodRef _ _ interface => cases interface <;> cases htag
    | _ => cases htag
  have hentry := Array.getElem?_eq_getElem ((hp.fits i _ hrecord).bootstrap k rfl)
  exact hp.arguments_lt i _ hrecord k rfl _ hentry j (h.mem_arguments hentry hkj)

theorem HoldsExactly.not_nested (h : c.HoldsExactly p) (hp : p.Coherent) (i : ConstantIndex) :
    ¬ TransGen c.Needs i i := by
  have hlt : ∀ {j}, TransGen c.Needs i j → j < i := by
    intro j hij
    induction hij with
    | single hij => exact h.needs_lt hp hij
    | tail _ hjk ih => exact UInt16.lt_trans (h.needs_lt hp hjk) ih
  exact fun hi => UInt16.lt_irrefl i (hlt hi)

/-- **What was written can be read to an end**: a class with the pool of any requests is accepted, and
reading ends for each of its constants and each entry of its bootstrap table. -/
theorem ends_of_assemble (rs : List ConstantPool.Request) {table : Option RawAttribute}
    (htable : (ConstantPool.run rs .empty).IsTable table) {w : ClassWriter}
    {attributes : List RawAttribute}
    (hw : w.Writable (ConstantPool.run rs .empty) table attributes) (classRef : ConstantIndex) :
    ∃ c, ofBytes (w.assemble (ConstantPool.run rs .empty) classRef attributes) = .ok c ∧
      (∀ i, c.Ends i) ∧ ∀ k, c.EntryEnds k := by
  obtain ⟨hp, -⟩ := ConstantPool.coherent_run rs ConstantPool.coherent_empty
  obtain ⟨c, hc, hexact⟩ := ofBytes_assemble hp.inOrder htable hw classRef
  exact ⟨c, hc, all_end (hexact.not_nested hp)⟩

end Ends

end ClassFile.ClassBytes
