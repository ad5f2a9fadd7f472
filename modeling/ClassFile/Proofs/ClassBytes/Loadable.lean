/-
# Loadable constants survive the class file

`HoldsPool c p` says that a class file has the records of a pool and the entries of its bootstrap
table.  What a record spells out is then what is read at its index (`HoldsPool.readLoadable`), dynamic
constants within dynamic constants included.

The reader follows arguments of bootstrap methods only to a depth, which is always enough for a value that
a record spells out, because some depth is (`ClassBytes.readLoadable_eq`).
-/
import ClassFile.Proofs.ClassBytes.Nesting
import ClassFile.Proofs.ClassBytes.Records

namespace ClassFile

/-! ## 1. Handles that are read as they were written -/

/-- A handle of a field is not one of an interface; a record has no room to say so. -/
def MethodHandle.Plain (h : MethodHandle) : Prop := h.kind.isField → h.interface = false

/- The handles in a value, and in the arguments of a bootstrap method. -/
mutual

/-- All handles in a value are plain. -/
def Loadable.Plain : Loadable → Prop
  | .handle h => h.Plain
  | .dynamic _ _ bootstrap arguments => bootstrap.Plain ∧ Loadable.AllPlain arguments
  | .integer _ | .float _ | .long _ | .double _ | .string _ | .type _ | .methodType _ => True

/-- All handles in several values are plain. -/
def Loadable.AllPlain : List Loadable → Prop
  | [] => True
  | value :: values => value.Plain ∧ Loadable.AllPlain values

end

/- How deep a value is nested, and the arguments of a bootstrap method. -/
mutual

/-- How deep dynamic constants are nested in a value. -/
def Loadable.depth : Loadable → Nat
  | .dynamic _ _ _ arguments => Loadable.depthAll arguments
  | .integer _ | .float _ | .long _ | .double _ | .string _ | .type _ | .methodType _ | .handle _ => 0

/-- The depth of something that has these values in it. -/
def Loadable.depthAll : List Loadable → Nat
  | [] => 0
  | value :: values => max (value.depth + 1) (Loadable.depthAll values)

end

/-- An entry of the bootstrap table as it is written. -/
def BootstrapEntry.encoded (e : BootstrapEntry) : List UInt8 :=
  wordBytes 2 e.handle.toNat ++ (wordBytes 2 (UInt16.ofNat e.arguments.length).toNat ++
    e.arguments.flatMap fun a => wordBytes 2 a.toNat)

theorem BootstrapEntry.length_encoded (e : BootstrapEntry) :
    e.encoded.length = 4 + 2 * e.arguments.length := by
  simp only [encoded, List.length_append, length_wordBytes, length_flatMap_wordBytes]
  omega

/-! ## 2. Words of a table -/

/-- A word of a table stands at its place. -/
theorem Bytes.Has.word {b : Bytes} {offset : Nat} {words : List UInt16}
    (h : b.Has offset (words.flatMap fun w => wordBytes 2 w.toNat)) {i : Nat}
    (hi : i < words.length) : b.u16At (offset + 2 * i) = .ok words[i] :=
  (h.entry (fun w => length_wordBytes 2 w.toNat) hi).u16At

/-- An operation on each number below the length of a list that gives something for each entry of the list. -/
theorem exists_mapM_range {α β : Type} {R : α → β → Prop} {f : Nat → Except Error α} {bs : List β}
    (h : ∀ i (hi : i < bs.length), ∃ a, f i = .ok a ∧ R a bs[i]) :
    ∃ as, (List.range bs.length).mapM f = .ok as ∧ List.Forall₂ R as bs := by
  induction bs generalizing f with
  | nil => exact ⟨[], rfl, .nil⟩
  | cons b bs ih =>
    obtain ⟨a, ha, hab⟩ := h 0 (Nat.zero_lt_succ _)
    obtain ⟨as, has, hrest⟩ := ih fun i hi => h (i + 1) (Nat.succ_lt_succ hi)
    refine ⟨a :: as, ?_, .cons hab hrest⟩
    rw [List.length_cons, List.range_succ_eq_map, List.mapM_cons, List.mapM_map]
    exact bind_eq_ok_iff.2 ⟨a, ha, bind_eq_ok_iff.2 ⟨as, has, rfl⟩⟩

/-- An operation that gives the entries of the list. -/
theorem mapM_range_eq_ok {α : Type} {f : Nat → Except Error α} {as : List α}
    (h : ∀ i (hi : i < as.length), f i = .ok as[i]) : (List.range as.length).mapM f = .ok as := by
  obtain ⟨as', has, hsame⟩ := exists_mapM_range (R := Eq) fun i hi => ⟨as[i], h i hi, rfl⟩
  rw [List.forall₂_eq_eq_eq] at hsame
  exact hsame ▸ has

namespace ClassBytes

variable {c : ClassBytes} {p : ConstantPool}

/-! ## 3. Reading them back -/

/-- The class file has the records of a pool and the entries of its bootstrap table. -/
structure HoldsPool (c : ClassBytes) (p : ConstantPool) : Prop extends c.HoldsRecords p where
  lt_size : ∀ i k, p.get? i = some k → i.toNat < c.itemOffsets.size
  entry : ∀ (k : Nat) (e : BootstrapEntry), p.bootstrap.entries[k]? = some e →
    ∃ o, c.bootstrapOffsets[k]? = some o ∧ c.bytes.Has o e.encoded
  modest : p.Modest
  entries : p.bootstrap.entries.size ≤ 65535

namespace HoldsPool

/-- An entry of the bootstrap table is read back, if its arguments are. -/
theorem readBootstrapWith (h : c.HoldsPool p) {read : ConstantIndex → Except Error Loadable}
    {k : UInt16} {handle : ConstantIndex} {indices : List ConstantIndex}
    (hk : p.bootstrap.entries[k.toNat]? = some ⟨handle, indices⟩) {bootstrap : MethodHandle}
    (hhandle : p.IsHandle handle bootstrap) (hplain : bootstrap.Plain) {vs : List Loadable}
    (hread : List.Forall₂ (fun i v => read i = .ok v) indices vs) :
    c.readBootstrapWith read k = .ok (bootstrap, vs) := by
  obtain ⟨o, ho, hat⟩ := h.entry _ _ hk
  obtain ⟨hcount, hlength⟩ := hat.right.left.count (h.modest.arguments _ (Array.mem_of_getElem? hk))
  rw [ClassBytes.readBootstrapWith, ho]
  refine bind_eq_ok_iff.2 ⟨handle, hat.left.u16At, bind_eq_ok_iff.2 ⟨bootstrap,
    h.readMethodHandle hhandle hplain, bind_eq_ok_iff.2 ⟨_, hcount, ?_⟩⟩⟩
  refine bind_eq_ok_iff.2 ⟨vs, ?_, rfl⟩
  rw [hlength, hread.length_eq]
  refine mapM_range_eq_ok fun i hi => ?_
  have hi' : i < indices.length := hread.length_eq ▸ hi
  exact bind_eq_ok_iff.2 ⟨indices[i], hat.right.right.word hi', hread.get hi' hi⟩

/-- A record is found with its tag, and its fields are behind the tag. -/
theorem found (h : c.HoldsPool p) {i : ConstantIndex} {k : Constant} (hi : p.get? i = some k) :
    ∃ o, c.itemOffset i = .ok o ∧ c.bytes.u8At o = .ok k.tag.byte ∧
      c.bytes.Has (o + 1) k.fieldBytes := by
  obtain ⟨o, ho, -, hbyte, hat⟩ := h.withTag hi k.tag rfl
  exact ⟨o, ho, hbyte, hat⟩

mutual

/-- **What a record spells out is read at its index**, to any depth above that of the value. -/
theorem readLoadableWithin (h : c.HoldsPool p) (hp : p.bootstrap.Numbered) : ∀ (v : Loadable)
    (i : ConstantIndex), p.Spells v i → v.Plain → ∀ depth, v.depth < depth →
      c.readLoadableWithin depth i = .ok v
  | _, _, _, _, 0, hdepth => absurd hdepth (Nat.not_lt_zero _)
  | .integer v, i, hi, _, depth + 1, _ => by
    simp only [ConstantPool.Spells] at hi
    obtain ⟨o, ho, hbyte, hat⟩ := h.found hi
    exact bind_eq_ok_iff.2 ⟨o, ho, bind_eq_ok_iff.2 ⟨_, hbyte, bind_eq_ok_iff.2 ⟨v, hat.i32At, rfl⟩⟩⟩
  | .float v, i, hi, _, depth + 1, _ => by
    simp only [ConstantPool.Spells] at hi
    obtain ⟨o, ho, hbyte, hat⟩ := h.found hi
    exact bind_eq_ok_iff.2 ⟨o, ho, bind_eq_ok_iff.2 ⟨_, hbyte,
      bind_eq_ok_iff.2 ⟨v, hat.singleAt, rfl⟩⟩⟩
  | .long v, i, hi, _, depth + 1, _ => by
    simp only [ConstantPool.Spells] at hi
    obtain ⟨o, ho, hbyte, hat⟩ := h.found hi
    exact bind_eq_ok_iff.2 ⟨o, ho, bind_eq_ok_iff.2 ⟨_, hbyte, bind_eq_ok_iff.2 ⟨v, hat.i64At, rfl⟩⟩⟩
  | .double v, i, hi, _, depth + 1, _ => by
    simp only [ConstantPool.Spells] at hi
    obtain ⟨o, ho, hbyte, hat⟩ := h.found hi
    exact bind_eq_ok_iff.2 ⟨o, ho, bind_eq_ok_iff.2 ⟨_, hbyte,
      bind_eq_ok_iff.2 ⟨v, hat.doubleAt, rfl⟩⟩⟩
  | .string text, i, hi, _, depth + 1, _ | .type text, i, hi, _, depth + 1, _
  | .methodType text, i, hi, _, depth + 1, _ => by
    simp only [ConstantPool.Spells] at hi
    obtain ⟨n, hi, hn⟩ := hi
    obtain ⟨o, ho, hbyte, hat⟩ := h.found hi
    exact bind_eq_ok_iff.2 ⟨o, ho, bind_eq_ok_iff.2 ⟨_, hbyte,
      bind_eq_ok_iff.2 ⟨text, h.utf8At hat hn, rfl⟩⟩⟩
  | .handle handle, i, hi, hplain, depth + 1, _ => by
    simp only [ConstantPool.Spells] at hi
    have hread := h.readMethodHandle hi hplain
    obtain ⟨m, hi, -⟩ := hi
    obtain ⟨o, ho, hbyte, hat⟩ := h.found hi
    exact bind_eq_ok_iff.2 ⟨o, ho, bind_eq_ok_iff.2 ⟨_, hbyte,
      bind_eq_ok_iff.2 ⟨handle, hread, rfl⟩⟩⟩
  | .dynamic name descriptor bootstrap arguments, i, hi, hplain, depth + 1, hdepth => by
    simp only [ConstantPool.Spells] at hi
    obtain ⟨b, m, handle, indices, hi, hm, hb, hhandle, harguments⟩ := hi
    have hentry := (hp.lookup_iff (Nat.le_succ_of_le h.entries) _ _).1 hb
    have hread := readLoadablesWithin h hp arguments indices harguments hplain.2 depth
      (Nat.le_of_lt_succ hdepth)
    obtain ⟨o, ho, hbyte, hat⟩ := h.found hi
    refine bind_eq_ok_iff.2 ⟨o, ho, bind_eq_ok_iff.2 ⟨_, hbyte, ?_⟩⟩
    exact bind_eq_ok_iff.2 ⟨m, hat.right.u16At, bind_eq_ok_iff.2 ⟨_, h.readNameAndType hm,
      bind_eq_ok_iff.2 ⟨b, hat.left.u16At, bind_eq_ok_iff.2 ⟨_,
        h.readBootstrapWith hentry hhandle hplain.1 hread, rfl⟩⟩⟩⟩

theorem readLoadablesWithin (h : c.HoldsPool p) (hp : p.bootstrap.Numbered) :
    ∀ (vs : List Loadable) (is : List ConstantIndex), p.SpellsAll vs is → Loadable.AllPlain vs →
      ∀ depth, Loadable.depthAll vs ≤ depth →
        List.Forall₂ (fun i v => c.readLoadableWithin depth i = .ok v) is vs
  | [], _, his, _, _, _ => by
    simp only [ConstantPool.SpellsAll] at his
    exact his ▸ .nil
  | v :: vs, _, his, hplain, depth, hdepth => by
    simp only [ConstantPool.SpellsAll] at his
    obtain ⟨i, rest, rfl, hi, hrest⟩ := his
    have hdepth := Nat.max_le.1 hdepth
    exact .cons (readLoadableWithin h hp v i hi hplain.1 depth hdepth.1)
      (readLoadablesWithin h hp vs rest hrest hplain.2 depth hdepth.2)

end

/-- **A loadable constant is read back**, however deeply it is nested. -/
theorem readLoadable (h : c.HoldsPool p) (hp : p.bootstrap.Numbered) {v : Loadable}
    {i : ConstantIndex} (hi : p.Spells v i) (hplain : v.Plain) : c.readLoadable i = .ok v := by
  have hread := h.readLoadableWithin hp v i hi hplain _ (Nat.lt_succ_self v.depth)
  rw [readLoadable_eq (hread ▸ not_outOfDepth_ok), hread]

/-- **A bootstrap method is read back** with its arguments. -/
theorem readBootstrap (h : c.HoldsPool p) (hp : p.bootstrap.Numbered) {k : UInt16}
    {bootstrap : MethodHandle} {vs : List Loadable} (hk : p.Bootstraps k bootstrap vs)
    (hplain : bootstrap.Plain) (hvs : Loadable.AllPlain vs) :
    c.readBootstrap k = .ok (bootstrap, vs) := by
  obtain ⟨handle, indices, hb, hhandle, hindices⟩ := hk
  have hentry := (hp.lookup_iff (Nat.le_succ_of_le h.entries) _ _).1 hb
  refine h.readBootstrapWith hentry hhandle hplain ?_
  refine (h.readLoadablesWithin hp vs indices hindices hvs _ (Nat.le_refl _)).imp fun i v hread => ?_
  rw [readLoadable_eq (hread ▸ not_outOfDepth_ok), hread]

end HoldsPool

end ClassBytes

end ClassFile
