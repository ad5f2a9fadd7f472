/-
# Reading a constant ends if it is not nested in itself

The value of a dynamic constant has the values of its bootstrap arguments in it, which may be dynamic
constants again, and nothing in a class file keeps an argument from being the constant itself.  The
reader follows the arguments as deep as it is told to (`readLoadableWithin`); reading ends if some
depth is enough (`Ends`, `EntryEnds`).

`c.Needs i j` says that reading the constant `i` comes to reading the constant `j`: the arguments
before it have values.  Running out of depth means that there are chains of such steps of every length
(`outOfDepth_succ_iff`), and a class file has too few records for a long chain without a repetition.
So reading ends exactly where no constant on the way needs itself (`ends_iff`), the depth that
`readLoadable` allows is then enough, and more depth changes nothing (`readLoadable_eq`).

A class file can have a constant that is an argument of its own bootstrap method, which is never read to
an end (`not_ends_selfNested`).
-/
import ClassFile.ClassBytes.Records
import ClassFile.Proofs.ClassBytes.Layout
import Mathlib.Data.List.Nodup
import Mathlib.Data.List.Perm.Subperm
import Mathlib.Logic.Relation

namespace ClassFile

open Relation

/-! ## 1. Running out of depth -/

/-- The answer of a reader that did not come to an end in the depth it was given. -/
def OutOfDepth {α : Type} (x : Except Error α) : Prop := ∃ i, x = .error (.cyclicConstant i)

section OutOfDepth

variable {α β : Type} {x y : Except Error α}

@[simp]
theorem not_outOfDepth_ok {a : α} : ¬ OutOfDepth (.ok a : Except Error α) := by
  simp [OutOfDepth]

@[simp]
theorem not_outOfDepth_pure {a : α} : ¬ OutOfDepth (pure a : Except Error α) := not_outOfDepth_ok

@[simp]
theorem outOfDepth_error_iff {e : Error} :
    OutOfDepth (.error e : Except Error α) ↔ ∃ i, e = .cyclicConstant i := by
  simp [OutOfDepth]

@[simp]
theorem outOfDepth_throw_iff {e : Error} :
    OutOfDepth (throw e : Except Error α) ↔ ∃ i, e = .cyclicConstant i := outOfDepth_error_iff

@[simp]
theorem outOfDepth_bind_iff {f : α → Except Error β} :
    OutOfDepth (x >>= f) ↔ OutOfDepth x ∨ ∃ a, x = .ok a ∧ OutOfDepth (f a) := by
  cases x with
  | error e => simp [OutOfDepth, Bind.bind, Except.bind]
  | ok a => simp [OutOfDepth, Bind.bind, Except.bind]

@[simp]
theorem outOfDepth_map_iff {f : α → β} : OutOfDepth (x.map f) ↔ OutOfDepth x := by
  cases x <;> simp [OutOfDepth, Except.map]

@[simp]
theorem outOfDepth_fmap_iff {f : α → β} : OutOfDepth (f <$> x) ↔ OutOfDepth x := outOfDepth_map_iff

/-- What a reader answers when it may go deeper: the same, unless it had run out of depth. -/
def Deepened (x y : Except Error α) : Prop := OutOfDepth x ∨ x = y

namespace Deepened

theorem refl (x : Except Error α) : Deepened x x := .inr rfl

theorem bind {f g : α → Except Error β} (h : Deepened x y) (hf : ∀ a, Deepened (f a) (g a)) :
    Deepened (x >>= f) (y >>= g) := by
  obtain h | rfl := h
  · exact .inl (outOfDepth_bind_iff.2 (.inl h))
  · cases x with
    | error e => exact refl _
    | ok a => exact hf a

theorem mapM {f g : α → Except Error β} (h : ∀ a, Deepened (f a) (g a)) (l : List α) :
    Deepened (l.mapM f) (l.mapM g) := by
  induction l with
  | nil => exact refl _
  | cons a l ih =>
    rw [List.mapM_cons, List.mapM_cons]
    exact (h a).bind fun b => ih.bind fun bs => refl _

theorem eq_of_not (h : Deepened x y) (hx : ¬ OutOfDepth x) : x = y := h.resolve_left hx

/-- A value stays. -/
theorem eq_ok {a : α} (h : Deepened x y) (hx : x = .ok a) : y = .ok a := by
  rw [← h.eq_of_not (hx ▸ not_outOfDepth_ok), hx]

end Deepened

/-- Where the numbers below `n` are gone through in turn, the depth runs out at one that is come to. -/
theorem outOfDepth_mapM_range_iff {f : Nat → Except Error α} {n : Nat} :
    OutOfDepth ((List.range n).mapM f) ↔
      ∃ m < n, OutOfDepth (f m) ∧ ∀ l < m, ∃ a, f l = .ok a := by
  induction n generalizing f with
  | zero => simp
  | succ n ih =>
    rw [List.range_succ_eq_map, List.mapM_cons, List.mapM_map, Nat.exists_lt_succ_left]
    simp only [outOfDepth_bind_iff, not_outOfDepth_pure, and_false, exists_false, or_false]
    refine or_congr (by simp) ?_
    rw [exists_and_right, ih, ← exists_and_left]
    simp only [Nat.forall_lt_succ_left, Function.comp_apply]
    exact exists_congr fun m => by tauto

/-- It runs out before a number for which the depth is not enough, if no other failure is before it. -/
theorem outOfDepth_mapM_range {f : Nat → Except Error α} {n m : Nat} (hm : m < n)
    (hdeep : OutOfDepth (f m)) (hbefore : ∀ l < m, (∃ a, f l = .ok a) ∨ OutOfDepth (f l)) :
    OutOfDepth ((List.range n).mapM f) := by
  induction m using Nat.strongRecOn with
  | ind m ih =>
    by_cases hfirst : ∃ l < m, OutOfDepth (f l)
    · obtain ⟨l, hl, hdeep'⟩ := hfirst
      exact ih l hl (Nat.lt_trans hl hm) hdeep' fun l' hl' => hbefore l' (Nat.lt_trans hl' hl)
    · refine outOfDepth_mapM_range_iff.2 ⟨m, hm, hdeep, fun l hl => ?_⟩
      exact (hbefore l hl).resolve_right fun hdeep' => hfirst ⟨l, hl, hdeep'⟩

end OutOfDepth

namespace ClassBytes

variable (c : ClassBytes) {i j : ConstantIndex} {k : UInt16} {depth : Nat}

/-! ## 2. Only the depth runs out -/

theorem not_outOfDepth_wordAt (b : Bytes) (w offset : Nat) : ¬ OutOfDepth (b.wordAt w offset) := by
  unfold Bytes.wordAt
  split <;> simp

@[simp]
theorem not_outOfDepth_u8At (b : Bytes) (offset : Nat) : ¬ OutOfDepth (b.u8At offset) := by
  simp [Bytes.u8At, not_outOfDepth_wordAt]

@[simp]
theorem not_outOfDepth_u16At (b : Bytes) (offset : Nat) : ¬ OutOfDepth (b.u16At offset) := by
  simp [Bytes.u16At, not_outOfDepth_wordAt]

@[simp]
theorem not_outOfDepth_u32At (b : Bytes) (offset : Nat) : ¬ OutOfDepth (b.u32At offset) := by
  simp [Bytes.u32At, not_outOfDepth_wordAt]

@[simp]
theorem not_outOfDepth_u64At (b : Bytes) (offset : Nat) : ¬ OutOfDepth (b.u64At offset) := by
  simp [Bytes.u64At, not_outOfDepth_wordAt]

@[simp]
theorem not_outOfDepth_bytesAt (b : Bytes) (offset length : Nat) :
    ¬ OutOfDepth (b.bytesAt offset length) := by
  unfold Bytes.bytesAt
  split <;> simp

@[simp]
theorem not_outOfDepth_itemOffset (i : ConstantIndex) : ¬ OutOfDepth (c.itemOffset i) := by
  unfold itemOffset
  split <;> simp

@[simp]
theorem not_outOfDepth_itemWithTag (i : ConstantIndex) (tag : Constant.Tag) (expected : Expected) :
    ¬ OutOfDepth (c.itemWithTag i tag expected) := by
  unfold itemWithTag
  simp only [outOfDepth_bind_iff, not_outOfDepth_itemOffset, not_outOfDepth_u8At, false_or]
  rintro ⟨offset, -, byte, -, h⟩
  split at h <;> simp at h

@[simp]
theorem not_outOfDepth_readUtf8 (i : ConstantIndex) : ¬ OutOfDepth (c.readUtf8 i) := by
  unfold readUtf8
  simp only [outOfDepth_bind_iff, not_outOfDepth_itemWithTag, not_outOfDepth_u16At,
    not_outOfDepth_bytesAt, false_or]
  rintro ⟨offset, -, length, -, bytes, -, h⟩
  split at h <;> simp at h

@[simp]
theorem not_outOfDepth_utf8At (offset : Nat) : ¬ OutOfDepth (c.utf8At offset) := by
  simp [utf8At]

@[simp]
theorem not_outOfDepth_readNameAndType (i : ConstantIndex) :
    ¬ OutOfDepth (c.readNameAndType i) := by
  simp [readNameAndType]

@[simp]
theorem not_outOfDepth_readClass (i : ConstantIndex) : ¬ OutOfDepth (c.readClass i) := by
  simp [readClass]

@[simp]
theorem not_outOfDepth_readMember (i : ConstantIndex) : ¬ OutOfDepth (c.readMember i) := by
  unfold readMember
  simp only [outOfDepth_bind_iff, not_outOfDepth_itemOffset, not_outOfDepth_u8At, false_or]
  rintro ⟨offset, -, byte, -, h⟩
  split at h <;> simp at h

@[simp]
theorem not_outOfDepth_readMethodHandle (i : ConstantIndex) :
    ¬ OutOfDepth (c.readMethodHandle i) := by
  unfold readMethodHandle
  simp only [outOfDepth_bind_iff, not_outOfDepth_itemWithTag, not_outOfDepth_u8At, false_or]
  rintro ⟨offset, -, byte, -, h⟩
  split at h <;> simp at h

/-! ## 3. What a constant needs -/

/-- Reading the constant at an index gives a value. -/
def Readable (i : ConstantIndex) : Prop := ∃ depth v, c.readLoadableWithin depth i = .ok v

/-- Reading an entry of the bootstrap table comes to reading an argument: the method and the number of
the arguments can be read, and the arguments before it have values. -/
def ComesTo (k : UInt16) (i : ConstantIndex) : Prop :=
  ∃ offset handle method count m, c.bootstrapOffsets[k.toNat]? = some offset ∧
    c.bytes.u16At offset = .ok handle ∧ c.readMethodHandle handle = .ok method ∧
    c.bytes.u16At (offset + 2) = .ok count ∧ m < count.toNat ∧
    c.bytes.u16At (offset + 4 + 2 * m) = .ok i ∧
    ∀ l < m, ∃ j, c.bytes.u16At (offset + 4 + 2 * l) = .ok j ∧ c.Readable j

/-- Reading a constant comes to reading another one: it is dynamic, its name and its descriptor can be
read, and the other one is an argument that is come to. -/
def Needs (i j : ConstantIndex) : Prop :=
  ∃ offset m text k, c.itemOffset i = .ok offset ∧
    c.bytes.u8At offset = .ok Constant.Tag.dynamic.byte ∧ c.bytes.u16At (offset + 3) = .ok m ∧
    c.readNameAndType m = .ok text ∧ c.bytes.u16At (offset + 1) = .ok k ∧ c.ComesTo k j

variable {c}

/-- A constant that needs another one has a record. -/
theorem Needs.lt_size (h : c.Needs i j) : i.toNat < c.itemOffsets.size := by
  obtain ⟨offset, -, -, -, hi, -⟩ := h
  exact (Array.getElem?_eq_some_iff.1 (itemOffset_eq_ok_iff.1 hi).1).1

theorem deepened_readBootstrapWith {read read' : ConstantIndex → Except Error Loadable}
    (h : ∀ i, Deepened (read i) (read' i)) (k : UInt16) :
    Deepened (c.readBootstrapWith read k) (c.readBootstrapWith read' k) := by
  unfold readBootstrapWith
  split
  · exact .refl _
  · refine .bind (.refl _) fun _ => .bind (.refl _) fun _ => .bind (.refl _) fun _ => ?_
    exact .bind (.mapM (fun _ => .bind (.refl _) h) _) fun _ => .refl _

/-- **More depth changes nothing** where the reader came to an end. -/
theorem deepened_readLoadableWithin (i : ConstantIndex) {depth depth' : Nat} (h : depth ≤ depth') :
    Deepened (c.readLoadableWithin depth i) (c.readLoadableWithin depth' i) := by
  induction depth generalizing i depth' with
  | zero => exact .inl ⟨i, rfl⟩
  | succ depth ih =>
    obtain ⟨depth', rfl⟩ := Nat.exists_eq_add_of_le' (Nat.zero_lt_of_lt h)
    unfold readLoadableWithin
    refine .bind (.refl _) fun offset => .bind (.refl _) fun byte => ?_
    split
    case h_9 =>
      refine .bind (.refl _) fun m => .bind (.refl _) fun text => .bind (.refl _) fun k => ?_
      exact .bind (deepened_readBootstrapWith (fun j => ih j (Nat.le_of_succ_le_succ h)) k)
        fun _ => .refl _
    all_goals exact .refl _

/-- An argument that has a value has that value, or the depth was not enough for it. -/
theorem Readable.eq_ok_or (h : c.Readable i) (depth : Nat) :
    (∃ v, c.readLoadableWithin depth i = .ok v) ∨ OutOfDepth (c.readLoadableWithin depth i) := by
  obtain ⟨depth', v, hv⟩ := h
  rcases Nat.le_total depth depth' with hle | hle
  · exact (deepened_readLoadableWithin i hle).symm.imp_left fun heq => ⟨v, heq.trans hv⟩
  · exact .inl ⟨v, (deepened_readLoadableWithin i hle).eq_ok hv⟩

/-- **An entry runs out of depth in an argument that is come to.** -/
theorem outOfDepth_bootstrap_iff :
    OutOfDepth (c.readBootstrapWith (c.readLoadableWithin depth) k) ↔
      ∃ i, c.ComesTo k i ∧ OutOfDepth (c.readLoadableWithin depth i) := by
  unfold readBootstrapWith
  constructor
  · intro h
    split at h
    · simp at h
    · next offset ho =>
      simp only [outOfDepth_bind_iff, not_outOfDepth_u16At, not_outOfDepth_readMethodHandle,
        outOfDepth_mapM_range_iff, false_or, not_outOfDepth_pure, and_false, exists_false,
        or_false] at h
      obtain ⟨handle, hhandle, method, hmethod, count, hcount, m, hm, ⟨i, hi, hdeep⟩, hbefore⟩ := h
      refine ⟨i, ⟨offset, handle, method, count, m, ho, hhandle, hmethod, hcount, hm, hi, ?_⟩, hdeep⟩
      intro l hl
      obtain ⟨v, hv⟩ := hbefore l hl
      obtain ⟨j, hj, hv⟩ := bind_eq_ok_iff.1 hv
      exact ⟨j, hj, depth, v, hv⟩
  · rintro ⟨i, ⟨offset, handle, method, count, m, ho, hhandle, hmethod, hcount, hm, hi, hbefore⟩,
      hdeep⟩
    rw [ho]
    refine outOfDepth_bind_iff.2 (.inr ⟨handle, hhandle, outOfDepth_bind_iff.2 (.inr ⟨method, hmethod,
      outOfDepth_bind_iff.2 (.inr ⟨count, hcount, outOfDepth_bind_iff.2 (.inl ?_)⟩)⟩)⟩)
    refine outOfDepth_mapM_range hm (outOfDepth_bind_iff.2 (.inr ⟨i, hi, hdeep⟩)) fun l hl => ?_
    obtain ⟨j, hj, hv⟩ := hbefore l hl
    exact (hv.eq_ok_or depth).imp (Exists.imp fun _ hv => bind_eq_ok_iff.2 ⟨j, hj, hv⟩)
      fun hdeep => outOfDepth_bind_iff.2 (.inr ⟨j, hj, hdeep⟩)

/-- **A constant runs out of depth in a constant that it needs.** -/
theorem outOfDepth_succ_iff :
    OutOfDepth (c.readLoadableWithin (depth + 1) i) ↔
      ∃ j, c.Needs i j ∧ OutOfDepth (c.readLoadableWithin depth j) := by
  rw [readLoadableWithin]
  simp only [outOfDepth_bind_iff, not_outOfDepth_itemOffset, not_outOfDepth_u8At, false_or]
  constructor
  · rintro ⟨offset, hi, byte, hbyte, h⟩
    split at h
    case h_9 htag =>
      simp only [outOfDepth_bind_iff, not_outOfDepth_u16At, not_outOfDepth_readNameAndType,
        outOfDepth_bootstrap_iff, false_or, not_outOfDepth_pure, and_false, exists_false,
        or_false] at h
      obtain ⟨m, hm, text, htext, k, hk, j, hj, hdeep⟩ := h
      rw [← Constant.Tag.byte_of_ofByte? htag] at hbyte
      exact ⟨j, ⟨offset, m, text, k, hi, hbyte, hm, htext, hk, hj⟩, hdeep⟩
    all_goals simp [Bytes.i32At, Bytes.singleAt, Bytes.i64At, Bytes.doubleAt] at h
  · rintro ⟨j, ⟨offset, m, text, k, hi, hbyte, hm, htext, hk, hj⟩, hdeep⟩
    refine ⟨offset, hi, _, hbyte, ?_⟩
    rw [Constant.Tag.ofByte?_byte]
    simp only [outOfDepth_bind_iff]
    have hentry := outOfDepth_bootstrap_iff.2 ⟨j, hj, hdeep⟩
    exact .inr ⟨m, hm, .inr ⟨text, htext, .inr ⟨k, hk, .inl hentry⟩⟩⟩

/-! ## 4. Chains of constants that need each other -/

/-- A constant that needs itself, however deep it is nested in itself, is never read to an end. -/
theorem outOfDepth_of_nested (hi : TransGen c.Needs i i) (depth : Nat) :
    OutOfDepth (c.readLoadableWithin depth i) := by
  induction depth generalizing i with
  | zero => exact ⟨i, rfl⟩
  | succ depth ih =>
    obtain ⟨j, hij, hji⟩ := TransGen.head'_iff.1 hi
    exact outOfDepth_succ_iff.2 ⟨j, hij, ih (.tail' hji hij)⟩

/-- Nor is a constant that needs a constant which is not read to an end. -/
theorem outOfDepth_of_needs (h : ReflTransGen c.Needs i j)
    (hj : ∀ depth, OutOfDepth (c.readLoadableWithin depth j)) (depth : Nat) :
    OutOfDepth (c.readLoadableWithin depth i) := by
  induction h using ReflTransGen.head_induction_on generalizing depth with
  | refl => exact hj depth
  | head hij _ ih =>
    cases depth with
    | zero => exact ⟨_, rfl⟩
    | succ depth => exact outOfDepth_succ_iff.2 ⟨_, hij, ih depth⟩

/-- Where the depth is not enough, there are that many constants, each of which needs the next one. -/
theorem exists_chain (h : OutOfDepth (c.readLoadableWithin depth i)) :
    ∃ l : List ConstantIndex, l.length = depth ∧ l.Pairwise (TransGen c.Needs) ∧
      ∀ j ∈ l, ReflTransGen c.Needs i j ∧ ∃ k, c.Needs j k := by
  induction depth generalizing i with
  | zero => exact ⟨[], rfl, .nil, by simp⟩
  | succ depth ih =>
    obtain ⟨j, hij, hj⟩ := outOfDepth_succ_iff.1 h
    obtain ⟨l, hlength, hl, hall⟩ := ih hj
    refine ⟨i :: l, by rw [List.length_cons, hlength], ?_, ?_⟩
    · exact .cons (fun k hk => .head' hij (hall k hk).1) hl
    · rintro k (_ | ⟨_, hk⟩)
      · exact ⟨.refl, j, hij⟩
      · exact ⟨.head hij (hall k hk).1, (hall k hk).2⟩

/-- **The depth that is allowed is enough** for a constant that needs none which needs itself. -/
theorem not_outOfDepth_readLoadable
    (h : ∀ j, ReflTransGen c.Needs i j → ¬ TransGen c.Needs j j) :
    ¬ OutOfDepth (c.readLoadable i) := by
  intro hdeep
  obtain ⟨l, hlength, hl, hall⟩ := exists_chain hdeep
  have hnodup : l.Nodup := by
    refine hl.imp_of_mem fun hj _ hjk heq => ?_
    subst heq
    exact h _ (hall _ hj).1 hjk
  have hsub : l.map UInt16.toNat ⊆ List.range c.itemOffsets.size := by
    intro n hn
    obtain ⟨j, hj, rfl⟩ := List.mem_map.1 hn
    obtain ⟨k, hk⟩ := (hall j hj).2
    exact List.mem_range.2 hk.lt_size
  have hnodup' : (l.map UInt16.toNat).Nodup := hnodup.map fun _ _ => UInt16.toNat_inj.1
  have hle := (hnodup'.subperm hsub).length_le
  rw [List.length_map, List.length_range, hlength, nestingBound] at hle
  omega

/-! ## 5. Where reading ends -/

variable (c) in
/-- Reading a constant comes to an end. -/
def Ends (i : ConstantIndex) : Prop := ∃ depth, ¬ OutOfDepth (c.readLoadableWithin depth i)

variable (c) in
/-- Reading an entry of the bootstrap table comes to an end. -/
def EntryEnds (k : UInt16) : Prop :=
  ∃ depth, ¬ OutOfDepth (c.readBootstrapWith (c.readLoadableWithin depth) k)

/-- **Reading a constant ends just if none on the way needs itself.** -/
theorem ends_iff : c.Ends i ↔ ∀ j, ReflTransGen c.Needs i j → ¬ TransGen c.Needs j j := by
  constructor
  · rintro ⟨depth, hdepth⟩ j hij hj
    exact hdepth (outOfDepth_of_needs hij (outOfDepth_of_nested hj) depth)
  · exact fun h => ⟨_, not_outOfDepth_readLoadable h⟩

/-- **The answer does not depend on the depth**: at the depth that is allowed, it is the answer of any
depth that is enough. -/
theorem readLoadable_eq (h : ¬ OutOfDepth (c.readLoadableWithin depth i)) :
    c.readLoadable i = c.readLoadableWithin depth i := by
  have hallowed : ¬ OutOfDepth (c.readLoadable i) := not_outOfDepth_readLoadable (ends_iff.1 ⟨depth, h⟩)
  rcases Nat.le_total depth c.nestingBound with hle | hle
  · exact ((deepened_readLoadableWithin i hle).eq_of_not h).symm
  · exact (deepened_readLoadableWithin i hle).eq_of_not hallowed

theorem entryEnds_iff : c.EntryEnds k ↔ ∀ i, c.ComesTo k i → c.Ends i := by
  constructor
  · rintro ⟨depth, hdepth⟩ i hi
    exact ⟨depth, fun hdeep => hdepth (outOfDepth_bootstrap_iff.2 ⟨i, hi, hdeep⟩)⟩
  · refine fun h => ⟨c.nestingBound, fun hdeep => ?_⟩
    obtain ⟨i, hi, hdeep⟩ := outOfDepth_bootstrap_iff.1 hdeep
    exact not_outOfDepth_readLoadable (ends_iff.1 (h i hi)) hdeep

theorem all_end (h : ∀ i, ¬ TransGen c.Needs i i) : (∀ i, c.Ends i) ∧ ∀ k, c.EntryEnds k := by
  have hends : ∀ i, c.Ends i := fun i => ends_iff.2 fun j _ => h j
  exact ⟨hends, fun k => entryEnds_iff.2 fun i _ => hends i⟩

/-- **Everything can be read to an end just if no constant is nested in itself.** -/
theorem all_end_iff (c : ClassBytes) :
    ((∀ i, c.Ends i) ∧ ∀ k, c.EntryEnds k) ↔ ∀ i, ¬ TransGen c.Needs i i :=
  ⟨fun ⟨h, _⟩ i => ends_iff.1 (h i) i .refl, all_end⟩

/-! ## 6. A constant that needs itself -/

/-- A class file with a dynamic constant that is an argument of its own bootstrap method. -/
def selfNestedBytes : Bytes :=
  #[0xca, 0xfe, 0xba, 0xbe, 0, 0, 0, 55, 0, 12, 1, 0, 1, 0x54, 7, 0, 1, 1, 0, 1, 0x66, 1, 0, 3, 0x28,
    0x29, 0x56, 12, 0, 3, 0, 4, 10, 0, 2, 0, 5, 15, 6, 0, 6, 1, 0, 1, 0x49, 12, 0, 3, 0, 8, 17, 0, 0,
    0, 9, 1, 0, 16, 0x42, 0x6f, 0x6f, 0x74, 0x73, 0x74, 0x72, 0x61, 0x70, 0x4d, 0x65, 0x74, 0x68, 0x6f,
    0x64, 0x73, 0, 0x21, 0, 2, 0, 0, 0, 0, 0, 0, 0, 0, 0, 1, 0, 11, 0, 0, 0, 8, 0, 1, 0, 7, 0, 1, 0, 10]

/-- The same class file with where things are in it. -/
def selfNestedSource : ClassBytes :=
  ⟨selfNestedBytes, #[0, 10, 14, 17, 21, 27, 32, 37, 41, 45, 50, 55], 74, 86, #[96], some 94⟩

theorem ofBytes_selfNested : ofBytes selfNestedBytes = .ok selfNestedSource := by
  have hmagic : selfNestedBytes.u32At 0 = .ok magicNumber := by decide +kernel
  have hcount : selfNestedBytes.u16At 8 = .ok 12 := by decide +kernel
  have hrecords : indexRecords selfNestedBytes 12 1 10 (Array.replicate 12 0) =
      .ok (selfNestedSource.itemOffsets, 74) := by decide +kernel
  have hfind : findAttributes selfNestedBytes 74 = .ok 86 := by decide +kernel
  have hattributes : selfNestedBytes.u16At 86 = .ok 1 := by decide +kernel
  have hattribute : (⟨selfNestedBytes, selfNestedSource.itemOffsets, 74, 86, #[], none⟩ :
      ClassBytes).indexAttribute 88 = .ok (selfNestedSource, 102) := by
    refine bind_eq_ok_iff.2 ⟨8, by decide +kernel, bind_eq_ok_iff.2 ⟨"BootstrapMethods", by decide +kernel, ?_⟩⟩
    exact bind_eq_ok_iff.2 ⟨1, by decide +kernel, bind_eq_ok_iff.2 ⟨#[96], by decide +kernel, rfl⟩⟩
  exact ofBytes_eq_ok hmagic hcount hrecords hfind hattributes (iterateM_one hattribute)

theorem comesTo_selfNested : selfNestedSource.ComesTo 0 10 :=
  ⟨96, 7, ⟨.invokeStatic, "T", "f", "()V", false⟩, 1, 0, rfl, by decide +kernel, by decide +kernel,
    by decide +kernel, by decide, by decide +kernel, fun _ hl => absurd hl (Nat.not_lt_zero _)⟩

theorem needs_selfNested : selfNestedSource.Needs 10 10 :=
  ⟨50, 9, ("f", "I"), 0, by decide +kernel, by decide +kernel, by decide +kernel, by decide +kernel,
    by decide +kernel, comesTo_selfNested⟩

/-- **It is accepted, and neither the constant nor the entry is ever read to an end.** -/
theorem not_ends_selfNested : ofBytes selfNestedBytes = .ok selfNestedSource ∧
    ¬ selfNestedSource.Ends 10 ∧ ¬ selfNestedSource.EntryEnds 0 := by
  have hconstant : ¬ selfNestedSource.Ends 10 := fun h =>
    ends_iff.1 h 10 .refl (.single needs_selfNested)
  exact ⟨ofBytes_selfNested, hconstant, fun h => hconstant (entryEnds_iff.1 h 10 comesTo_selfNested)⟩

end ClassBytes

end ClassFile
