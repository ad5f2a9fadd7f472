/-
# Pools after any operations

`Coherent` is what is true of a pool whatever was done to it, operations that stopped half-way
included: what is remembered about a record is where it is, so that equal records have one index; a
record refers only to records before it, of the kind that the position asks for; and a dynamic
constant refers to an entry of the bootstrap table whose arguments are before it.

An operation is *steady* if it keeps a pool coherent and loses nothing of it, also when it fails, and
if an answer, once given, is given again on every later pool, which does not grow by it (`Again`).
Interning is steady (`steady_intern`), and one steady operation after another is
(`Steady.bind`); so what is composed of interning is steady, wherever it stops.

The numbers of the bootstrap table have sixteen bits and come round after 65536 entries.  That is why
what is said about them is said for tables that are not longer.
-/
import ClassFile.Proofs.ConstantPool

namespace ClassFile

/-! ## 1. References between records -/

namespace Constant

/-- A position from which a record refers to another one. -/
inductive Role where
  | utf8
  | classRef
  | nameAndType
  | fieldRef
  | methodRef
  deriving DecidableEq, Repr

/-- Is a record one that the position asks for? -/
def Role.accepts : Role → Constant → Bool
  | .utf8, .utf8 _ | .classRef, .classRef _ | .nameAndType, .nameAndType _ _
  | .fieldRef, .fieldRef _ _ | .methodRef, .methodRef _ _ _ => true
  | _, _ => false

/-- The position of the member of a method handle. -/
def memberRole (kind : HandleKind) : Role := if kind.isField then .fieldRef else .methodRef

/-- The records that a record refers to. -/
def references : Constant → List (ConstantIndex × Role)
  | utf8 _ | integer _ | float _ | long _ | double _ => []
  | classRef i | string i | methodType i | module i | package i => [(i, .utf8)]
  | fieldRef i j | methodRef i j _ => [(i, .classRef), (j, .nameAndType)]
  | nameAndType i j => [(i, .utf8), (j, .utf8)]
  | methodHandle kind i => [(i, memberRole kind)]
  | dynamic _ i | invokeDynamic _ i => [(i, .nameAndType)]

/-- The entry of the bootstrap table that a record refers to. -/
def bootstrap? : Constant → Option UInt16
  | dynamic b _ | invokeDynamic b _ => some b
  | _ => none

end Constant

/-! ## 2. The tables beside the records -/

theorem getElem?_push_of_some {α : Type} {a : Array α} {x y : α} {i : Nat} (h : a[i]? = some y) :
    (a.push x)[i]? = some y := by
  rw [InternTable.getElem?_push_of_lt (Array.getElem?_eq_some_iff.1 h).1, h]

/-- Nothing is found in a table without entries. -/
theorem InternTable.get?_empty {K V : Type} [BEq K] [LawfulBEq K] [Hashable K] (key : K) :
    (InternTable.empty : InternTable K V).get? key = none :=
  InternTable.linked_empty.get?_eq_none_iff.2 (by simp)

namespace BootstrapTable

variable {t t' t'' : BootstrapTable}

/-- The second table has every entry of the first one under its number, and gives it that number. -/
instance : LE BootstrapTable :=
  ⟨fun t t' => (∀ (i : Nat) (e : BootstrapEntry), t.entries[i]? = some e →
    t'.entries[i]? = some e) ∧ ∀ e k, t.lookup.get? e = some k → t'.lookup.get? e = some k⟩

theorem le_refl (t : BootstrapTable) : t ≤ t := ⟨fun _ _ h => h, fun _ _ h => h⟩

theorem le_trans (h : t ≤ t') (h' : t' ≤ t'') : t ≤ t'' :=
  ⟨fun i e he => h'.1 i e (h.1 i e he), fun e k hk => h'.2 e k (h.2 e k hk)⟩

theorem size_le (h : t ≤ t') : t.entries.size ≤ t'.entries.size := by
  refine Nat.le_of_not_lt fun hlt => ?_
  have hlast := h.1 t'.entries.size t.entries[t'.entries.size] (Array.getElem?_eq_getElem hlt)
  exact Nat.lt_irrefl _ (Array.getElem?_eq_some_iff.1 hlast).1

/-- **The invariant of a bootstrap table**: as long as numbers have not come round, the number of an
entry is where it is. -/
structure Numbered (t : BootstrapTable) : Prop where
  linked : t.lookup.Linked
  lookup_lt : ∀ e k, t.lookup.get? e = some k → k.toNat < t.entries.size
  lookup_iff : t.entries.size ≤ 65536 → ∀ (e : BootstrapEntry) (k : UInt16),
    t.lookup.get? e = some k ↔ t.entries[k.toNat]? = some e

theorem numbered_empty : empty.Numbered where
  linked := InternTable.linked_empty
  lookup_lt e k hk := by
    have hnone : empty.lookup.get? e = none := InternTable.get?_empty e
    rw [hnone] at hk
    cases hk
  lookup_iff _ e k := by
    have hnone : empty.lookup.get? e = none := InternTable.get?_empty e
    rw [hnone]
    simp [empty]

/-- An entry that has a number keeps it. -/
theorem intern_of_get? {e : BootstrapEntry} {k : UInt16} (hk : t.lookup.get? e = some k) :
    t.intern e = if k = UInt16.ofNat t.entries.size then (k, ⟨t.entries.push e, t.lookup⟩)
      else (k, t) := by
  simp only [intern, InternTable.insert, hk]

/-- A new entry is placed at the end. -/
theorem intern_of_new {e : BootstrapEntry} (he : t.lookup.get? e = none) :
    t.intern e = (UInt16.ofNat t.entries.size, ⟨t.entries.push e,
      (t.lookup.insert e (UInt16.ofNat t.entries.size)).2⟩) := by
  simp only [intern, InternTable.fst_insert, he, Option.getD_none, if_true]

/-- An entry that is there is not placed again. -/
theorem Numbered.intern_again (ht : t.Numbered) {e : BootstrapEntry} {k : UInt16}
    (hk : t.lookup.get? e = some k) (hsize : t.entries.size ≤ 65535) : t.intern e = (k, t) := by
  have hat := (ht.lookup_iff (by omega) e k).1 hk
  have hlt : k.toNat < t.entries.size := (Array.getElem?_eq_some_iff.1 hat).1
  rw [intern_of_get? hk, if_neg]
  rintro rfl
  rw [UInt16.toNat_ofNat_of_lt' (show t.entries.size < 65536 by omega)] at hlt
  exact Nat.lt_irrefl _ hlt

/-- Behind 65536 entries the next number is that of the first one, which is placed again. -/
theorem intern_first_again {e : BootstrapEntry} (he : t.lookup.get? e = some 0)
    (hsize : t.entries.size = 65536) : t.intern e = (0, ⟨t.entries.push e, t.lookup⟩) := by
  rw [intern_of_get? he, hsize]
  exact if_pos rfl

/-- **Interning gives the entry a number** and keeps what was there. -/
theorem Numbered.intern (ht : t.Numbered) (e : BootstrapEntry) :
    (t.intern e).2.Numbered ∧ t ≤ (t.intern e).2 ∧
      (t.intern e).2.lookup.get? e = some (t.intern e).1 ∧
      ∀ x ∈ (t.intern e).2.entries, x ∈ t.entries ∨ x = e := by
  cases hk : t.lookup.get? e with
  | some k =>
    by_cases hnext : k = UInt16.ofNat t.entries.size
    · rw [intern_of_get? hk, if_pos hnext]
      refine ⟨⟨ht.linked, fun x j hj => ?_, fun hsize => ?_⟩,
        ⟨fun i x hx => getElem?_push_of_some hx, fun _ _ hx => hx⟩, hk, fun x hx => by simpa using hx⟩
      · rw [Array.size_push]
        exact Nat.lt_succ_of_lt (ht.lookup_lt x j hj)
      rw [Array.size_push] at hsize
      have hagain := ht.intern_again hk (by omega)
      rw [intern_of_get? hk, if_pos hnext, Prod.mk.injEq] at hagain
      have := congrArg (fun t => t.entries.size) hagain.2
      simp at this
    · rw [intern_of_get? hk, if_neg hnext]
      exact ⟨ht, le_refl t, hk, fun x hx => .inl hx⟩
  | none =>
    rw [intern_of_new hk]
    have hget := ht.linked.get?_insert e (UInt16.ofNat t.entries.size)
    rw [hk, Option.getD_none] at hget
    have hself : (t.lookup.insert e (UInt16.ofNat t.entries.size)).2.get? e =
        some (UInt16.ofNat t.entries.size) := by rw [hget, if_pos rfl]
    refine ⟨⟨ht.linked.insert _ _, fun x k hx => ?_, fun hsize x k => ?_⟩,
      ⟨fun i x hx => getElem?_push_of_some hx, fun x k hx => ?_⟩, hself,
      fun x hx => by simpa using hx⟩
    · rw [Array.size_push]
      rw [hget] at hx
      split at hx
      · cases hx
        rw [UInt16.toNat_ofNat']
        exact Nat.lt_succ_of_le (Nat.mod_le _ _)
      · exact Nat.lt_succ_of_lt (ht.lookup_lt x k hx)
    · rw [Array.size_push] at hsize
      have hnumber : (UInt16.ofNat t.entries.size).toNat = t.entries.size :=
        UInt16.toNat_ofNat_of_lt' (show t.entries.size < 65536 by omega)
      rw [hget, Array.getElem?_push]
      by_cases hx : x = e
      · subst hx
        rw [if_pos rfl]
        constructor
        · intro hk'
          cases hk'
          rw [if_pos hnumber]
        · intro hat
          split at hat
          · rename_i hat'
            rw [← hnumber, UInt16.toNat_inj] at hat'
            rw [hat']
          · rw [← ht.lookup_iff (by omega), hk] at hat
            cases hat
      · rw [if_neg hx, ht.lookup_iff (by omega)]
        split
        · rename_i hat
          rw [hat, Array.getElem?_eq_none (Nat.le_refl _)]
          simp [Ne.symm hx]
        · exact Iff.rfl
    · show (t.lookup.insert e _).2.get? x = some k
      rw [hget, if_neg]
      · exact hx
      · rintro rfl
        rw [hk] at hx
        cases hx

end BootstrapTable

namespace TypeTable

variable {T T' T'' : TypeTable}

/-- What is true of a table of types whatever the hierarchies that merges have followed. -/
structure Numbered (T : TypeTable) : Prop where
  lookup_linked : T.lookup.Linked
  lookup_iff : ∀ (e : TypeEntry) (i : TypeIndex),
    T.lookup.get? e = some i ↔ T.entries[i]? = some e
  merges_linked : T.merges.Linked
  merged_placed : ∀ pair i, T.merges.get? pair = some i → ∃ e, T.entries[i]? = some e

theorem numbered_empty : empty.Numbered where
  lookup_linked := InternTable.linked_empty
  lookup_iff e i := by
    have hnone : empty.lookup.get? e = none := InternTable.get?_empty e
    rw [hnone]
    simp [empty]
  merges_linked := InternTable.linked_empty
  merged_placed pair i hi := by
    have hnone : empty.merges.get? pair = none := InternTable.get?_empty pair
    rw [hnone] at hi
    cases hi

/-- Equal types have one number. -/
theorem Numbered.index_unique (hT : T.Numbered) {e : TypeEntry} {i j : TypeIndex}
    (hi : T.entries[i]? = some e) (hj : T.entries[j]? = some e) : i = j := by
  rw [← hT.lookup_iff] at hi hj
  exact Option.some.inj (hi.symm.trans hj)

/-- The second table has each type of the first one, and remembers what merging two types has given. -/
structure Kept (T T' : TypeTable) : Prop where
  entry : T ≤ T'
  merged : ∀ pair i, T.merges.get? pair = some i → T'.merges.get? pair = some i

theorem Kept.refl (T : TypeTable) : T.Kept T := ⟨le_refl T, fun _ _ h => h⟩

theorem Kept.trans (h : T.Kept T') (h' : T'.Kept T'') : T.Kept T'' :=
  ⟨le_trans h.entry h'.entry, fun pair i hi => h'.merged pair i (h.merged pair i hi)⟩

/-- An operation that loses nothing of a table, also when it fails; its answers have a property, and
are given again, without any change, on every later table. -/
def Firm {α : Type} (f : TypeM α) (Q : α → TypeTable → Prop) : Prop :=
  ∀ T, T.Numbered → ∀ r T', f T = (r, T') → T'.Numbered ∧ T.Kept T' ∧
    ∀ a, r = .ok a → Q a T' ∧ ∀ T'', T''.Numbered → T'.Kept T'' → Returns f T'' a T''

theorem Numbered.intern_again (hT : T.Numbered) {e : TypeEntry} {i : TypeIndex}
    (hi : T.entries[i]? = some e) : Returns (intern e) T i T := by
  have hlt : i < T.entries.size := (Array.getElem?_eq_some_iff.1 hi).1
  have hget := (hT.lookup_iff e i).2 hi
  rw [intern, returns_modifyGet]
  simp only [InternTable.insert, hget, if_neg (Nat.ne_of_lt hlt)]

/-- A new type is placed at the end. -/
theorem returns_intern_new {e : TypeEntry} (he : T.lookup.get? e = none) :
    Returns (intern e) T T.entries.size
      ⟨T.entries.push e, (T.lookup.insert e T.entries.size).2, T.merges⟩ := by
  rw [intern, returns_modifyGet]
  simp only [InternTable.fst_insert, he, Option.getD_none, if_true]

theorem Numbered.push (hT : T.Numbered) {e : TypeEntry} (he : T.lookup.get? e = none) :
    (⟨T.entries.push e, (T.lookup.insert e T.entries.size).2, T.merges⟩ : TypeTable).Numbered := by
  refine ⟨hT.lookup_linked.insert _ _, fun x i => ?_, hT.merges_linked, fun pair i hi =>
    have ⟨x, hx⟩ := hT.merged_placed pair i hi
    ⟨x, getElem?_push_of_some hx⟩⟩
  show (T.lookup.insert e T.entries.size).2.get? x = some i ↔ (T.entries.push e)[i]? = some x
  rw [hT.lookup_linked.get?_insert, he, Option.getD_none, Array.getElem?_push]
  by_cases hx : x = e
  · subst hx
    rw [if_pos rfl]
    split
    · rename_i hi
      simp [hi]
    · rename_i hi
      rw [← hT.lookup_iff, he]
      simp [Ne.symm hi]
  · rw [if_neg hx, hT.lookup_iff]
    split
    · rename_i hi
      simp [hi, Ne.symm hx]
    · exact Iff.rfl

/-- **Interning a type is firm.** -/
theorem firm_intern (e : TypeEntry) : Firm (intern e) fun i T => T.entries[i]? = some e := by
  intro T hT r T' hr
  cases he : T.lookup.get? e with
  | some i =>
    have hi := (hT.lookup_iff e i).1 he
    obtain ⟨rfl, rfl⟩ := Prod.mk.injEq .. ▸ (hT.intern_again hi).symm.trans hr
    refine ⟨hT, .refl T, fun a ha => ?_⟩
    cases ha
    exact ⟨hi, fun T'' hT'' hk => hT''.intern_again (hk.entry _ _ hi)⟩
  | none =>
    obtain ⟨rfl, rfl⟩ := Prod.mk.injEq .. ▸ (returns_intern_new he).symm.trans hr
    refine ⟨hT.push he, ⟨fun i x hx => ?_, fun _ _ h => h⟩, fun a ha => ?_⟩
    · exact getElem?_push_of_some hx
    · cases ha
      have hi : (T.entries.push e)[T.entries.size]? = some e := Array.getElem?_push_size
      exact ⟨hi, fun T'' hT'' hk => hT''.intern_again (hk.entry _ _ hi)⟩

theorem entry_apply (i : TypeIndex) (T : TypeTable) :
    entry i T = match T.entries[i]? with
      | some e => (.ok e, T)
      | none => (.error (.invalidTypeIndex i), T) := by
  rw [entry, bind_apply]
  show ((match T.entries[i]? with | some e => pure e | none => throw _ : TypeM TypeEntry) T) = _
  cases T.entries[i]? <;> rfl

/-- What a merge does, in each case. -/
theorem merged_apply (h : Hierarchy) (a b : TypeIndex) (T : TypeTable) :
    merged h a b T = match T.merges.get? (min a b, max a b) with
      | some i => (.ok i, T)
      | none => match T.entries[a]? with
        | none => (.error (.invalidTypeIndex a), T)
        | some x => match T.entries[b]? with
          | none => (.error (.invalidTypeIndex b), T)
          | some y =>
            match (initialized ((h.commonSuperclass x.name y.name).getD rootClass) T :
              Except Error TypeIndex × TypeTable) with
            | (.ok i, T) => (.ok i, ⟨T.entries, T.lookup, (T.merges.insert (min a b, max a b) i).2⟩)
            | (.error e, T) => (.error e, T) := by
  unfold merged
  rw [bind_apply]
  show (match T.merges.get? (min a b, max a b) with | some i => _ | none => _ : TypeM TypeIndex) T = _
  cases T.merges.get? (min a b, max a b) with
  | some i => rfl
  | none =>
    show (entry a >>= _) T = _
    rw [bind_apply, entry_apply]
    cases T.entries[a]? with
    | none => rfl
    | some x =>
      show (entry b >>= _) T = _
      rw [bind_apply, entry_apply]
      cases T.entries[b]? with
      | none => rfl
      | some y =>
        show (initialized _ >>= _) T = _
        rw [bind_apply]
        dsimp only
        rcases (initialized ((h.commonSuperclass x.name y.name).getD rootClass) T :
          Except Error TypeIndex × TypeTable) with ⟨_ | _, _⟩ <;> rfl

/-- **Merging is firm**, whatever the hierarchy. -/
theorem firm_merged (h : Hierarchy) (a b : TypeIndex) :
    Firm (merged h a b) fun i T => T.merges.get? (min a b, max a b) = some i := by
  have hagain : ∀ {T : TypeTable} {i : TypeIndex}, T.merges.get? (min a b, max a b) = some i →
      merged h a b T = (.ok i, T) := by
    intro T i hi
    rw [merged_apply, hi]
  intro T hT r T' hr
  cases hmemo : T.merges.get? (min a b, max a b) with
  | some i =>
    obtain ⟨rfl, rfl⟩ := Prod.mk.injEq .. ▸ (hagain hmemo).symm.trans hr
    refine ⟨hT, .refl T, fun j hj => ?_⟩
    cases hj
    exact ⟨hmemo, fun T'' _ hk => hagain (hk.merged _ _ hmemo)⟩
  | none =>
    rw [merged_apply, hmemo] at hr
    dsimp only at hr
    split at hr
    · cases hr
      exact ⟨hT, .refl T, fun j hj => nomatch hj⟩
    · split at hr
      · cases hr
        exact ⟨hT, .refl T, fun j hj => nomatch hj⟩
      · split at hr
        · rename_i i T₁ hi
          obtain ⟨hT₁, hk₁, hans₁⟩ := firm_intern _ T hT _ _ hi
          have hnone : T₁.merges.get? (min a b, max a b) = none := by
            rw [merges_of_intern hi, hmemo]
          have hget := hT₁.merges_linked.get?_insert (min a b, max a b) i
          rw [hnone, Option.getD_none] at hget
          cases hr
          refine ⟨⟨hT₁.lookup_linked, hT₁.lookup_iff, hT₁.merges_linked.insert _ _,
            fun pair j hj => ?_⟩, ⟨hk₁.entry, fun pair j hj => ?_⟩, fun j hj => ?_⟩
          · rw [hget] at hj
            split at hj
            · cases hj
              exact ⟨_, (hans₁ i rfl).1⟩
            · exact hT₁.merged_placed pair j hj
          · show (T₁.merges.insert _ _).2.get? pair = some j
            rw [hget, if_neg]
            · exact hk₁.merged pair j hj
            · rintro rfl
              rw [hmemo] at hj
              cases hj
          · cases hj
            have hself : (T₁.merges.insert (min a b, max a b) i).2.get? (min a b, max a b) =
                some i := by rw [hget, if_pos rfl]
            exact ⟨hself, fun T'' _ hk => hagain (hk.merged _ _ hself)⟩
        · rename_i hi
          cases hr
          obtain ⟨hT₁, hk₁, -⟩ := firm_intern _ T hT _ _ hi
          exact ⟨hT₁, hk₁, fun j hj => nomatch hj⟩

end TypeTable

/-! ## 3. Coherent pools -/

namespace ConstantPool

open Constant

variable {p p' p'' : ConstantPool}

/-- Is there a record at an index, of the kind that a position asks for? -/
def Plays (p : ConstantPool) (i : ConstantIndex) (role : Role) : Prop :=
  ∃ c, p.get? i = some c ∧ role.accepts c

/-- Does a pool have what a record refers to? -/
structure Fits (p : ConstantPool) (c : Constant) : Prop where
  references : ∀ r ∈ c.references, p.Plays r.1 r.2
  bootstrap : ∀ b, c.bootstrap? = some b → b.toNat < p.bootstrap.entries.size

/-- **The invariant of a pool.** -/
structure Coherent (p : ConstantPool) : Prop where
  laid : p.records.Laid 1
  room : p.records.nextOffset ≤ 65535
  lookup_linked : p.lookup.Linked
  lookup_iff : ∀ c i, p.lookup.get? c = some i ↔ p.get? i = some c
  fits : ∀ i c, p.get? i = some c → p.Fits c
  references_lt : ∀ i c, p.get? i = some c → ∀ r ∈ c.references, r.1 < i
  bootstrap : p.bootstrap.Numbered
  placed : ∀ e ∈ p.bootstrap.entries, ∀ a ∈ e.arguments, ∃ c, p.get? a = some c
  arguments_lt : ∀ i c, p.get? i = some c → ∀ b, c.bootstrap? = some b →
    ∀ e, p.bootstrap.entries[b.toNat]? = some e → ∀ a ∈ e.arguments, a < i
  types : p.types.Numbered

theorem get?_empty (i : ConstantIndex) : empty.get? i = none := by
  cases h : empty.get? i with
  | none => rfl
  | some c =>
    have hmem := (OffsetTable.laid_startingAt 1).get?_eq_some_iff Constant.width_pos |>.1 h
    simp at hmem

theorem coherent_empty : empty.Coherent where
  laid := OffsetTable.laid_startingAt 1
  room := by decide
  lookup_linked := InternTable.linked_empty
  lookup_iff c i := by
    have hnone : empty.lookup.get? c = none := InternTable.get?_empty c
    rw [hnone, get?_empty]
    simp
  fits i c hi := by simp [get?_empty] at hi
  references_lt i c hi := by simp [get?_empty] at hi
  bootstrap := BootstrapTable.numbered_empty
  placed e he := by simp [empty, BootstrapTable.empty] at he
  arguments_lt i c hi := by simp [get?_empty] at hi
  types := TypeTable.numbered_empty

/-- Equal records have one index. -/
theorem Coherent.index_unique (hp : p.Coherent) {c : Constant} {i j : ConstantIndex}
    (hi : p.get? i = some c) (hj : p.get? j = some c) : i = j := by
  rw [← hp.lookup_iff] at hi hj
  exact Option.some.inj (hi.symm.trans hj)

theorem Coherent.inOrder (hp : p.Coherent) : p.InOrder := ⟨hp.laid, hp.room⟩

theorem Coherent.mem_records_iff (hp : p.Coherent) {i : ConstantIndex} {c : Constant} :
    p.get? i = some c ↔ (i.toNat, c) ∈ p.records.toList := hp.inOrder.mem_records_iff

/-- The second pool has what the first one has: records, bootstrap methods, and types. -/
structure Kept (p p' : ConstantPool) : Prop where
  record : ∀ i c, p.get? i = some c → p'.get? i = some c
  bootstrap : p.bootstrap ≤ p'.bootstrap
  types : p.types.Kept p'.types

theorem Kept.refl (p : ConstantPool) : p.Kept p :=
  ⟨fun _ _ h => h, BootstrapTable.le_refl _, .refl _⟩

theorem Kept.trans (h : p.Kept p') (h' : p'.Kept p'') : p.Kept p'' :=
  ⟨fun i c hc => h'.record i c (h.record i c hc), BootstrapTable.le_trans h.bootstrap h'.bootstrap,
    h.types.trans h'.types⟩

theorem Plays.later {i : ConstantIndex} {role : Role} (h : p.Plays i role) (hk : p.Kept p') :
    p'.Plays i role :=
  have ⟨c, hc, hr⟩ := h
  ⟨c, hk.record i c hc, hr⟩

theorem Fits.later {c : Constant} (h : p.Fits c) (hk : p.Kept p') : p'.Fits c :=
  ⟨fun r hr => (h.references r hr).later hk,
    fun b hb => Nat.lt_of_lt_of_le (h.bootstrap b hb) (BootstrapTable.size_le hk.bootstrap)⟩

/-! ## 4. Steady operations -/

/-- Nothing was added to the records and the types. -/
structure Unmoved (p p' : ConstantPool) : Prop where
  records : p'.records = p.records
  lookup : p'.lookup = p.lookup
  types : p'.types = p.types

theorem Unmoved.refl (p : ConstantPool) : p.Unmoved p := ⟨rfl, rfl, rfl⟩

theorem Unmoved.trans (h : p.Unmoved p') (h' : p'.Unmoved p'') : p.Unmoved p'' where
  records := h'.records.trans h.records
  lookup := h'.lookup.trans h.lookup
  types := h'.types.trans h.types

/-- An operation gives an answer that it has given before, and adds no record and no type.  Up to 65535
entries of the bootstrap table it adds nothing at all; with more, an entry that is there may be placed
again, as its number is the one that would be next. -/
structure Repeated {α : Type} (m : PoolM α) (a : α) (p p' : ConstantPool) : Prop where
  returns : Returns m p a p'
  coherent : p'.Coherent
  kept : p.Kept p'
  unmoved : p.Unmoved p'
  same : p.bootstrap.entries.size ≤ 65535 → p' = p

/-- On every later pool an operation gives this answer again. -/
def Again {α : Type} (p : ConstantPool) (m : PoolM α) (a : α) : Prop :=
  ∀ p', p'.Coherent → p.Kept p' → ∃ p'', Repeated m a p' p''

/-- An operation that leaves a coherent pool coherent and keeps what is in it, also when it fails; its
answers have a property, and are given again. -/
def Steady {α : Type} (p : ConstantPool) (m : PoolM α) (Q : α → ConstantPool → Prop) : Prop :=
  p.Coherent → ∀ r p', m p = (r, p') → p'.Coherent ∧ p.Kept p' ∧
    ∀ a, r = .ok a → Q a p' ∧ Again p' m a

section Rules

variable {α β : Type} {m : PoolM α} {Q : α → ConstantPool → Prop}

theorem Again.later {a : α} (h : Again p m a) (hk : p.Kept p') : Again p' m a :=
  fun p'' hp'' hk' => h p'' hp'' (hk.trans hk')

/-- An operation that leaves the pool as it is. -/
theorem Repeated.of_returns {a : α} (hp : p.Coherent) (hr : Returns m p a p) : Repeated m a p p :=
  ⟨hr, hp, .refl p, .refl p, fun _ => rfl⟩

theorem Again.pure (a : α) : Again p (pure a) a :=
  fun p' hp' _ => ⟨p', .of_returns hp' (returns_pure.2 ⟨rfl, rfl⟩)⟩

theorem Again.bind {f : α → PoolM β} {a : α} {b : β} (hm : Again p m a) (hf : Again p (f a) b) :
    Again p (m >>= f) b := by
  intro p' hp' hk
  obtain ⟨p₁, h₁⟩ := hm p' hp' hk
  obtain ⟨p₂, h₂⟩ := hf p₁ h₁.coherent (hk.trans h₁.kept)
  refine ⟨p₂, returns_bind.2 ⟨a, p₁, h₁.returns, h₂.returns⟩, h₂.coherent, h₁.kept.trans h₂.kept,
    h₁.unmoved.trans h₂.unmoved, fun hsize => ?_⟩
  obtain rfl := h₁.same hsize
  exact h₂.same hsize

theorem Steady.of_returns {a : α} (hm : Steady p m Q) (hp : p.Coherent) (hr : Returns m p a p') :
    p'.Coherent ∧ p.Kept p' ∧ Q a p' ∧ Again p' m a := by
  obtain ⟨hp', hk, hans⟩ := hm hp _ _ hr
  exact ⟨hp', hk, hans a rfl⟩

theorem Steady.imp {Q' : α → ConstantPool → Prop} (hm : Steady p m Q)
    (hQ : ∀ a p', p.Kept p' → Q a p' → Q' a p') : Steady p m Q' := by
  intro hp r p' hr
  obtain ⟨hp', hk, hans⟩ := hm hp r p' hr
  exact ⟨hp', hk, fun a ha => ⟨hQ a p' hk (hans a ha).1, (hans a ha).2⟩⟩

theorem Steady.pure {a : α} (hQ : Q a p) : Steady p (pure a) Q := by
  intro hp r p' hr
  cases hr
  refine ⟨hp, .refl p, fun b hb => ?_⟩
  cases hb
  exact ⟨hQ, .pure a⟩

theorem Steady.bind {f : α → PoolM β} {R : β → ConstantPool → Prop} (hm : Steady p m Q)
    (hf : ∀ a p', p'.Coherent → p.Kept p' → Q a p' → Steady p' (f a) R) :
    Steady p (m >>= f) R := by
  intro hp r p' hr
  rw [bind_apply] at hr
  rcases hmp : (m p : Except Error α × ConstantPool) with ⟨e | a, p₁⟩ <;> rw [hmp] at hr
  · cases hr
    obtain ⟨hp₁, hk₁, -⟩ := hm hp _ _ hmp
    exact ⟨hp₁, hk₁, fun b hb => nomatch hb⟩
  · obtain ⟨hp₁, hk₁, hans⟩ := hm hp _ _ hmp
    obtain ⟨hQ, hagain⟩ := hans a rfl
    obtain ⟨hp₂, hk₂, hans₂⟩ := hf a p₁ hp₁ hk₁ hQ hp₁ r p' hr
    refine ⟨hp₂, hk₁.trans hk₂, fun b hb => ?_⟩
    obtain ⟨hR, hagain₂⟩ := hans₂ b hb
    exact ⟨hR, (hagain.later hk₂).bind hagain₂⟩

end Rules

/-! ## 5. Interning -/

/-- What interning does, in each case. -/
theorem intern_apply (c : Constant) (p : ConstantPool) :
    intern c p = match p.lookup.get? c with
      | some i => (.ok i, p)
      | none =>
        if 65535 < p.records.nextOffset + width c then
          (.error (.constantPoolOverflow c p.records.nextOffset), p)
        else (.ok (UInt16.ofNat p.records.nextOffset),
          { p with
            records := (p.records.push c).2
            lookup := (p.lookup.insert c (UInt16.ofNat p.records.nextOffset)).2 }) := by
  unfold intern
  rw [bind_apply]
  show (match p.lookup.get? c with | some i => _ | none => _ : PoolM ConstantIndex) p = _
  cases p.lookup.get? c with
  | some i => rfl
  | none =>
    show (push c >>= _) p = _
    rw [bind_apply, push]
    by_cases hfull : 65535 < p.records.nextOffset + width c
    · simp only [if_pos hfull]
    · simp only [if_neg hfull]
      rfl

/-- The records after a new one has been placed. -/
theorem Coherent.get?_push (hp : p.Coherent) {c : Constant}
    (hroom : p.records.nextOffset + width c ≤ 65535) {j : ConstantIndex} {d : Constant} :
    (p.records.push c).2.get? j.toNat = some d ↔
      p.get? j = some d ∨ j = UInt16.ofNat p.records.nextOffset ∧ d = c := by
  have hnext : (UInt16.ofNat p.records.nextOffset).toNat = p.records.nextOffset :=
    UInt16.toNat_ofNat_of_lt' (show p.records.nextOffset < 65536 by omega)
  rw [(hp.laid.push (lt_of_room hroom)).get?_eq_some_iff Constant.width_pos, OffsetTable.toList_push,
    List.mem_append, hp.mem_records_iff, List.mem_singleton, Prod.mk.injEq, ← UInt16.toNat_inj,
    hnext]

/-- A record is before the next one. -/
theorem Coherent.lt_next (hp : p.Coherent) {i : ConstantIndex} {c : Constant}
    (hi : p.get? i = some c) : i.toNat < p.records.nextOffset := hp.inOrder.lt_next hi

/-- **Placing a new record** that refers to what is there. -/
theorem Coherent.place (hp : p.Coherent) {c : Constant} (hfits : p.Fits c)
    (hnew : p.lookup.get? c = none) (hroom : p.records.nextOffset + width c ≤ 65535)
    (hp' : p' = { p with
      records := (p.records.push c).2
      lookup := (p.lookup.insert c (UInt16.ofNat p.records.nextOffset)).2 }) :
    p'.Coherent ∧ p.Kept p' ∧ p'.get? (UInt16.ofNat p.records.nextOffset) = some c := by
  have hget : ∀ j d, p'.get? j = some d ↔
      p.get? j = some d ∨ j = UInt16.ofNat p.records.nextOffset ∧ d = c := fun j d => by
    rw [hp']
    exact hp.get?_push hroom
  have hnext : (UInt16.ofNat p.records.nextOffset).toNat = p.records.nextOffset :=
    UInt16.toNat_ofNat_of_lt' (show p.records.nextOffset < 65536 by omega)
  have hbefore : ∀ j d, p.get? j = some d → j < UInt16.ofNat p.records.nextOffset := fun j d hd => by
    rw [UInt16.lt_iff_toNat_lt, hnext]
    exact hp.lt_next hd
  have hk : p.Kept p' := by
    refine ⟨fun j d hd => (hget j d).2 (.inl hd), ?_, ?_⟩ <;> rw [hp']
    · exact BootstrapTable.le_refl _
    · exact .refl _
  refine ⟨⟨?_, ?_, ?_, ?_, ?_, ?_, ?_, ?_, ?_, ?_⟩, hk, (hget _ _).2 (.inr ⟨rfl, rfl⟩)⟩
  · rw [hp']
    exact hp.laid.push (lt_of_room hroom)
  · rw [hp']
    exact (OffsetTable.nextOffset_push (lt_of_room hroom)).trans_le hroom
  · rw [hp']
    exact hp.lookup_linked.insert _ _
  · intro d j
    have hlookup : p'.lookup.get? d =
        if d = c then some (UInt16.ofNat p.records.nextOffset) else p.lookup.get? d := by
      have hinsert := hp.lookup_linked.get?_insert c (UInt16.ofNat p.records.nextOffset) d
      rw [hnew, Option.getD_none] at hinsert
      rw [hp']
      exact hinsert
    rw [hlookup, hget]
    split
    · rename_i hd
      subst hd
      rw [← hp.lookup_iff, hnew]
      simp [eq_comm]
    · rename_i hd
      rw [hp.lookup_iff]
      simp [hd]
  · intro j d hd
    rcases (hget j d).1 hd with hd | ⟨-, rfl⟩
    · exact (hp.fits j d hd).later hk
    · exact hfits.later hk
  · intro j d hd r hr
    rcases (hget j d).1 hd with hd | ⟨rfl, rfl⟩
    · exact hp.references_lt j d hd r hr
    · obtain ⟨x, hx, -⟩ := hfits.references r hr
      exact hbefore r.1 x hx
  · rw [hp']
    exact hp.bootstrap
  · intro e he a ha
    rw [hp'] at he
    obtain ⟨d, hd⟩ := hp.placed e he a ha
    exact ⟨d, hk.record a d hd⟩
  · intro j d hd b hb e he a ha
    rw [hp'] at he
    rcases (hget j d).1 hd with hd | ⟨rfl, rfl⟩
    · exact hp.arguments_lt j d hd b hb e he a ha
    · obtain ⟨x, hx⟩ := hp.placed e (Array.mem_of_getElem? he) a ha
      exact hbefore a x hx
  · rw [hp']
    exact hp.types

theorem Coherent.intern_again (hp : p.Coherent) {c : Constant} {i : ConstantIndex}
    (hi : p.get? i = some c) : Returns (intern c) p i p := by
  rw [Returns, intern_apply, (hp.lookup_iff c i).2 hi]

theorem again_intern {c : Constant} {i : ConstantIndex} (hi : p.get? i = some c) :
    Again p (intern c) i :=
  fun p' hp' hk => ⟨p', .of_returns hp' (hp'.intern_again (hk.record i c hi))⟩

/-- **Interning a record is steady**, if the records that it refers to are there. -/
theorem steady_intern {c : Constant} (hfits : p.Fits c) :
    Steady p (intern c) fun i p' => p'.get? i = some c := by
  intro hp r p' hr
  rw [intern_apply] at hr
  cases hl : p.lookup.get? c with
  | some i =>
    rw [hl] at hr
    cases hr
    have hi := (hp.lookup_iff c i).1 hl
    refine ⟨hp, .refl p, fun j hj => ?_⟩
    cases hj
    exact ⟨hi, again_intern hi⟩
  | none =>
    rw [hl] at hr
    dsimp only at hr
    split at hr
    · cases hr
      exact ⟨hp, .refl p, fun j hj => nomatch hj⟩
    · rename_i hroom
      obtain ⟨hr, hp'⟩ := Prod.mk.injEq .. ▸ hr
      obtain ⟨hc', hk, hi⟩ := hp.place hfits hl (Nat.le_of_not_lt hroom) hp'.symm
      refine ⟨hc', hk, fun j hj => ?_⟩
      cases hr.trans hj
      exact ⟨hi, again_intern hi⟩

/-! ## 6. The tables beside the records -/

theorem internBootstrap_apply (e : BootstrapEntry) (p : ConstantPool) :
    internBootstrap e p =
      (.ok (p.bootstrap.intern e).1, { p with bootstrap := (p.bootstrap.intern e).2 }) := rfl

/-- The pool with a later bootstrap table. -/
theorem Coherent.withBootstrap (hp : p.Coherent) {t : BootstrapTable} (ht : t.Numbered)
    (hle : p.bootstrap ≤ t)
    (hplaced : ∀ e ∈ t.entries, ∀ a ∈ e.arguments, ∃ c, p.get? a = some c) :
    Coherent { p with bootstrap := t } ∧ p.Kept { p with bootstrap := t } := by
  refine ⟨{ hp with
    bootstrap := ht
    placed := hplaced
    fits := fun i c hi => ⟨(hp.fits i c hi).references, fun b hb =>
      Nat.lt_of_lt_of_le ((hp.fits i c hi).bootstrap b hb) (BootstrapTable.size_le hle)⟩
    arguments_lt := fun i c hi b hb e he a ha => ?_ }, ⟨fun _ _ h => h, hle, .refl _⟩⟩
  -- the entry that a record refers to was there before
  have hlt := (hp.fits i c hi).bootstrap b hb
  have hold : p.bootstrap.entries[b.toNat]? = some p.bootstrap.entries[b.toNat] :=
    Array.getElem?_eq_getElem hlt
  have hnew := hle.1 _ _ hold
  rw [show t.entries[b.toNat]? = some e from he, Option.some.injEq] at hnew
  exact hp.arguments_lt i c hi b hb e (hnew ▸ hold) a ha

/-- **Giving a bootstrap method a number is steady**, if its arguments are there. -/
theorem steady_internBootstrap {e : BootstrapEntry}
    (hplaced : ∀ a ∈ e.arguments, ∃ c, p.get? a = some c) :
    Steady p (internBootstrap e) fun k p' => p'.bootstrap.lookup.get? e = some k := by
  intro hp r p' hr
  rw [internBootstrap_apply] at hr
  cases hr
  obtain ⟨ht, hle, hget, hentries⟩ := hp.bootstrap.intern e
  obtain ⟨hp', hk⟩ := hp.withBootstrap ht hle fun x hx => by
    rcases hentries x hx with hx | rfl
    · exact hp.placed x hx
    · exact hplaced
  refine ⟨hp', hk, fun k hk' => ?_⟩
  cases hk'
  refine ⟨hget, fun q hq hkq => ?_⟩
  have hgetq := hkq.bootstrap.2 e _ hget
  obtain ⟨htq, hleq, hagain, hentriesq⟩ := hq.bootstrap.intern e
  obtain ⟨hq', hkq'⟩ := hq.withBootstrap htq hleq fun x hx => by
    rcases hentriesq x hx with hx | rfl
    · exact hq.placed x hx
    · intro a ha
      obtain ⟨c, hc⟩ := hplaced a ha
      exact ⟨c, hkq.record a c (hk.record a c hc)⟩
  have hindex : (q.bootstrap.intern e).1 = (p.bootstrap.intern e).1 :=
    Option.some.inj (hagain.symm.trans (hleq.2 e _ hgetq))
  refine ⟨_, ?_, hq', hkq', ⟨rfl, rfl, rfl⟩, fun hsize => ?_⟩
  · rw [Returns, internBootstrap_apply, hindex]
  · rw [hq.bootstrap.intern_again hgetq hsize]

theorem checkBootstrap_apply (b : UInt16) (p : ConstantPool) :
    checkBootstrap b p = if b.toNat < p.bootstrap.entries.size then (.ok (), p)
      else (.error (.missingBootstrapMethod b), p) := by
  rw [checkBootstrap, bind_apply]
  show (if b.toNat < p.bootstrap.entries.size then _ else _ : PoolM Unit) p = _
  split <;> rfl

theorem steady_checkBootstrap (b : UInt16) :
    Steady p (checkBootstrap b) fun _ p' => b.toNat < p'.bootstrap.entries.size := by
  intro hp r p' hr
  rw [checkBootstrap_apply] at hr
  split at hr
  · rename_i hlt
    cases hr
    refine ⟨hp, .refl p, fun _ _ => ⟨hlt, fun q hq hkq => ⟨q, .of_returns hq ?_⟩⟩⟩
    rw [Returns, checkBootstrap_apply,
      if_pos (Nat.lt_of_lt_of_le hlt (BootstrapTable.size_le hkq.bootstrap))]
  · cases hr
    exact ⟨hp, .refl p, by rintro _ ⟨⟩⟩

/-- What is firm on the types is steady on the pool. -/
theorem steady_onTypes {α : Type} {f : TypeM α} {Q : α → TypeTable → Prop}
    (hf : TypeTable.Firm f Q) : Steady p (onTypes f) fun a p' => Q a p'.types := by
  have hwith : ∀ {q : ConstantPool} {T : TypeTable}, q.Coherent → T.Numbered → q.types.Kept T →
      Coherent { q with types := T } ∧ q.Kept { q with types := T } := fun hq hT hk =>
    ⟨{ hq with types := hT, fits := fun i c hi => ⟨(hq.fits i c hi).1, (hq.fits i c hi).2⟩ },
      fun _ _ h => h, BootstrapTable.le_refl _, hk⟩
  intro hp r p' hr
  have hr : (r, p') = ((f p.types).1, { p with types := (f p.types).2 }) := hr.symm
  obtain ⟨hT, hk, hans⟩ := hf p.types hp.types _ _ rfl
  cases hr
  obtain ⟨hp', hkp⟩ := hwith hp hT hk
  refine ⟨hp', hkp, fun a ha => ?_⟩
  obtain ⟨hQ, hagain⟩ := hans a ha
  refine ⟨hQ, fun q hq hkq => ⟨q, .of_returns hq (returns_onTypes.2 ⟨q.types, ?_, rfl⟩)⟩⟩
  exact hagain q.types hq.types hkq.types

end ConstantPool

end ClassFile
