/-
# Tables of types: soundness and growth

A table of types only grows: a number, once given, keeps its entry (`T ≤ T'`).  In a sound table
(`Sound h`) equal entries have one number, and each remembered merge is what the hierarchy `h`
says, if `h` is one that merging can rely on.

An operation on a table is *tame* if it keeps the table sound, lets it only grow, and would give
the same answer again, now and on every later table (`Yields`).  That is why a type that was
computed when a block was followed can be compared with one that is computed at the end.
-/
import ClassFile.Proofs.Hierarchy
import ClassFile.Proofs.Stateful
import ClassFile.Proofs.Table.Intern

namespace ClassFile

namespace TypeTable

/-! ## 1. Soundness -/

/-- The second table has every entry of the first one, under its number. -/
instance : LE TypeTable :=
  ⟨fun T T' => ∀ (i : TypeIndex) (e : TypeEntry), T.entries[i]? = some e → T'.entries[i]? = some e⟩

theorem le_refl (T : TypeTable) : T ≤ T := fun _ _ h => h

theorem le_trans {T T' T'' : TypeTable} (h : T ≤ T') (h' : T' ≤ T'') : T ≤ T'' :=
  fun i e he => h' i e (h i e he)

/-- **The invariant of a table of types**, for merges that follow a hierarchy.  Where classes go round
in a cycle, what is remembered about two types depends on their order. -/
structure Sound (h : Hierarchy) (T : TypeTable) : Prop where
  lookup_linked : T.lookup.Linked
  mem_lookup_iff : ∀ (e : TypeEntry) (i : TypeIndex),
    (e, i) ∈ T.lookup.toList ↔ T.entries[i]? = some e
  merges_linked : T.merges.Linked
  merged_entry : h.Rooted → ∀ (a b i : TypeIndex), ((a, b), i) ∈ T.merges.toList →
    ∃ x y, T.entries[a]? = some x ∧ T.entries[b]? = some y ∧
      T.entries[i]? = some (.initialized (h.join x.name y.name))

theorem sound_empty (h : Hierarchy) : empty.Sound h where
  lookup_linked := InternTable.linked_empty
  mem_lookup_iff := by simp [empty]
  merges_linked := InternTable.linked_empty
  merged_entry := by simp [empty]

variable {h : Hierarchy} {T T' : TypeTable}

theorem Sound.lookup_iff (hT : T.Sound h) {e : TypeEntry} {i : TypeIndex} :
    T.lookup.get? e = some i ↔ T.entries[i]? = some e := by
  rw [hT.lookup_linked.get?_eq_some_iff, hT.mem_lookup_iff]

/-- Equal entries have one number. -/
theorem Sound.index_unique (hT : T.Sound h) {e : TypeEntry} {i j : TypeIndex}
    (hi : T.entries[i]? = some e) (hj : T.entries[j]? = some e) : i = j := by
  rw [← hT.lookup_iff] at hi hj
  exact Option.some.inj (hi.symm.trans hj)

/-! ## 2. Interning -/

theorem intern_of_mem (hT : T.Sound h) {e : TypeEntry} {i : TypeIndex}
    (hi : T.entries[i]? = some e) : Returns (intern e) T i T := by
  have hlt : i < T.entries.size := (Array.getElem?_eq_some_iff.1 hi).1
  have hget := hT.lookup_iff.2 hi
  rw [intern, returns_modifyGet]
  simp only [InternTable.insert, hget, if_neg (Nat.ne_of_lt hlt)]

/-- The table with a new entry at its end. -/
theorem Sound.push (hT : T.Sound h) {e : TypeEntry} (he : T.lookup.get? e = none) :
    (⟨T.entries.push e, (T.lookup.insert e T.entries.size).2, T.merges⟩ : TypeTable).Sound h := by
  have hgrow : T ≤ ⟨T.entries.push e, (T.lookup.insert e T.entries.size).2, T.merges⟩ := by
    intro i x hx
    rw [Array.getElem?_push, if_neg (Nat.ne_of_lt (Array.getElem?_eq_some_iff.1 hx).1)]
    exact hx
  refine ⟨hT.lookup_linked.insert _ _, ?_, hT.merges_linked, ?_⟩
  · intro x i
    rw [hT.lookup_linked.toList_insert, he, Array.getElem?_push]
    simp only [Option.isSome_none, Bool.false_eq_true, if_false, List.mem_append,
      List.mem_singleton, Prod.mk.injEq, hT.mem_lookup_iff]
    constructor
    · rintro (hx | ⟨rfl, rfl⟩)
      · rw [if_neg (Nat.ne_of_lt (Array.getElem?_eq_some_iff.1 hx).1)]
        exact hx
      · rw [if_pos rfl]
    · intro hx
      split at hx
      · cases hx
        exact .inr ⟨rfl, ‹_›⟩
      · exact .inl hx
  · intro hr a b i hmem
    obtain ⟨x, y, hx, hy, hi⟩ := hT.merged_entry hr a b i hmem
    exact ⟨x, y, hgrow _ _ hx, hgrow _ _ hy, hgrow _ _ hi⟩

/-- **Interning gives the number of the entry** and keeps the table sound. -/
theorem Sound.intern (hT : T.Sound h) (e : TypeEntry) :
    ∃ i T', Returns (intern e) T i T' ∧ T'.Sound h ∧ T ≤ T' ∧ T'.entries[i]? = some e := by
  cases he : T.lookup.get? e with
  | some i =>
    have hi := hT.lookup_iff.1 he
    exact ⟨i, T, intern_of_mem hT hi, hT, le_refl T, hi⟩
  | none =>
    refine ⟨T.entries.size, _, ?_, hT.push he, ?_, ?_⟩
    · rw [TypeTable.intern, returns_modifyGet]
      simp only [InternTable.fst_insert, he, Option.getD_none, if_true]
    · intro i x hx
      rw [Array.getElem?_push, if_neg (Nat.ne_of_lt (Array.getElem?_eq_some_iff.1 hx).1)]
      exact hx
    · simp

/-! ## 3. Tame operations -/

end TypeTable

/-- On this table and on every later one, an operation gives this answer. -/
def Yields {α : Type} (h : Hierarchy) (T : TypeTable) (m : TypeM α) (a : α) : Prop :=
  ∀ T', T'.Sound h → T ≤ T' → ∃ T'', Returns m T' a T'' ∧ T''.Sound h ∧ T' ≤ T''

/-- An operation that keeps a sound table sound and lets it only grow; its answers have a property
and stay the same. -/
def Tame {α : Type} (h : Hierarchy) (P : TypeTable → Prop) (m : TypeM α)
    (Q : α → TypeTable → Prop) : Prop :=
  ∀ T, T.Sound h → P T → ∀ r T', m T = (r, T') →
    T'.Sound h ∧ T ≤ T' ∧ ∀ a, r = .ok a → Q a T' ∧ Yields h T' m a

/-- A property of tables that growing keeps. -/
def Lasting (P : TypeTable → Prop) : Prop := ∀ T T', T ≤ T' → P T → P T'

section Rules

variable {α β : Type} {h : Hierarchy} {P : TypeTable → Prop}

theorem Yields.later {T T' : TypeTable} {m : TypeM α} {a : α} (hm : Yields h T m a)
    (hle : T ≤ T') : Yields h T' m a :=
  fun T'' hs hle' => hm T'' hs (TypeTable.le_trans hle hle')

theorem Yields.pure {T : TypeTable} (a : α) : Yields h T (pure a) a :=
  fun T' hs _ => ⟨T', returns_pure.2 ⟨rfl, rfl⟩, hs, TypeTable.le_refl T'⟩

theorem Yields.bind {T : TypeTable} {m : TypeM α} {f : α → TypeM β} {a : α} {b : β}
    (hm : Yields h T m a) (hf : Yields h T (f a) b) : Yields h T (m >>= f) b := by
  intro T' hs hle
  obtain ⟨T₁, hr₁, hs₁, hle₁⟩ := hm T' hs hle
  obtain ⟨T₂, hr₂, hs₂, hle₂⟩ := hf T₁ hs₁ (TypeTable.le_trans hle hle₁)
  exact ⟨T₂, returns_bind.2 ⟨a, T₁, hr₁, hr₂⟩, hs₂, TypeTable.le_trans hle₁ hle₂⟩

theorem Tame.of_returns {T T' : TypeTable} {m : TypeM α} {Q : α → TypeTable → Prop} {a : α}
    (hm : Tame h P m Q) (hT : T.Sound h) (hP : P T) (hr : Returns m T a T') :
    T'.Sound h ∧ T ≤ T' ∧ Q a T' ∧ Yields h T' m a := by
  obtain ⟨hs, hle, hans⟩ := hm T hT hP _ _ hr
  exact ⟨hs, hle, hans a rfl⟩

theorem Tame.pure {Q : α → TypeTable → Prop} (a : α) (hQ : ∀ T, P T → Q a T) :
    Tame h P (pure a) Q := by
  intro T hT hP r T' hr
  cases hr
  refine ⟨hT, TypeTable.le_refl T, fun b hb => ?_⟩
  cases hb
  exact ⟨hQ T hP, Yields.pure a⟩

theorem Tame.throw {Q : α → TypeTable → Prop} (e : Error) : Tame h P (throw e) Q := by
  intro T hT _ r T' hr
  cases hr
  exact ⟨hT, TypeTable.le_refl T, fun a ha => by cases ha⟩

theorem Tame.lift {Q : α → TypeTable → Prop} (e : Except Error α)
    (hQ : ∀ a T, e = .ok a → P T → Q a T) : Tame h P (liftM e) Q := by
  cases e with
  | error e => exact Tame.throw e
  | ok a => exact Tame.pure a fun T hP => hQ a T rfl hP

theorem Tame.bind {m : TypeM α} {f : α → TypeM β} {R : α → TypeTable → Prop}
    {Q : β → TypeTable → Prop} (hm : Tame h P m R) (hf : ∀ a, Tame h (R a) (f a) Q) :
    Tame h P (m >>= f) Q := by
  intro T hT hP r T' hr
  rw [bind_apply] at hr
  rcases hmT : (m T : Except Error α × TypeTable) with ⟨e | a, T₁⟩ <;> rw [hmT] at hr
  · cases hr
    obtain ⟨hs, hle, -⟩ := hm T hT hP _ _ hmT
    exact ⟨hs, hle, fun a ha => by cases ha⟩
  · obtain ⟨hs₁, hle₁, hans⟩ := hm T hT hP _ _ hmT
    obtain ⟨hR, hy⟩ := hans a rfl
    obtain ⟨hs₂, hle₂, hans₂⟩ := hf a T₁ hs₁ hR r T' hr
    refine ⟨hs₂, TypeTable.le_trans hle₁ hle₂, fun b hb => ?_⟩
    obtain ⟨hQ, hy₂⟩ := hans₂ b hb
    exact ⟨hQ, (hy.later hle₂).bind hy₂⟩

theorem Tame.mono {m : TypeM α} {P' : TypeTable → Prop} {Q Q' : α → TypeTable → Prop}
    (hm : Tame h P m Q) (hP : ∀ T, P' T → P T) (hQ : ∀ a T, Q a T → Q' a T) :
    Tame h P' m Q' := by
  intro T hT hP' r T' hr
  obtain ⟨hs, hle, hans⟩ := hm T hT (hP T hP') r T' hr
  exact ⟨hs, hle, fun a ha => ⟨hQ a T' (hans a ha).1, (hans a ha).2⟩⟩

/-- What lasts is still true afterwards. -/
theorem Tame.frame {m : TypeM α} {P' : TypeTable → Prop} {Q : α → TypeTable → Prop}
    (hm : Tame h P m Q) (hP' : Lasting P') :
    Tame h (fun T => P T ∧ P' T) m (fun a T => Q a T ∧ P' T) := by
  intro T hT hP r T' hr
  obtain ⟨hs, hle, hans⟩ := hm T hT hP.1 r T' hr
  exact ⟨hs, hle, fun a ha => ⟨⟨(hans a ha).1, hP' T T' hle hP.2⟩, (hans a ha).2⟩⟩

/-- An operation on each entry of a list. -/
theorem Tame.mapM {f : α → TypeM β} {R : β → TypeTable → Prop} (hR : ∀ b, Lasting (R b))
    (hP : Lasting P) (l : List α)
    (hf : ∀ a ∈ l, Tame h P (f a) R) :
    Tame h P (l.mapM f) (fun bs T => bs.length = l.length ∧ ∀ b ∈ bs, R b T) := by
  induction l with
  | nil => exact Tame.pure [] (by simp)
  | cons a l ih =>
    rw [List.mapM_cons]
    refine ((hf a (by simp)).frame hP |>.mono (fun T hT => ⟨hT, hT⟩) fun _ _ => id).bind
      fun b => ?_
    refine ((ih fun x hx => hf x (by simp [hx])).frame (hR b) |>.mono (fun T hT => ⟨hT.2, hT.1⟩)
      fun _ _ => id).bind fun bs => ?_
    refine Tame.pure _ fun T hT => ⟨by simp [hT.1.1], ?_⟩
    rintro x hx
    rcases List.mem_cons.1 hx with rfl | hx
    · exact hT.2
    · exact hT.1.2 x hx

end Rules

namespace TypeTable

variable {h : Hierarchy} {T T' : TypeTable}

/-! ## 4. The operations -/

theorem tame_intern (e : TypeEntry) :
    Tame h (fun _ => True) (intern e) (fun i T => T.entries[i]? = some e) := by
  intro T hT _ r T' hr
  obtain ⟨i, T₁, hret, hs, hle, hi⟩ := hT.intern e
  obtain ⟨rfl, rfl⟩ : r = .ok i ∧ T' = T₁ := Prod.mk.injEq .. ▸ hr.symm.trans hret
  refine ⟨hs, hle, fun a ha => ?_⟩
  cases ha
  exact ⟨hi, fun T'' hs'' hle'' => ⟨T'', intern_of_mem hs'' (hle'' _ _ hi), hs'', le_refl T''⟩⟩

theorem returns_entry {i : TypeIndex} {e : TypeEntry} :
    Returns (entry i) T e T' ↔ T.entries[i]? = some e ∧ T = T' := by
  rw [entry, returns_bind]
  constructor
  · rintro ⟨_, _, hget, hr⟩
    obtain ⟨rfl, rfl⟩ := returns_get.1 hget
    split at hr
    · rename_i x hx
      obtain ⟨rfl, rfl⟩ := returns_pure.1 hr
      exact ⟨hx, rfl⟩
    · exact absurd hr returns_throw
  · rintro ⟨hi, rfl⟩
    refine ⟨T, T, returns_get.2 ⟨rfl, rfl⟩, ?_⟩
    rw [hi]
    exact returns_pure.2 ⟨rfl, rfl⟩

theorem tame_entry (i : TypeIndex) :
    Tame h (fun _ => True) (entry i) (fun e T => T.entries[i]? = some e) := by
  intro T hT _ r T' hr
  have hT' : T' = T := by
    rcases r with e | a
    · rcases fails_bind.1 hr with hget | ⟨T₀, T₁, hget, hr⟩
      · cases hget
      obtain ⟨rfl, rfl⟩ := returns_get.1 hget
      split at hr <;> cases hr
      rfl
    · exact (returns_entry.1 hr).2.symm
  subst hT'
  refine ⟨hT, le_refl _, fun e he => ?_⟩
  subst he
  have hi := (returns_entry.1 hr).1
  exact ⟨hi, fun T'' hs hle => ⟨T'', returns_entry.2 ⟨hle _ _ hi, rfl⟩, hs, le_refl T''⟩⟩

/-- What is remembered about a pair of types, in either order. -/
theorem Sound.memo_entry (hr : h.Rooted) (hT : T.Sound h) {a b i : TypeIndex} {x y : TypeEntry}
    (hi : T.merges.get? (min a b, max a b) = some i) (hx : T.entries[a]? = some x)
    (hy : T.entries[b]? = some y) :
    T.entries[i]? = some (.initialized (h.join x.name y.name)) := by
  obtain ⟨x', y', hx', hy', hi'⟩ :=
    hT.merged_entry hr _ _ _ (hT.merges_linked.get?_eq_some_iff.1 hi)
  rcases Nat.le_total a b with hab | hab
  · rw [Nat.min_eq_left hab, hx, Option.some.injEq] at hx'
    rw [Nat.max_eq_right hab, hy, Option.some.injEq] at hy'
    rw [hi', hx', hy']
  · rw [Nat.min_eq_right hab, hy, Option.some.injEq] at hx'
    rw [Nat.max_eq_left hab, hx, Option.some.injEq] at hy'
    rw [hi', hx', hy', hr.join_comm]

/-- Remembering what merging two types gives keeps the table sound. -/
theorem Sound.remember (hT : T.Sound h) {a b i : TypeIndex} {x y : TypeEntry}
    (hx : T.entries[a]? = some x) (hy : T.entries[b]? = some y)
    (hi : T.entries[i]? = some (.initialized (h.join x.name y.name))) :
    (⟨T.entries, T.lookup, (T.merges.insert (min a b, max a b) i).2⟩ : TypeTable).Sound h := by
  refine ⟨hT.lookup_linked, hT.mem_lookup_iff, hT.merges_linked.insert _ _, ?_⟩
  intro hr c d j hmem
  rw [← (hT.merges_linked.insert _ _).get?_eq_some_iff, hT.merges_linked.get?_insert] at hmem
  split at hmem
  · rename_i hpair
    cases hpair
    rw [Option.some.injEq] at hmem
    have hj : T.entries[j]? = some (.initialized (h.join x.name y.name)) := by
      cases hold : T.merges.get? (min a b, max a b) with
      | some k =>
        rw [hold, Option.getD_some] at hmem
        exact hmem ▸ hT.memo_entry hr hold hx hy
      | none =>
        rw [hold, Option.getD_none] at hmem
        exact hmem ▸ hi
    rcases Nat.le_total a b with hab | hab
    · rw [Nat.min_eq_left hab, Nat.max_eq_right hab]
      exact ⟨x, y, hx, hy, hj⟩
    · rw [Nat.min_eq_right hab, Nat.max_eq_left hab]
      exact ⟨y, x, hy, hx, hr.join_comm x.name y.name ▸ hj⟩
  · exact hT.merged_entry hr _ _ _ (hT.merges_linked.get?_eq_some_iff.1 hmem)

/-- Merging in a sound table: the answer is the number of what the hierarchy says. -/
theorem Sound.merged (hr : h.Rooted) (hT : T.Sound h) {a b : TypeIndex} {x y : TypeEntry}
    (hx : T.entries[a]? = some x) (hy : T.entries[b]? = some y) :
    ∃ i T', Returns (merged h a b) T i T' ∧ T'.Sound h ∧ T ≤ T' ∧
      T'.entries[i]? = some (.initialized (h.join x.name y.name)) := by
  cases hmemo : T.merges.get? (min a b, max a b) with
  | some i =>
    refine ⟨i, T, ?_, hT, le_refl T, hT.memo_entry hr hmemo hx hy⟩
    rw [TypeTable.merged, returns_bind]
    refine ⟨T, T, returns_get.2 ⟨rfl, rfl⟩, ?_⟩
    rw [hmemo]
    exact returns_pure.2 ⟨rfl, rfl⟩
  | none =>
    obtain ⟨i, T₁, hret, hs, hle, hi⟩ := hT.intern (.initialized (h.join x.name y.name))
    refine ⟨i, _, ?_, hs.remember (hle _ _ hx) (hle _ _ hy) hi, hle, hi⟩
    rw [TypeTable.merged, returns_bind]
    refine ⟨T, T, returns_get.2 ⟨rfl, rfl⟩, ?_⟩
    rw [hmemo]
    exact returns_bind.2 ⟨x, T, returns_entry.2 ⟨hx, rfl⟩, returns_bind.2 ⟨y, T,
      returns_entry.2 ⟨hy, rfl⟩, returns_bind.2 ⟨i, T₁, hret, returns_bind.2 ⟨⟨⟩, _,
      returns_modify.2 rfl, returns_pure.2 ⟨rfl, rfl⟩⟩⟩⟩⟩

/-! ## 5. Merges alone -/

/-- Interning a type merges nothing. -/
theorem merges_of_intern {e : TypeEntry} {r : Except Error TypeIndex} (hr : intern e T = (r, T')) :
    T'.merges = T.merges := by
  obtain ⟨entries, lookup, merges⟩ := T
  have hT' : T' = (if (lookup.insert e entries.size).1 = entries.size then
      (_, ⟨entries.push e, (lookup.insert e entries.size).2, merges⟩)
      else (_, ⟨entries, (lookup.insert e entries.size).2, merges⟩) : TypeIndex × TypeTable).2 :=
    (congrArg Prod.snd hr).symm
  rw [hT']
  split <;> rfl

/-- An operation that merges no types, whether or not it fails. -/
def MergesNothing {α : Type} (m : TypeM α) : Prop :=
  ∀ T, (m T : Except Error α × TypeTable).2.merges = T.merges

section MergesNothing

variable {α β : Type}

theorem mergesNothing_intern (e : TypeEntry) : MergesNothing (intern e) := fun _ =>
  merges_of_intern rfl

theorem mergesNothing_pure (a : α) : MergesNothing (pure a) := fun _ => rfl

theorem mergesNothing_throw (e : Error) : MergesNothing (throw e : TypeM α) := fun _ => rfl

theorem mergesNothing_lift (x : Except Error α) : MergesNothing (liftM x) := fun _ => rfl

theorem MergesNothing.bind {m : TypeM α} {k : α → TypeM β} (hm : MergesNothing m)
    (hk : ∀ a, MergesNothing (k a)) : MergesNothing (m >>= k) := by
  intro T
  rw [bind_apply, ← hm T]
  rcases (m T : Except Error α × TypeTable) with ⟨e | a, T'⟩
  · rfl
  · exact hk a T'

end MergesNothing

/-! ## 6. Growth alone -/

/-- A later state of a table, for merges that follow a hierarchy. -/
def Later (h : Hierarchy) (T T' : TypeTable) : Prop := T.Sound h → T'.Sound h ∧ T ≤ T'

instance : IsPreorder TypeTable (Later h) where
  refl T hT := ⟨hT, le_refl T⟩
  trans _ _ _ h₁ h₂ hT :=
    have ⟨hT', hle⟩ := h₁ hT
    have ⟨hT'', hle'⟩ := h₂ hT'
    ⟨hT'', le_trans hle hle'⟩

theorem leads_of_tame {α : Type} {m : TypeM α} {Q : α → TypeTable → Prop}
    (hm : Tame h (fun _ => True) m Q) : Leads (Later h) m := by
  intro T a T' hret hT
  obtain ⟨hs, hle, -⟩ := hm.of_returns hT trivial hret
  exact ⟨hs, hle⟩

/-- Merging lets a table only grow, whatever the hierarchy is like. -/
theorem leads_merged (a b : TypeIndex) : Leads (Later h) (merged h a b) := by
  intro T i T' hret hT
  unfold merged at hret
  obtain ⟨_, _, hget, hret⟩ := returns_bind.1 hret
  obtain ⟨rfl, rfl⟩ := returns_get.1 hget
  split at hret
  · obtain ⟨-, rfl⟩ := returns_pure.1 hret
    exact ⟨hT, le_refl _⟩
  · obtain ⟨x, _, hretx, hret⟩ := returns_bind.1 hret
    obtain ⟨hx, rfl⟩ := returns_entry.1 hretx
    obtain ⟨y, _, hrety, hret⟩ := returns_bind.1 hret
    obtain ⟨hy, rfl⟩ := returns_entry.1 hrety
    obtain ⟨j, T₁, hj, hret⟩ := returns_bind.1 hret
    obtain ⟨hs, hle, hj, -⟩ := (tame_intern _).of_returns hT trivial hj
    obtain ⟨_, _, hremember, hret⟩ := returns_bind.1 hret
    obtain ⟨-, rfl⟩ := returns_pure.1 hret
    obtain rfl := returns_modify.1 hremember
    exact ⟨hs.remember (hle _ _ hx) (hle _ _ hy) hj, hle⟩

end TypeTable

end ClassFile
