/-
# Super classes as an order

A `SuperclassMap` has at most one super class for each class, so the classes above a class form a
chain.  If the map has no cycle (`Acyclic`), that chain ends, and the bound in
`SuperclassMap.ancestors` never cuts it short (`mem_ancestors_iff`): a chain has no class twice, and
all its classes but the last one are keys of the map.

`join` is what merging two classes gives: their nearest common super class, or `java/lang/Object`.
With `java/lang/Object` as a class above all others (`Under`), it is a least upper bound
(`under_join_left`, `under_join_right`, `join_under`).

A hierarchy may answer anything.  One that asks a map without cycles in which `java/lang/Object` has no
super class is `Rooted`: its classes are ordered as in the map (`SuperclassMap.Rooted.under_iff`), and
its answers are least upper bounds.

`ofList_nearest` says what the search does in a map built by adding pairs, in terms of the pairs
alone: the last pair of a class counts.  A cycle never keeps the search from ending, but with one
the answer can depend on which class is asked for first.
-/
import ClassFile.TypeTable
import Mathlib.Data.List.Dedup
import Mathlib.Data.List.Induction
import Mathlib.Data.List.Nodup
import Mathlib.Data.List.Perm.Subperm
import Mathlib.Logic.Relation

namespace ClassFile

open Relation

namespace SuperclassMap

variable {h : SuperclassMap}

/-! ## 1. Chains -/

/-- The second class is the super class of the first one. -/
def Extends (h : SuperclassMap) (a b : String) : Prop := h.superclass? a = some b

/-- No class is its own ancestor. -/
def Acyclic (h : SuperclassMap) : Prop := ∀ a, ¬ TransGen h.Extends a a

/-- There is no cycle, and `java/lang/Object` has no super class. -/
structure Rooted (h : SuperclassMap) : Prop where
  acyclic : h.Acyclic
  root_superclass : h.superclass? rootClass = none

theorem rooted_empty : empty.Rooted where
  acyclic := by
    intro a hcycle
    obtain ⟨b, hb, -⟩ := TransGen.head'_iff.1 hcycle
    cases hb
  root_superclass := rfl

theorem chain_succ (n : Nat) (a : String) :
    h.chain (n + 1) a = a :: match h.superclass? a with
      | some s => h.chain n s
      | none => [] := rfl

theorem length_chain_le (n : Nat) (a : String) : (h.chain n a).length ≤ n + 1 := by
  induction n generalizing a with
  | zero => simp [chain]
  | succ n ih =>
    rw [chain_succ, List.length_cons]
    cases h.superclass? a with
    | none => simp
    | some s => exact Nat.succ_le_succ (ih s)

theorem mem_chain_self (n : Nat) (a : String) : a ∈ h.chain n a := by
  cases n <;> simp [chain]

/-- What a chain holds is above its first class. -/
theorem above_of_mem_chain {n : Nat} {a b : String} (hb : b ∈ h.chain n a) :
    ReflTransGen h.Extends a b := by
  induction n generalizing a with
  | zero =>
    rw [chain, List.mem_singleton] at hb
    exact hb ▸ .refl
  | succ n ih =>
    rw [chain_succ] at hb
    rcases List.mem_cons.1 hb with rfl | hb
    · exact .refl
    · cases hs : h.superclass? a with
      | none => simp [hs] at hb
      | some s =>
        simp only [hs] at hb
        exact .head hs (ih hb)

/-- In a chain, what stands behind a class is above it. -/
theorem chain_pairwise (n : Nat) (a : String) :
    (h.chain n a).Pairwise (ReflTransGen h.Extends) := by
  induction n generalizing a with
  | zero => simp [chain]
  | succ n ih =>
    rw [chain_succ, List.pairwise_cons]
    cases hs : h.superclass? a with
    | none => simp
    | some s => exact ⟨fun b hb => .head hs (above_of_mem_chain hb), ih s⟩

theorem Acyclic.chain_nodup (ha : h.Acyclic) (n : Nat) (a : String) : (h.chain n a).Nodup := by
  induction n generalizing a with
  | zero => simp [chain]
  | succ n ih =>
    rw [chain_succ, List.nodup_cons]
    cases hs : h.superclass? a with
    | none => simp
    | some s => exact ⟨fun hmem => ha a (.head' hs (above_of_mem_chain hmem)), ih s⟩

/-- All classes of a chain but the last one have a super class. -/
theorem dropLast_chain_subset (n : Nat) (a : String) :
    (h.chain n a).dropLast ⊆ h.links.map Prod.fst := by
  induction n generalizing a with
  | zero => simp [chain]
  | succ n ih =>
    rw [chain_succ]
    cases hs : h.superclass? a with
    | none => simp
    | some s =>
      have hne : h.chain n s ≠ [] := List.ne_nil_of_mem (mem_chain_self n s)
      rw [List.dropLast_cons_of_ne_nil hne]
      refine List.cons_subset.2 ⟨?_, ih s⟩
      obtain ⟨l₁, l₂, hl, -⟩ := List.lookup_eq_some_iff.1 hs
      rw [hl]
      simp

/-- **A chain is no longer than the map allows.** -/
theorem Acyclic.length_chain_le (ha : h.Acyclic) (n : Nat) (a : String) :
    (h.chain n a).length ≤ h.links.length + 1 := by
  have hdrop : (h.chain n a).dropLast.Nodup := (ha.chain_nodup n a).sublist (List.dropLast_sublist _)
  have hle := (hdrop.subperm (dropLast_chain_subset n a)).length_le
  simp only [List.length_dropLast, List.length_map] at hle
  omega

theorem chain_eq_take (n : Nat) (a : String) :
    h.chain n a = (h.chain (n + 1) a).take (n + 1) := by
  induction n generalizing a with
  | zero => simp [chain]
  | succ n ih =>
    rw [chain_succ (n + 1), chain_succ n, List.take_succ_cons]
    cases h.superclass? a with
    | none => simp
    | some s => simp only [← ih]

/-- **The bound on the number of ancestors cuts no chain short.** -/
theorem Acyclic.ancestors_eq (ha : h.Acyclic) (a : String) :
    h.ancestors a = a :: match h.superclass? a with
      | some s => h.ancestors s
      | none => [] := by
  have hlen := ha.length_chain_le (h.links.length + 1) a
  rw [ancestors, chain_eq_take, List.take_of_length_le hlen]
  rfl

theorem Acyclic.ancestors_of_extends (ha : h.Acyclic) {a s : String} (hs : h.Extends a s) :
    h.ancestors a = a :: h.ancestors s := by
  rw [ha.ancestors_eq, show h.superclass? a = some s from hs]

theorem Acyclic.mem_ancestors_iff (ha : h.Acyclic) {a b : String} :
    b ∈ h.ancestors a ↔ ReflTransGen h.Extends a b := by
  refine ⟨above_of_mem_chain, fun hab => ?_⟩
  induction hab using ReflTransGen.head_induction_on with
  | refl => exact mem_chain_self _ _
  | head hs _ ih =>
    rw [ha.ancestors_of_extends hs]
    exact List.mem_cons_of_mem _ ih

theorem Acyclic.antisymm (ha : h.Acyclic) {a b : String} (hab : ReflTransGen h.Extends a b)
    (hba : ReflTransGen h.Extends b a) : a = b := by
  rcases reflTransGen_iff_eq_or_transGen.1 hab with rfl | hab
  · rfl
  · exact absurd (hab.trans_left hba) (ha a)

/-! ## 2. Nearest common super classes -/

/-- What is found is above both classes, also if the map has a cycle. -/
theorem above_of_commonSuperclass {a b m : String} (hm : h.commonSuperclass a b = some m) :
    ReflTransGen h.Extends a m ∧ ReflTransGen h.Extends b m := by
  unfold commonSuperclass at hm
  split at hm
  · rename_i hab
    subst hab
    cases hm
    exact ⟨.refl, .refl⟩
  · have hma : m ∈ h.ancestors a := by simpa using List.find?_some hm
    exact ⟨above_of_mem_chain hma, above_of_mem_chain (List.mem_of_find?_eq_some hm)⟩

/-- **What is found is the nearest class above both.** -/
theorem Acyclic.commonSuperclass_eq_some (ha : h.Acyclic) {a b m : String}
    (hm : h.commonSuperclass a b = some m) :
    ReflTransGen h.Extends a m ∧ ReflTransGen h.Extends b m ∧
      ∀ c, ReflTransGen h.Extends a c → ReflTransGen h.Extends b c →
        ReflTransGen h.Extends m c := by
  unfold commonSuperclass at hm
  split at hm
  · rename_i hab
    subst hab
    cases hm
    exact ⟨.refl, .refl, fun c hc _ => hc⟩
  · rw [List.find?_eq_some_iff_append] at hm
    obtain ⟨hma, below, above, hsplit, hbelow⟩ := hm
    have hmem : m ∈ h.ancestors b := by rw [hsplit]; simp
    refine ⟨ha.mem_ancestors_iff.1 (by simpa using hma), ha.mem_ancestors_iff.1 hmem, ?_⟩
    intro c hac hbc
    have hc : c ∈ h.ancestors b := ha.mem_ancestors_iff.2 hbc
    rw [hsplit] at hc
    rcases List.mem_append.1 hc with hc | hc
    · have := hbelow c hc
      simp [ha.mem_ancestors_iff.2 hac] at this
    · have hpair : (h.ancestors b).Pairwise (ReflTransGen h.Extends) := chain_pairwise _ _
      rw [hsplit, List.pairwise_append, List.pairwise_cons] at hpair
      rcases List.mem_cons.1 hc with rfl | hc
      · exact .refl
      · exact hpair.2.1.1 c hc

/-- **Nothing is found only if no class is above both.** -/
theorem Acyclic.commonSuperclass_eq_none (ha : h.Acyclic) {a b : String}
    (hn : h.commonSuperclass a b = none) (c : String) :
    ¬ (ReflTransGen h.Extends a c ∧ ReflTransGen h.Extends b c) := by
  rintro ⟨hac, hbc⟩
  unfold commonSuperclass at hn
  split at hn
  · cases hn
  · have := List.find?_eq_none.1 hn c (ha.mem_ancestors_iff.2 hbc)
    simp [ha.mem_ancestors_iff.2 hac] at this

theorem Acyclic.commonSuperclass_eq_none_iff (ha : h.Acyclic) {a b : String} :
    h.commonSuperclass a b = none ↔
      ∀ c, ¬ (ReflTransGen h.Extends a c ∧ ReflTransGen h.Extends b c) := by
  refine ⟨ha.commonSuperclass_eq_none, fun hnone => ?_⟩
  cases hm : h.commonSuperclass a b with
  | none => rfl
  | some m => exact absurd (above_of_commonSuperclass hm) (hnone m)

/-- Without a cycle it does not matter which class is asked for first. -/
theorem Acyclic.commonSuperclass_comm (ha : h.Acyclic) (a b : String) :
    h.commonSuperclass a b = h.commonSuperclass b a := by
  cases hm : h.commonSuperclass a b with
  | none =>
    refine (ha.commonSuperclass_eq_none_iff.2 fun c hc => ?_).symm
    exact ha.commonSuperclass_eq_none_iff.1 hm c hc.symm
  | some m =>
    obtain ⟨ham, hbm, hleast⟩ := ha.commonSuperclass_eq_some hm
    cases hn : h.commonSuperclass b a with
    | none => exact absurd ⟨hbm, ham⟩ (ha.commonSuperclass_eq_none hn m)
    | some n =>
      obtain ⟨hbn, han, hleast'⟩ := ha.commonSuperclass_eq_some hn
      rw [ha.antisymm (hleast n han hbn) (hleast' m hbm ham)]

/-! ## 3. The order with a greatest class -/

/-- The second class is above the first one, where `java/lang/Object` is above all. -/
def Under (h : SuperclassMap) (a b : String) : Prop := ReflTransGen h.Extends a b ∨ b = rootClass

/-- What merging two classes gives. -/
def join (h : SuperclassMap) (a b : String) : String := (h.commonSuperclass a b).getD rootClass

theorem Under.refl (a : String) : h.Under a a := .inl .refl

theorem under_root (a : String) : h.Under a rootClass := .inr rfl

theorem Rooted.eq_root (hr : h.Rooted) {b : String} (hb : ReflTransGen h.Extends rootClass b) :
    b = rootClass := by
  rcases ReflTransGen.cases_head hb with rfl | ⟨c, hc, -⟩
  · rfl
  · exact absurd (hr.root_superclass.symm.trans hc) (by simp)

theorem Rooted.under_trans (hr : h.Rooted) {a b c : String} (hab : h.Under a b)
    (hbc : h.Under b c) : h.Under a c := by
  rcases hbc with hbc | rfl
  · rcases hab with hab | rfl
    · exact .inl (hab.trans hbc)
    · exact .inr (hr.eq_root hbc)
  · exact under_root a

theorem Rooted.under_antisymm (hr : h.Rooted) {a b : String} (hab : h.Under a b)
    (hba : h.Under b a) : a = b := by
  rcases hab with hab | rfl
  · rcases hba with hba | rfl
    · exact hr.acyclic.antisymm hab hba
    · exact (hr.eq_root hab).symm
  · rcases hba with hba | rfl
    · exact hr.eq_root hba
    · rfl

theorem Rooted.under_join_left (hr : h.Rooted) (a b : String) : h.Under a (h.join a b) := by
  unfold join
  cases hm : h.commonSuperclass a b with
  | some m => exact .inl (hr.acyclic.commonSuperclass_eq_some hm).1
  | none => exact under_root a

theorem Rooted.under_join_right (hr : h.Rooted) (a b : String) : h.Under b (h.join a b) := by
  unfold join
  cases hm : h.commonSuperclass a b with
  | some m => exact .inl (hr.acyclic.commonSuperclass_eq_some hm).2.1
  | none => exact under_root b

/-- **Merging gives the least class above both.** -/
theorem Rooted.join_under (hr : h.Rooted) {a b c : String} (hac : h.Under a c)
    (hbc : h.Under b c) : h.Under (h.join a b) c := by
  rcases hac with hac | rfl
  · rcases hbc with hbc | rfl
    · unfold join
      cases hm : h.commonSuperclass a b with
      | some m => exact .inl ((hr.acyclic.commonSuperclass_eq_some hm).2.2 c hac hbc)
      | none => exact absurd ⟨hac, hbc⟩ (hr.acyclic.commonSuperclass_eq_none hm c)
    · exact under_root _
  · exact under_root _

theorem Rooted.join_comm (hr : h.Rooted) (a b : String) : h.join a b = h.join b a :=
  hr.under_antisymm (hr.join_under (hr.under_join_right b a) (hr.under_join_left b a))
    (hr.join_under (hr.under_join_right a b) (hr.under_join_left a b))

/-- Merging with a class above gives that class. -/
theorem Rooted.join_eq_right (hr : h.Rooted) {a b : String} (hab : h.Under a b) :
    h.join a b = b :=
  hr.under_antisymm (hr.join_under hab (.refl b)) (hr.under_join_right a b)

/-! ## 4. How often a class can go up -/

/-- The number of steps from a class up to `java/lang/Object`, at most. -/
def climb (h : SuperclassMap) (a : String) : Nat := if a = rootClass then 0 else (h.ancestors a).length

theorem Rooted.climb_le (hr : h.Rooted) (a : String) : h.climb a ≤ h.links.length + 1 := by
  unfold climb
  split
  · exact Nat.zero_le _
  · exact hr.acyclic.length_chain_le _ _

theorem Acyclic.length_ancestors_lt (ha : h.Acyclic) {a b : String}
    (hab : TransGen h.Extends a b) : (h.ancestors b).length < (h.ancestors a).length := by
  induction hab using TransGen.head_induction_on with
  | single hs =>
    rw [ha.ancestors_of_extends hs]
    exact Nat.lt_succ_self _
  | head hs _ ih =>
    rw [ha.ancestors_of_extends hs]
    exact Nat.lt_succ_of_lt ih

/-- Going up to another class leaves fewer steps. -/
theorem Rooted.climb_lt (hr : h.Rooted) {a b : String} (hab : h.Under a b) (hne : a ≠ b) :
    h.climb b < h.climb a := by
  have ha : a ≠ rootClass := by
    rintro rfl
    rcases hab with hab | rfl
    · exact hne (hr.eq_root hab).symm
    · exact hne rfl
  have hpos : 0 < (h.ancestors a).length := List.length_pos_of_mem (mem_chain_self _ _)
  simp only [climb, if_neg ha]
  split
  · exact hpos
  · rename_i hb
    rcases hab with hab | rfl
    · rcases reflTransGen_iff_eq_or_transGen.1 hab with rfl | hab
      · exact absurd rfl hne
      · exact hr.acyclic.length_ancestors_lt hab
    · exact absurd rfl hb

end SuperclassMap

/-! ## 5. Hierarchies that ask a map -/

namespace Hierarchy

variable {h : Hierarchy} {a b c : String}

/-- What merging two classes gives. -/
def join (h : Hierarchy) (a b : String) : String := (h.commonSuperclass a b).getD rootClass

/-- The second class is above the first one, where `java/lang/Object` is above all: what is above
another class is left as it is when that is merged into it. -/
def Under (h : Hierarchy) (a b : String) : Prop := a = b ∨ b = rootClass ∨ h.join a b = b

/-- What the inference of frames relies on: the super classes come from a map without cycles, and
`java/lang/Object` has none. -/
def Rooted (h : Hierarchy) : Prop := ∃ m : SuperclassMap, m.Rooted ∧ m.hierarchy = h

theorem rooted_empty : empty.Rooted :=
  ⟨.empty, SuperclassMap.rooted_empty, SuperclassMap.hierarchy_empty⟩

theorem Under.refl (a : String) : h.Under a a := .inl rfl

theorem under_root (a : String) : h.Under a rootClass := .inr (.inl rfl)

end Hierarchy

/-- **The order is that of the map.** -/
theorem SuperclassMap.Rooted.under_iff {m : SuperclassMap} (hm : m.Rooted) {a b : String} :
    m.hierarchy.Under a b ↔ m.Under a b := by
  constructor
  · rintro (rfl | rfl | hjoin)
    · exact .refl a
    · exact under_root a
    · rw [← hjoin]
      exact hm.under_join_left a b
  · exact fun hab => .inr (.inr (hm.join_eq_right hab))

namespace Hierarchy

variable {h : Hierarchy} {a b c : String}

theorem Rooted.under_trans (hr : h.Rooted) (hab : h.Under a b) (hbc : h.Under b c) :
    h.Under a c := by
  obtain ⟨m, hm, rfl⟩ := hr
  rw [hm.under_iff] at *
  exact hm.under_trans hab hbc

theorem Rooted.under_antisymm (hr : h.Rooted) (hab : h.Under a b) (hba : h.Under b a) : a = b := by
  obtain ⟨m, hm, rfl⟩ := hr
  exact hm.under_antisymm (hm.under_iff.1 hab) (hm.under_iff.1 hba)

theorem Rooted.under_join_left (hr : h.Rooted) (a b : String) : h.Under a (h.join a b) := by
  obtain ⟨m, hm, rfl⟩ := hr
  exact hm.under_iff.2 (hm.under_join_left a b)

theorem Rooted.under_join_right (hr : h.Rooted) (a b : String) : h.Under b (h.join a b) := by
  obtain ⟨m, hm, rfl⟩ := hr
  exact hm.under_iff.2 (hm.under_join_right a b)

/-- **Merging gives the least class above both.** -/
theorem Rooted.join_under (hr : h.Rooted) (hac : h.Under a c) (hbc : h.Under b c) :
    h.Under (h.join a b) c := by
  obtain ⟨m, hm, rfl⟩ := hr
  exact hm.under_iff.2 (hm.join_under (hm.under_iff.1 hac) (hm.under_iff.1 hbc))

theorem Rooted.join_comm (hr : h.Rooted) (a b : String) : h.join a b = h.join b a := by
  obtain ⟨m, hm, rfl⟩ := hr
  exact hm.join_comm a b

/-- Merging with a class above gives that class. -/
theorem Rooted.join_eq_right (hr : h.Rooted) (hab : h.Under a b) : h.join a b = b := by
  obtain ⟨m, hm, rfl⟩ := hr
  exact hm.join_eq_right (hm.under_iff.1 hab)

open Classical in
/-- The number of steps from a class up to `java/lang/Object`, at most, in a map that is asked. -/
noncomputable def climb (h : Hierarchy) (a : String) : Nat :=
  if hr : h.Rooted then hr.choose.climb a else 0

theorem climb_root : h.climb rootClass = 0 := by
  unfold climb
  split
  · exact if_pos rfl
  · rfl

/-- There is a map whose steps are those of the hierarchy. -/
theorem Rooted.exists_climb (hr : h.Rooted) :
    ∃ m : SuperclassMap, m.Rooted ∧ m.hierarchy = h ∧ ∀ a, h.climb a = m.climb a :=
  ⟨hr.choose, hr.choose_spec.1, hr.choose_spec.2, fun _ => dif_pos hr⟩

theorem Rooted.climb_le (hr : h.Rooted) (a : String) : h.climb a ≤ h.depth + 1 := by
  obtain ⟨m, hm, hdepth, hclimb⟩ := hr.exists_climb
  rw [hclimb, ← hdepth]
  exact hm.climb_le a

/-- Going up to another class leaves fewer steps. -/
theorem Rooted.climb_lt (hr : h.Rooted) (hab : h.Under a b) (hne : a ≠ b) :
    h.climb b < h.climb a := by
  obtain ⟨m, hm, rfl, hclimb⟩ := hr.exists_climb
  rw [hclimb, hclimb]
  exact hm.climb_lt (hm.under_iff.1 hab) hne

theorem Rooted.climb_pos (hr : h.Rooted) (ha : a ≠ rootClass) : 0 < h.climb a := by
  have := hr.climb_lt (under_root a) ha
  omega

end Hierarchy

/-! ## 6. Maps built by adding pairs -/

namespace SuperclassMap

/-- Of the pairs with the first class, the second class stands in the one added last. -/
def AddedLast (pairs : List (String × String)) (a b : String) : Prop :=
  pairs.reverse.lookup a = some b

/-- The second class is the first one or is reached from it by pairs added last. -/
def Reached (pairs : List (String × String)) : String → String → Prop :=
  ReflTransGen (AddedLast pairs)

theorem ofList_concat (pairs : List (String × String)) (a b : String) :
    ofList (pairs ++ [(a, b)]) = (ofList pairs).add a b := by
  simp [ofList]

/-- **The last pair of a class counts.** -/
theorem superclass?_ofList (pairs : List (String × String)) (a : String) :
    (ofList pairs).superclass? a = pairs.reverse.lookup a := by
  induction pairs using List.reverseRecOn with
  | nil => rfl
  | append_singleton pairs pair ih =>
    rw [ofList_concat, superclass?_add, ih, List.reverse_concat, List.lookup_cons]
    by_cases hb : a = pair.1
    · simp [hb]
    · simp [beq_eq_false_iff_ne.2 hb, hb]

theorem extends_ofList (pairs : List (String × String)) :
    (ofList pairs).Extends = AddedLast pairs := by
  funext a b
  rw [Extends, superclass?_ofList, AddedLast]

/-- There is one link for each class that was added. -/
theorem ofList_keys (pairs : List (String × String)) :
    ((ofList pairs).links.map Prod.fst).Nodup ∧
      ∀ a, a ∈ (ofList pairs).links.map Prod.fst ↔ a ∈ pairs.map Prod.fst := by
  induction pairs using List.reverseRecOn with
  | nil => simp [ofList, empty]
  | append_singleton pairs pair ih =>
    obtain ⟨hnodup, hkeys⟩ := ih
    rw [ofList_concat]
    have hrest : (((ofList pairs).links.filter fun link => link.1 != pair.1).map Prod.fst) =
        ((ofList pairs).links.map Prod.fst).filter fun a => a != pair.1 := by
      rw [List.filter_map]
      rfl
    refine ⟨?_, fun a => ?_⟩
    · simp only [add, List.map_cons, hrest, List.nodup_cons]
      exact ⟨by simp, hnodup.filter _⟩
    · simp only [add, List.map_cons, hrest, List.mem_cons, List.mem_filter, hkeys, List.map_append,
        List.mem_append, List.map_nil, List.not_mem_nil, or_false, bne_iff_ne]
      by_cases ha : a = pair.1
      · simp [ha]
      · simp [ha]

theorem length_links_ofList (pairs : List (String × String)) :
    (ofList pairs).links.length = (pairs.map Prod.fst).dedup.length := by
  obtain ⟨hnodup, hkeys⟩ := ofList_keys pairs
  rw [← List.length_map Prod.fst]
  refine ((List.perm_ext_iff_of_nodup hnodup (List.nodup_dedup _)).2 fun a => ?_).length_eq
  rw [hkeys, List.mem_dedup]

/-- **The nearest common super class in a map built by adding pairs.**  The search goes through
at most one class more than there are keys, and what it finds is reached from both classes.  If
no class is reached from itself again, then the search sees every class that is reached, the
answer does not depend on the order of the two classes, there is none only if no class is reached
from both, and every class reached from both is reached from the answer. -/
theorem ofList_nearest (pairs : List (String × String)) (a b : String) :
    (∀ c, ((ofList pairs).ancestors c).length ≤ (pairs.map Prod.fst).dedup.length + 1) ∧
    (∀ m, (ofList pairs).commonSuperclass a b = some m →
      Reached pairs a m ∧ Reached pairs b m) ∧
    ((∀ c, ¬ TransGen (AddedLast pairs) c c) →
      (∀ c d, d ∈ (ofList pairs).ancestors c ↔ Reached pairs c d) ∧
      (ofList pairs).commonSuperclass a b = (ofList pairs).commonSuperclass b a ∧
      ((ofList pairs).commonSuperclass a b = none ↔
        ∀ c, ¬ (Reached pairs a c ∧ Reached pairs b c)) ∧
      ∀ m, (ofList pairs).commonSuperclass a b = some m →
        ∀ c, Reached pairs a c → Reached pairs b c → Reached pairs m c) := by
  unfold Reached
  rw [← extends_ofList pairs]
  refine ⟨fun c => ?_, fun m => above_of_commonSuperclass, fun ha => ⟨fun c d => ?_, ?_, ?_, ?_⟩⟩
  · rw [← length_links_ofList]
    exact length_chain_le _ c
  · exact Acyclic.mem_ancestors_iff ha
  · exact Acyclic.commonSuperclass_comm ha a b
  · exact Acyclic.commonSuperclass_eq_none_iff ha
  · exact fun m hm => (Acyclic.commonSuperclass_eq_some ha hm).2.2

/-- A rank that grows along every pair excludes cycles. -/
theorem acyclic_of_rank {pairs : List (String × String)} (rank : String → Nat)
    (hrank : ∀ pair ∈ pairs, rank pair.1 < rank pair.2) (c : String) :
    ¬ TransGen (AddedLast pairs) c c := by
  have hstep {a b : String} (hab : AddedLast pairs a b) : rank a < rank b := by
    obtain ⟨l₁, l₂, hsplit, -⟩ := List.lookup_eq_some_iff.1 hab
    have hmem : (a, b) ∈ pairs.reverse := by simp [hsplit]
    exact hrank (a, b) (List.mem_reverse.1 hmem)
  have hall {a b : String} (hab : TransGen (AddedLast pairs) a b) : rank a < rank b := by
    induction hab with
    | single hab => exact hstep hab
    | tail _ hbc ih => exact Nat.lt_trans ih (hstep hbc)
  exact fun hcycle => Nat.lt_irrefl _ (hall hcycle)

/-- Two branches that meet below `java/lang/Object`. -/
def branches : List (String × String) :=
  [("Base", "java/lang/Object"), ("Left", "Base"), ("Right", "Base"), ("LeftChild", "Left")]

theorem branches_nearest :
    (ofList branches).commonSuperclass "LeftChild" "Right" = some "Base" ∧
      (ofList branches).commonSuperclass "Right" "LeftChild" = some "Base" ∧
      ∀ c, Reached branches "LeftChild" c → Reached branches "Right" c →
        Reached branches "Base" c := by
  have hm : (ofList branches).commonSuperclass "LeftChild" "Right" = some "Base" := by decide
  have hacyclic : ∀ c, ¬ TransGen (AddedLast branches) c c :=
    acyclic_of_rank (["LeftChild", "Left", "Right", "Base"].idxOf ·) (by decide)
  obtain ⟨-, hcomm, -, hleast⟩ := (ofList_nearest branches "LeftChild" "Right").2.2 hacyclic
  exact ⟨hm, hcomm ▸ hm, hleast "Base" hm⟩

/-- With a cycle the order of the two classes matters. -/
example :
    let h := ofList [("A", "B"), ("B", "A")]
    h.commonSuperclass "A" "B" = some "B" ∧ h.commonSuperclass "B" "A" = some "A" := by
  decide

end SuperclassMap

end ClassFile
