/-
# Pools only grow

In a sound pool (`Sound h`) the records stand one behind another from index 1 on, no index is above
65535, and what is remembered about a record is an index at which it is.  A later pool (`p ≤ p'`)
has each record at its index, and remembers at least as much.

Interning a record gives an index of it, now and in every later pool (`Sound.intern`).  Everything
else that is done to a pool is made of that, and of what is done to the types, so it leads from sound
pools to later ones (`Later`): here for its parts, and for whole operations by `Interning.leads`.
-/
import ClassFile.ConstantPool.Basic
import ClassFile.Proofs.Table.Offset
import ClassFile.Proofs.TypeTable

namespace ClassFile

open Constant

namespace ConstantPool

/-! ## 1. Soundness and growth -/

/-- The second pool has each record of the first one at its index, remembers what the first one
remembers, and has each of its types. -/
structure Grown (p p' : ConstantPool) : Prop where
  record : ∀ i c, p.get? i = some c → p'.get? i = some c
  remembered : ∀ c i, p.lookup.get? c = some i → p'.lookup.get? c = some i
  types : p.types ≤ p'.types

instance : LE ConstantPool := ⟨Grown⟩

variable {h : Hierarchy} {p p' p'' : ConstantPool}

theorem le_refl (p : ConstantPool) : p ≤ p :=
  ⟨fun _ _ hc => hc, fun _ _ hi => hi, TypeTable.le_refl _⟩

theorem le_trans (h : p ≤ p') (h' : p' ≤ p'') : p ≤ p'' :=
  ⟨fun i c hc => h'.record i c (h.record i c hc),
    fun c i hi => h'.remembered c i (h.remembered c i hi), TypeTable.le_trans h.types h'.types⟩

/-- **The invariant of a pool**, for types that are merged as a hierarchy says. -/
structure Sound (h : Hierarchy) (p : ConstantPool) : Prop where
  laid : p.records.Laid 1
  room : p.records.nextOffset ≤ 65535
  lookup_linked : p.lookup.Linked
  lookup : ∀ c i, p.lookup.get? c = some i → p.get? i = some c
  types : p.types.Sound h

theorem sound_empty (h : Hierarchy) : empty.Sound h where
  laid := OffsetTable.laid_startingAt 1
  room := by decide
  lookup_linked := InternTable.linked_empty
  lookup c i hi := by
    have hi : (InternTable.empty : InternTable Constant ConstantIndex).get? c = some i := hi
    rw [InternTable.linked_empty.get?_eq_some_iff] at hi
    cases hi
  types := TypeTable.sound_empty h

/-- A later state of a pool. -/
def Later (h : Hierarchy) (p p' : ConstantPool) : Prop := p.Sound h → p'.Sound h ∧ p ≤ p'

instance : IsPreorder ConstantPool (Later h) where
  refl p hp := ⟨hp, le_refl p⟩
  trans _ _ _ h₁ h₂ hp :=
    have ⟨hp', hle⟩ := h₁ hp
    have ⟨hp'', hle'⟩ := h₂ hp'
    ⟨hp'', le_trans hle hle'⟩

/-! ## 2. Interning -/

/-- Where an index is left, offsets do not go round. -/
theorem lt_of_room {n : Nat} (hroom : n ≤ 65535) : n < UInt64.size :=
  Nat.lt_of_le_of_lt hroom (by decide)

theorem returns_push {c : Constant} {i : ConstantIndex} :
    Returns (push c) p i p' ↔ p.records.nextOffset + width c ≤ 65535 ∧
      i = UInt16.ofNat p.records.nextOffset ∧
      p' = { p with records := (p.records.push c).2 } := by
  obtain ⟨records, lookup, bootstrap, types⟩ := p
  unfold Returns push
  dsimp only
  split
  · rename_i hfull
    constructor
    · intro hret
      cases hret
    · rintro ⟨hroom, -⟩
      exact absurd hroom (Nat.not_le_of_lt hfull)
  · rename_i hroom
    constructor
    · intro hret
      cases hret
      exact ⟨Nat.le_of_not_lt hroom, rfl, rfl⟩
    · rintro ⟨-, rfl, rfl⟩
      rfl

/-- A record is placed at the end. -/
theorem Sound.push (hp : p.Sound h) {c : Constant} {i : ConstantIndex}
    (hret : Returns (push c) p i p') :
    p'.Sound h ∧ p ≤ p' ∧ p'.get? i = some c := by
  obtain ⟨hroom, rfl, rfl⟩ := returns_push.1 hret
  have hfits := lt_of_room hroom
  have hgrow : ∀ j d, p.get? j = some d → ((p.records.push c).2).get? j.toNat = some d :=
    fun j d hd => hp.laid.get?_push width_pos hfits hd
  refine ⟨⟨hp.laid.push hfits, (OffsetTable.nextOffset_push hfits).trans_le hroom, hp.lookup_linked,
    fun d j hj => hgrow j d (hp.lookup d j hj), hp.types⟩, ⟨hgrow, fun _ _ hj => hj, TypeTable.le_refl _⟩, ?_⟩
  · show ((p.records.push c).2).get? (UInt16.ofNat p.records.nextOffset).toNat = some c
    rw [UInt16.toNat_ofNat_of_lt' (show p.records.nextOffset < 65536 by omega)]
    exact hp.laid.get?_push_self width_pos hfits

theorem returns_remember {c : Constant} {i : ConstantIndex} {u : Unit} :
    Returns (remember c i) p u p' ↔ p' = { p with lookup := (p.lookup.insert c i).2 } := by
  rw [remember, returns_modify]
  exact eq_comm

/-- Remembering where a record is. -/
theorem Sound.remember (hp : p.Sound h) {c : Constant} {i : ConstantIndex}
    (hi : p.get? i = some c) {u : Unit} (hret : Returns (remember c i) p u p') :
    p'.Sound h ∧ p ≤ p' ∧ p'.lookup.get? c = some ((p.lookup.get? c).getD i) := by
  obtain rfl := returns_remember.1 hret
  have hget := hp.lookup_linked.get?_insert c i
  refine ⟨⟨hp.laid, hp.room, hp.lookup_linked.insert c i, fun d j hj => ?_, hp.types⟩,
    ⟨fun _ _ hd => hd, fun d j hj => ?_, TypeTable.le_refl _⟩, ?_⟩
  · show p.get? j = some d
    rw [hget] at hj
    split at hj
    · rename_i hd
      subst hd
      cases hj
      cases hc : p.lookup.get? d with
      | none => exact hi
      | some k => exact hp.lookup d k hc
    · exact hp.lookup d j hj
  · show (p.lookup.insert c i).2.get? d = some j
    rw [hget]
    split
    · rename_i hd
      rw [← hd, hj, Option.getD_some]
    · exact hj
  · show (p.lookup.insert c i).2.get? c = _
    rw [hget, if_pos rfl]

theorem returns_intern {c : Constant} {i : ConstantIndex} :
    Returns (intern c) p i p' ↔
      p.lookup.get? c = some i ∧ p = p' ∨ p.lookup.get? c = none ∧
        ∃ p₁, Returns (push c) p i p₁ ∧ Returns (remember c i) p₁ () p' := by
  rw [intern, returns_bind]
  constructor
  · rintro ⟨_, _, hget, hret⟩
    obtain ⟨rfl, rfl⟩ := returns_get.1 hget
    split at hret
    · rename_i j hj
      obtain ⟨rfl, rfl⟩ := returns_pure.1 hret
      exact .inl ⟨hj, rfl⟩
    · rename_i hnone
      obtain ⟨j, p₁, hpush, hret⟩ := returns_bind.1 hret
      obtain ⟨u, p₂, hremember, hret⟩ := returns_bind.1 hret
      obtain ⟨rfl, rfl⟩ := returns_pure.1 hret
      exact .inr ⟨hnone, p₁, hpush, hremember⟩
  · rintro (⟨hi, rfl⟩ | ⟨hnone, p₁, hpush, hremember⟩)
    · refine ⟨p, p, returns_get.2 ⟨rfl, rfl⟩, ?_⟩
      rw [hi]
      exact returns_pure.2 ⟨rfl, rfl⟩
    · refine ⟨p, p, returns_get.2 ⟨rfl, rfl⟩, ?_⟩
      rw [hnone]
      exact returns_bind.2 ⟨i, p₁, hpush,
        returns_bind.2 ⟨(), p', hremember, returns_pure.2 ⟨rfl, rfl⟩⟩⟩

/-- **Interning gives an index of the record**, and the pool remembers it. -/
theorem Sound.intern (hp : p.Sound h) {c : Constant} {i : ConstantIndex}
    (hret : Returns (intern c) p i p') :
    p'.Sound h ∧ p ≤ p' ∧ p'.get? i = some c ∧ p'.lookup.get? c = some i := by
  rcases returns_intern.1 hret with ⟨hi, rfl⟩ | ⟨hnone, p₁, hpush, hremember⟩
  · exact ⟨hp, le_refl p, hp.lookup c i hi, hi⟩
  · obtain ⟨hp₁, hle₁, hi₁⟩ := hp.push hpush
    obtain ⟨hp', hle', hl⟩ := hp₁.remember hi₁ hremember
    obtain ⟨-, -, rfl⟩ := returns_push.1 hpush
    refine ⟨hp', le_trans hle₁ hle', hle'.record i c hi₁, ?_⟩
    rw [hl, show p.lookup.get? c = none from hnone, Option.getD_none]

/-- The records stand one behind another from index 1 on, and no index is above 65535. -/
structure InOrder (p : ConstantPool) : Prop where
  laid : p.records.Laid 1
  room : p.records.nextOffset ≤ 65535

theorem Sound.inOrder (hp : p.Sound h) : p.InOrder := ⟨hp.laid, hp.room⟩

theorem InOrder.mem_records_iff (hp : p.InOrder) {i : ConstantIndex} {c : Constant} :
    p.get? i = some c ↔ (i.toNat, c) ∈ p.records.toList :=
  hp.laid.get?_eq_some_iff width_pos

/-- A record is before the next one. -/
theorem InOrder.lt_next (hp : p.InOrder) {i : ConstantIndex} {c : Constant}
    (hi : p.get? i = some c) : i.toNat < p.records.nextOffset := by
  have hbounds := hp.laid.bounds (hp.mem_records_iff.1 hi)
  have := width_pos c
  dsimp only at hbounds
  omega

/-- There is no record at index 0. -/
theorem InOrder.ne_zero (hp : p.InOrder) {i : ConstantIndex} {c : Constant}
    (hi : p.get? i = some c) : i ≠ 0 := by
  rintro rfl
  exact absurd (hp.laid.bounds (hp.mem_records_iff.1 hi)).1 (Nat.not_succ_le_zero 0)

/-! ## 3. Names of classes -/

/-- The text of a string record. -/
def text? (p : ConstantPool) (i : ConstantIndex) : Option String :=
  match p.get? i with
  | some (.utf8 text) => some text
  | _ => none

/-- The class or the array that a class record stands for. -/
def className? (p : ConstantPool) (i : ConstantIndex) : Option String :=
  match p.get? i with
  | some (.classRef name) => p.text? name
  | _ => none

theorem text?_eq_some_iff {i : ConstantIndex} {text : String} :
    p.text? i = some text ↔ p.get? i = some (.utf8 text) := by
  unfold text?
  split
  · rename_i t hi
    rw [hi, Option.some.injEq, Option.some.injEq, Constant.utf8.injEq]
  · rename_i hi
    constructor
    · intro h
      cases h
    · intro h
      exact absurd h (hi text)

theorem className?_eq_some_iff {i : ConstantIndex} {name : String} :
    p.className? i = some name ↔
      ∃ n, p.get? i = some (.classRef n) ∧ p.get? n = some (.utf8 name) := by
  unfold className?
  split
  · rename_i n hi
    rw [text?_eq_some_iff]
    constructor
    · exact fun hn => ⟨n, hi, hn⟩
    · rintro ⟨m, hm, hname⟩
      cases hi.symm.trans hm
      exact hname
  · rename_i hi
    constructor
    · intro h
      cases h
    · rintro ⟨n, hn, -⟩
      exact absurd hn (hi n)

theorem text?_later (hle : p ≤ p') {i : ConstantIndex} {text : String}
    (hi : p.text? i = some text) : p'.text? i = some text := by
  rw [text?_eq_some_iff] at hi ⊢
  exact hle.record _ _ hi

theorem className?_later (hle : p ≤ p') {i : ConstantIndex} {name : String}
    (hi : p.className? i = some name) : p'.className? i = some name := by
  rw [className?_eq_some_iff] at hi ⊢
  obtain ⟨n, hn, hname⟩ := hi
  exact ⟨n, hle.record _ _ hn, hle.record _ _ hname⟩

theorem Sound.utf8 (hp : p.Sound h) {text : String} {i : ConstantIndex}
    (hret : Returns (utf8 text) p i p') :
    p'.Sound h ∧ p ≤ p' ∧ p'.text? i = some text := by
  obtain ⟨hs, hle, hi, -⟩ := hp.intern hret
  exact ⟨hs, hle, text?_eq_some_iff.2 hi⟩

theorem Sound.classRef (hp : p.Sound h) {name : String} {i : ConstantIndex}
    (hret : Returns (classRef name) p i p') :
    p'.Sound h ∧ p ≤ p' ∧ p'.className? i = some name := by
  obtain ⟨n, p₁, hn, hret⟩ := returns_bind.1 hret
  obtain ⟨hs₁, hle₁, hn, -⟩ := hp.intern hn
  obtain ⟨hs, hle, hi, -⟩ := hs₁.intern hret
  exact ⟨hs, le_trans hle₁ hle, className?_eq_some_iff.2 ⟨n, hi, hle.record _ _ hn⟩⟩

/-! ## 4. The parts of operations -/

theorem leads_intern (c : Constant) : Leads (Later h) (intern c) := fun _ _ _ hret hp =>
  have ⟨hs, hle, _⟩ := hp.intern hret
  ⟨hs, hle⟩

theorem returns_onTypes {α : Type} {f : TypeM α} {a : α} :
    Returns (onTypes f) p a p' ↔ ∃ T, Returns f p.types a T ∧ p' = { p with types := T } := by
  obtain ⟨records, lookup, bootstrap, types⟩ := p
  rcases hf : (f types : Except Error α × TypeTable) with ⟨r, T⟩
  simp only [Returns, onTypes, hf]
  constructor
  · intro hret
    cases hret
    exact ⟨T, rfl, rfl⟩
  · rintro ⟨T', hr, rfl⟩
    cases hr
    rfl

/-- The pool with a later table of types. -/
theorem Sound.withTypes (hp : p.Sound h) {T : TypeTable} (hT : T.Sound h) (hle : p.types ≤ T) :
    Sound h { p with types := T } ∧ p ≤ { p with types := T } :=
  ⟨⟨hp.laid, hp.room, hp.lookup_linked, hp.lookup, hT⟩, fun _ _ hc => hc, fun _ _ hi => hi, hle⟩

theorem leads_utf8 (text : String) : Leads (Later h) (utf8 text) := leads_intern _

theorem leads_classRef (name : String) : Leads (Later h) (classRef name) :=
  (leads_utf8 name).bind fun _ => leads_intern _

theorem leads_internBootstrap (e : BootstrapEntry) : Leads (Later h) (internBootstrap e) := by
  rintro ⟨records, lookup, bootstrap, types⟩ i p' hret hp
  cases returns_modifyGet.1 hret
  exact ⟨⟨hp.laid, hp.room, hp.lookup_linked, hp.lookup, hp.types⟩, fun _ _ hc => hc,
    fun _ _ hi => hi, TypeTable.le_refl _⟩

end ConstantPool

end ClassFile
