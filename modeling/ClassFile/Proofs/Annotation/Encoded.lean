/-
# Annotations as they are written

`Encodes p v l` says that the bytes `l` are a value `v`, where the constants of the value are in the
pool `p`: a tag with an index, or a tag, a number and the bytes of the values below.  It lasts while the
pool grows, so that it can be said of the pool that is written in the end.

Writing the events of a tree gives bytes that encode it (`goes_events`, by induction on the tree).
What is written behind a number that is filled in at the end stays where it is (`toList_patchU16`), so
that the same induction serves the values at the top, which nothing counts, and those anywhere below.
-/
import ClassFile.Proofs.Annotation.Encode
import ClassFile.Proofs.ClassBytes.Assembled

namespace ClassFile

variable {h : Hierarchy} {p p' : ConstantPool}

/-! ## 1. What a tree is written as -/

namespace ElementValue

/-- A tag and an index. -/
def taggedBytes (tag : Char) (index : ConstantIndex) : List UInt8 :=
  UInt8.ofNat tag.toNat :: wordBytes 2 index.toNat

/-- The bytes are a literal: its tag, and the index of its constant in the pool. -/
def EncodesLiteral (p : ConstantPool) (tag : Char) (k : Constant) (l : List UInt8) : Prop :=
  ∃ i, p.get? i = some k ∧ l = taggedBytes tag i

/- The bytes of a value and of the values below it. -/
mutual

/-- The bytes are a value, with its constants in the pool. -/
def Encodes (p : ConstantPool) : ElementValue → List UInt8 → Prop
  | boolean v, l => EncodesLiteral p 'Z' (.integer (if v then 1 else 0)) l
  | byte v, l => EncodesLiteral p 'B' (.integer v.toInt32) l
  | char v, l => EncodesLiteral p 'C' (.integer v.toUInt32.toInt32) l
  | short v, l => EncodesLiteral p 'S' (.integer v.toInt32) l
  | int v, l => EncodesLiteral p 'I' (.integer v) l
  | long v, l => EncodesLiteral p 'J' (.long v) l
  | float v, l => EncodesLiteral p 'F' (.float v) l
  | double v, l => EncodesLiteral p 'D' (.double v) l
  | string v, l => EncodesLiteral p 's' (.utf8 v) l
  | classLiteral descriptor, l => EncodesLiteral p 'c' (.utf8 descriptor) l
  | enumConstant descriptor v, l => ∃ i j, p.text? i = some descriptor ∧ p.text? j = some v ∧
      l = taggedBytes 'e' i ++ wordBytes 2 j.toNat
  | nested descriptor vs, l => ∃ i l', p.text? i = some descriptor ∧ EncodesPairs p vs l' ∧
      l = taggedBytes '@' i ++ (wordBytes 2 (UInt16.ofNat vs.length).toNat ++ l')
  | array vs, l => ∃ l', EncodesEntries p vs l' ∧
      l = UInt8.ofNat '['.toNat :: (wordBytes 2 (UInt16.ofNat vs.length).toNat ++ l')

/-- The bytes are values with their names. -/
def EncodesPairs (p : ConstantPool) : List (String × ElementValue) → List UInt8 → Prop
  | [], l => l = []
  | (name, v) :: vs, l => ∃ i l₁ l₂, p.text? i = some name ∧ Encodes p v l₁ ∧
      EncodesPairs p vs l₂ ∧ l = wordBytes 2 i.toNat ++ (l₁ ++ l₂)

/-- The bytes are values without names. -/
def EncodesEntries (p : ConstantPool) : List ElementValue → List UInt8 → Prop
  | [], l => l = []
  | v :: vs, l => ∃ l₁ l₂, Encodes p v l₁ ∧ EncodesEntries p vs l₂ ∧ l = l₁ ++ l₂

end

theorem EncodesLiteral.later (hle : p ≤ p') {tag : Char} {k : Constant} {l : List UInt8}
    (hl : EncodesLiteral p tag k l) : EncodesLiteral p' tag k l :=
  have ⟨i, hi, hbytes⟩ := hl
  ⟨i, hle.record i k hi, hbytes⟩

mutual

theorem Encodes.later (hle : p ≤ p') : ∀ (v : ElementValue) (l : List UInt8), Encodes p v l →
    Encodes p' v l
  | .boolean _, _, hl | .byte _, _, hl | .char _, _, hl | .short _, _, hl | .int _, _, hl
  | .long _, _, hl | .float _, _, hl | .double _, _, hl | .string _, _, hl
  | .classLiteral _, _, hl => by
    simp only [Encodes] at hl ⊢
    exact hl.later hle
  | .enumConstant _ _, _, hl => by
    simp only [Encodes] at hl ⊢
    obtain ⟨i, j, hi, hj, hl⟩ := hl
    exact ⟨i, j, ConstantPool.text?_later hle hi, ConstantPool.text?_later hle hj, hl⟩
  | .nested _ vs, _, hl => by
    simp only [Encodes] at hl ⊢
    obtain ⟨i, l', hi, hvs, hl⟩ := hl
    exact ⟨i, l', ConstantPool.text?_later hle hi, EncodesPairs.later hle vs l' hvs, hl⟩
  | .array vs, _, hl => by
    simp only [Encodes] at hl ⊢
    obtain ⟨l', hvs, hl⟩ := hl
    exact ⟨l', EncodesEntries.later hle vs l' hvs, hl⟩

theorem EncodesPairs.later (hle : p ≤ p') : ∀ (vs : List (String × ElementValue))
    (l : List UInt8), EncodesPairs p vs l → EncodesPairs p' vs l
  | [], _, hl => by
    simp only [EncodesPairs] at hl ⊢
    exact hl
  | (_, v) :: vs, _, hl => by
    simp only [EncodesPairs] at hl ⊢
    obtain ⟨i, l₁, l₂, hi, hv, hvs, hl⟩ := hl
    exact ⟨i, l₁, l₂, ConstantPool.text?_later hle hi, Encodes.later hle v l₁ hv,
      EncodesPairs.later hle vs l₂ hvs, hl⟩

theorem EncodesEntries.later (hle : p ≤ p') : ∀ (vs : List ElementValue) (l : List UInt8),
    EncodesEntries p vs l → EncodesEntries p' vs l
  | [], _, hl => by
    simp only [EncodesEntries] at hl ⊢
    exact hl
  | v :: vs, _, hl => by
    simp only [EncodesEntries] at hl ⊢
    obtain ⟨l₁, l₂, hv, hvs, hl⟩ := hl
    exact ⟨l₁, l₂, Encodes.later hle v l₁ hv, EncodesEntries.later hle vs l₂ hvs, hl⟩

end

end ElementValue

/-- The bytes are an annotation: the index of its type, the number of its values, and the values. -/
def Annotation.Encodes (p : ConstantPool) (a : Annotation) (l : List UInt8) : Prop :=
  ∃ i l', p.text? i = some a.descriptor ∧ ElementValue.EncodesPairs p a.values l' ∧
    l = wordBytes 2 i.toNat ++ (wordBytes 2 (UInt16.ofNat a.values.length).toNat ++ l')

theorem Annotation.Encodes.later (hle : p ≤ p') {a : Annotation} {l : List UInt8}
    (hl : a.Encodes p l) : a.Encodes p' l :=
  have ⟨i, l', hi, hvs, hl⟩ := hl
  ⟨i, l', ConstantPool.text?_later hle hi, hvs.later hle _ _, hl⟩

/-! ## 2. Numbers that are filled in -/

/-- Overwriting leaves what is before and behind. -/
theorem Bytes.toList_setList {b : Bytes} {before old new after : List UInt8}
    (hb : b.toList = before ++ (old ++ after)) (hlength : new.length = old.length) :
    (b.setList before.length new).toList = before ++ (new ++ after) := by
  induction new generalizing b before old with
  | nil =>
    rw [List.length_eq_zero_iff.1 hlength.symm] at hb
    exact hb
  | cons d new ih =>
    obtain ⟨x, old, rfl⟩ := List.exists_cons_of_length_eq_add_one hlength.symm
    have hset : (b.setIfInBounds before.length d).toList = (before ++ [d]) ++ (old ++ after) := by
      rw [Array.toList_setIfInBounds, hb, List.set_append_right _ _ (Nat.le_refl _), Nat.sub_self,
        List.cons_append, List.set_cons_zero, List.append_assoc, List.singleton_append]
    have hrest := ih hset (Nat.succ.inj hlength)
    rw [List.length_append, List.length_singleton] at hrest
    rw [setList, hrest, List.append_assoc, List.singleton_append, List.cons_append]

/-- Filling in a number leaves what has been written behind the room for it. -/
theorem Bytes.toList_patchU16 {b b' : Bytes} {l : List UInt8}
    (hb : b'.toList = (b.putU16 0).toList ++ l) (v : UInt16) :
    (b'.patchU16 ⟨b.size⟩ v).toList = b.toList ++ (wordBytes 2 v.toNat ++ l) := by
  rw [toList_putU16, List.append_assoc] at hb
  have hset := toList_setList hb
    (show (wordBytes 2 v.toNat).length = _ by simp only [length_wordBytes])
  rw [Array.length_toList] at hset
  exact hset

/-! ## 3. Parts of values -/

namespace ElementValue

open ConstantPool

variable {b b' : Bytes} {u : Unit}

/-- **A literal is written** as its tag and the index of its constant. -/
theorem encodes_putLiteral (hp : p.Sound h) {tag : Char} {k : Constant}
    (hret : Returns (putLiteral tag (intern k) b) p (u, b') p') :
    p'.Sound h ∧ p ≤ p' ∧ ∃ l, EncodesLiteral p' tag k l ∧ b'.toList = b.toList ++ l := by
  obtain ⟨i, b₁, p₁, hlift, hput⟩ := returns_bind_above.1 hret
  obtain ⟨hintern, rfl⟩ := returns_lift_above.1 hlift
  obtain ⟨rfl, rfl⟩ := returns_modify_above.1 hput
  obtain ⟨hs, hle, hi, -⟩ := hp.intern hintern
  exact ⟨hs, hle, _, ⟨i, hi, rfl⟩, by simp [Bytes.put12, taggedBytes]⟩

theorem encodes_putEnum (hp : p.Sound h) {descriptor value : String}
    (hret : Returns (putEnum descriptor value b) p (u, b') p') :
    p'.Sound h ∧ p ≤ p' ∧
      ∃ l, Encodes p' (.enumConstant descriptor value) l ∧ b'.toList = b.toList ++ l := by
  obtain ⟨i, b₁, p₁, hlift, hret⟩ := returns_bind_above.1 hret
  obtain ⟨hi, rfl⟩ := returns_lift_above.1 hlift
  obtain ⟨j, b₂, p₂, hlift, hput⟩ := returns_bind_above.1 hret
  obtain ⟨hj, rfl⟩ := returns_lift_above.1 hlift
  obtain ⟨rfl, rfl⟩ := returns_modify_above.1 hput
  obtain ⟨hs₁, hle₁, hi⟩ := hp.utf8 hi
  obtain ⟨hs₂, hle₂, hj⟩ := hs₁.utf8 hj
  refine ⟨hs₂, le_trans hle₁ hle₂, taggedBytes 'e' i ++ wordBytes 2 j.toNat, ?_, ?_⟩
  · simp only [Encodes]
    exact ⟨i, j, text?_later hle₂ hi, hj, rfl⟩
  · simp [Bytes.put12, taggedBytes]

theorem returns_reserve {place : Bytes.Placeholder} :
    Returns (reserve b) p (place, b') p' ↔ place = ⟨b.size⟩ ∧ b' = b.putU16 0 ∧ p' = p := by
  show Returns (pure (b.reserveU16)) p (place, b') p' ↔ _
  rw [returns_pure, Bytes.reserveU16, Prod.mk.injEq, and_assoc, eq_comm, eq_comm (a := b.putU16 0),
    eq_comm (a := p)]

end ElementValue

/-! ## 4. Events -/

/-- What encloses the values behind one more value. -/
def AnnotationLevel.next : AnnotationLevel → AnnotationLevel
  | .bare => .bare
  | .counted named count place => .counted named (count + 1) place

/-- The bytes are what stands in front of a value: its name, where values have names. -/
def AnnotationLevel.EncodesName (p : ConstantPool) (name : Option String) :
    AnnotationLevel → List UInt8 → Prop
  | .counted true _ _, l => ∃ i, p.text? i = some (name.getD "") ∧ l = wordBytes 2 i.toNat
  | _, l => l = []

namespace AnnotationWriter

open ConstantPool ElementValue

variable {b b' : Bytes} {u : Unit} {level : AnnotationLevel} {outer : List AnnotationLevel}
  {name : Option String} {es : List AnnotationEvent}

theorem encodesName_later (hle : p ≤ p') {l : List UInt8} (hl : level.EncodesName p name l) :
    level.EncodesName p' name l := by
  unfold AnnotationLevel.EncodesName at hl ⊢
  split at hl
  · obtain ⟨i, hi, hl⟩ := hl
    exact ⟨i, text?_later hle hi, hl⟩
  · exact hl

theorem encodes_putName (hp : p.Sound h) {level' : AnnotationLevel}
    (hret : Returns (putName name level b) p (level', b') p') :
    p'.Sound h ∧ p ≤ p' ∧ level' = level.next ∧
      ∃ l, level.EncodesName p' name l ∧ b'.toList = b.toList ++ l := by
  unfold putName at hret
  split at hret
  · obtain ⟨rfl, rfl, rfl⟩ := returns_pure_above.1 hret
    exact ⟨hp, le_refl _, rfl, [], rfl, by simp⟩
  · rename_i named count place
    cases named with
    | true =>
      obtain ⟨i, b₁, p₁, hlift, hret⟩ := returns_bind_above.1 hret
      obtain ⟨hi, rfl⟩ := returns_lift_above.1 hlift
      obtain ⟨_, b₂, p₂, hput, hret⟩ := returns_bind_above.1 hret
      obtain ⟨rfl, rfl⟩ := returns_modify_above.1 hput
      obtain ⟨rfl, rfl, rfl⟩ := returns_pure_above.1 hret
      obtain ⟨hs, hle, hi⟩ := hp.utf8 hi
      exact ⟨hs, hle, rfl, _, ⟨i, hi, rfl⟩, by simp⟩
    | false =>
      have hpure : Returns ((pure (.counted false (count + 1) place) : PutM AnnotationLevel) b) p
        (level', b') p' := hret
      obtain ⟨rfl, rfl, rfl⟩ := returns_pure_above.1 hpure
      exact ⟨hp, le_refl _, rfl, [], rfl, by simp⟩

/-- A value has been written, with what stands in front of it, and events go on behind it. -/
def Goes (h : Hierarchy) (v : ElementValue) (name : Option String) (level : AnnotationLevel)
    (outer : List AnnotationLevel) (es : List AnnotationEvent) (b : Bytes) (p : ConstantPool)
    (b' : Bytes) (p' : ConstantPool) : Prop :=
  ∃ n l b₁ p₁, level.EncodesName p₁ name n ∧ Encodes p₁ v l ∧ b₁.toList = b.toList ++ (n ++ l) ∧
    p₁.Sound h ∧ p ≤ p₁ ∧ Returns (all (level.next :: outer) es b₁) p₁ ((), b') p'

/-- A value that is one event, which is written as a literal. -/
theorem goes_literal (hp : p.Sound h) {v : ElementValue} {tag : Char} {k : Constant}
    (hput : putValue v = putLiteral tag (intern k))
    (hv : ∀ p l, EncodesLiteral p tag k l → Encodes p v l)
    (hret : Returns (all (level :: outer) (.value name v :: es) b) p ((), b') p') :
    Goes h v name level outer es b p b' p' := by
  obtain ⟨levels, b₁, p₁, hevent, hrest⟩ := returns_bind_above.1 hret
  obtain ⟨level', b₂, p₂, hname, hevent⟩ := returns_bind_above.1 hevent
  obtain ⟨hs₂, hle₂, rfl, n, hn, hb₂⟩ := encodes_putName hp hname
  obtain ⟨_, b₃, p₃, hwhole, hevent⟩ := returns_bind_above.1 hevent
  obtain ⟨rfl, rfl, rfl⟩ := returns_pure_above.1 hevent
  have hwritten : p₃.Sound h ∧ p₂ ≤ p₃ ∧ ∃ l, EncodesLiteral p₃ tag k l ∧
      b₃.toList = b₂.toList ++ l := by
    cases level with
    | counted named count place =>
      have hvalue : Returns (putValue v b₂) p₂ ((), b₃) p₃ := hwhole
      rw [hput] at hvalue
      exact encodes_putLiteral hs₂ hvalue
    | bare =>
      -- the value is prepared behind room for a number, which is dropped
      obtain ⟨⟨_, scratch⟩, b₄, p₄, hlift, happend⟩ := returns_bind_above.1 hwhole
      obtain ⟨hprepare, rfl⟩ := returns_lift_above.1 hlift
      obtain ⟨rfl, rfl⟩ := returns_modify_above.1 happend
      obtain ⟨place, b₅, p₅, hreserve, hvalue⟩ := returns_bind_above.1 hprepare
      obtain ⟨-, rfl, rfl⟩ := returns_reserve.1 hreserve
      rw [hput] at hvalue
      obtain ⟨hs, hle, l, hl, hscratch⟩ := encodes_putLiteral hs₂ hvalue
      refine ⟨hs, hle, l, hl, ?_⟩
      have hsize : scratch.size = 2 + l.length := by
        rw [← Array.length_toList, hscratch]
        simp [Bytes.empty]
      rw [Bytes.toList_putBytes, Array.toList_extract, hscratch, List.extract_eq_take_drop]
      simp [Bytes.empty, wordBytes, hsize]
  obtain ⟨hs, hle, l, hl, hb⟩ := hwritten
  refine ⟨n, l, b₃, p₃, encodesName_later hle hn, hv _ _ hl, ?_, hs, le_trans hle₂ hle, hrest⟩
  rw [hb, hb₂, List.append_assoc]

mutual

/-- **The events of a value write the value.** -/
theorem goes_events : ∀ (v : ElementValue) {level : AnnotationLevel} {outer : List AnnotationLevel}
    {name : Option String} {es : List AnnotationEvent} {b b' : Bytes} {p p' : ConstantPool},
    p.Sound h → Returns (all (level :: outer) (v.events name ++ es) b) p ((), b') p' →
      Goes h v name level outer es b p b' p'
  | .boolean _, _, _, _, _, _, _, _, _, hp, hret | .byte _, _, _, _, _, _, _, _, _, hp, hret
  | .char _, _, _, _, _, _, _, _, _, hp, hret | .short _, _, _, _, _, _, _, _, _, hp, hret
  | .int _, _, _, _, _, _, _, _, _, hp, hret | .long _, _, _, _, _, _, _, _, _, hp, hret
  | .float _, _, _, _, _, _, _, _, _, hp, hret | .double _, _, _, _, _, _, _, _, _, hp, hret
  | .string _, _, _, _, _, _, _, _, _, hp, hret
  | .classLiteral _, _, _, _, _, _, _, _, _, hp, hret => by
    simp only [events, List.cons_append, List.nil_append] at hret
    refine goes_literal hp (by simp only [putValue]; rfl) (fun _ _ hl => ?_) hret
    simp only [Encodes]
    exact hl
  | .enumConstant descriptor value, level, _, _, _, b, _, _, _, hp, hret => by
    simp only [events, List.cons_append, List.nil_append] at hret
    obtain ⟨levels, b₁, p₁, hevent, hrest⟩ := returns_bind_above.1 hret
    obtain ⟨level', b₂, p₂, hname, hevent⟩ := returns_bind_above.1 hevent
    obtain ⟨hs₂, hle₂, rfl, n, hn, hb₂⟩ := encodes_putName hp hname
    obtain ⟨_, b₃, p₃, henum, hevent⟩ := returns_bind_above.1 hevent
    obtain ⟨rfl, rfl, rfl⟩ := returns_pure_above.1 hevent
    obtain ⟨hs, hle, l, hl, hb⟩ := encodes_putEnum hs₂ henum
    refine ⟨n, l, b₃, p₃, encodesName_later hle hn, hl, ?_, hs, le_trans hle₂ hle, hrest⟩
    rw [hb, hb₂, List.append_assoc]
  | .nested descriptor vs, level, _, _, _, b, _, _, _, hp, hret => by
    simp only [events, List.cons_append] at hret
    obtain ⟨levels, b₁, p₁, hevent, hrest⟩ := returns_bind_above.1 hret
    obtain ⟨level', b₂, p₂, hname, hevent⟩ := returns_bind_above.1 hevent
    obtain ⟨hs₂, hle₂, rfl, n, hn, hb₂⟩ := encodes_putName hp hname
    obtain ⟨i, b₃, p₃, hlift, hevent⟩ := returns_bind_above.1 hevent
    obtain ⟨hi, rfl⟩ := returns_lift_above.1 hlift
    obtain ⟨hs₃, hle₃, hi⟩ := hs₂.utf8 hi
    obtain ⟨_, b₄, p₄, htag, hbegin⟩ := returns_bind_above.1 hevent
    obtain ⟨rfl, rfl⟩ := returns_modify_above.1 htag
    obtain ⟨place, b₅, p₅, hreserve, hpure⟩ := returns_bind_above.1 hbegin
    obtain ⟨rfl, rfl, rfl⟩ := returns_reserve.1 hreserve
    obtain ⟨rfl, rfl, rfl⟩ := returns_pure_above.1 hpure
    obtain ⟨l, b₆, p₆, hl, hb₆, hs₆, hle₆, hrest⟩ := goes_pairEvents vs hs₃ hrest
    refine ⟨n, taggedBytes '@' i ++ (wordBytes 2 (UInt16.ofNat vs.length).toNat ++ l), _, p₆,
      encodesName_later (le_trans hle₃ hle₆) hn, ?_, ?_, hs₆, le_trans hle₂ (le_trans hle₃ hle₆),
      hrest⟩
    · simp only [Encodes]
      exact ⟨i, l, text?_later hle₆ hi, hl, rfl⟩
    · rw [Bytes.toList_patchU16 hb₆, UInt16.zero_add]
      simp [hb₂, Bytes.put12, taggedBytes]
  | .array vs, level, _, _, _, b, _, _, _, hp, hret => by
    simp only [events, List.cons_append] at hret
    obtain ⟨levels, b₁, p₁, hevent, hrest⟩ := returns_bind_above.1 hret
    obtain ⟨level', b₂, p₂, hname, hevent⟩ := returns_bind_above.1 hevent
    obtain ⟨hs₂, hle₂, rfl, n, hn, hb₂⟩ := encodes_putName hp hname
    obtain ⟨_, b₄, p₄, htag, hbegin⟩ := returns_bind_above.1 hevent
    obtain ⟨rfl, rfl⟩ := returns_modify_above.1 htag
    obtain ⟨place, b₅, p₅, hreserve, hpure⟩ := returns_bind_above.1 hbegin
    obtain ⟨rfl, rfl, rfl⟩ := returns_reserve.1 hreserve
    obtain ⟨rfl, rfl, rfl⟩ := returns_pure_above.1 hpure
    obtain ⟨l, b₆, p₆, hl, hb₆, hs₆, hle₆, hrest⟩ := goes_entryEvents vs hs₂ hrest
    refine ⟨n, UInt8.ofNat '['.toNat :: (wordBytes 2 (UInt16.ofNat vs.length).toNat ++ l), _, p₆,
      encodesName_later hle₆ hn, ?_, ?_, hs₆, le_trans hle₂ hle₆, hrest⟩
    · simp only [Encodes]
      exact ⟨l, hl, rfl⟩
    · rw [Bytes.toList_patchU16 hb₆, UInt16.zero_add]
      simp [hb₂]

/-- The events of the values of an annotation write the values, and then their number. -/
theorem goes_pairEvents : ∀ (vs : List (String × ElementValue)) {count : UInt16}
    {place : Bytes.Placeholder} {outer : List AnnotationLevel} {es : List AnnotationEvent}
    {b b' : Bytes} {p p' : ConstantPool}, p.Sound h →
    Returns (all (.counted true count place :: outer) (pairEvents vs ++ es) b) p ((), b') p' →
      ∃ l, ∃ b₁ : Bytes, ∃ p₁, EncodesPairs p₁ vs l ∧ b₁.toList = b.toList ++ l ∧ p₁.Sound h ∧ p ≤ p₁ ∧
        Returns (all outer es (b₁.patchU16 place (count + UInt16.ofNat vs.length))) p₁ ((), b') p'
  | [], count, _, _, _, b, _, p, _, hp, hret => by
    simp only [pairEvents, List.cons_append, List.nil_append] at hret
    obtain ⟨levels, b₁, p₁, hevent, hrest⟩ := returns_bind_above.1 hret
    obtain ⟨_, b₂, p₂, hpatch, hevent⟩ := returns_bind_above.1 hevent
    obtain ⟨rfl, rfl⟩ := returns_modify_above.1 hpatch
    obtain ⟨rfl, rfl, rfl⟩ := returns_pure_above.1 hevent
    refine ⟨[], b, p, by simp only [EncodesPairs], by simp, hp, le_refl _, ?_⟩
    rw [List.length_nil, show UInt16.ofNat 0 = 0 from rfl, UInt16.add_zero]
    exact hrest
  | (name, v) :: vs, count, _, _, _, b, _, _, _, hp, hret => by
    simp only [pairEvents, List.append_assoc] at hret
    obtain ⟨n, l, b₁, p₁, hn, hl, hb₁, hs₁, hle₁, hrest⟩ := goes_events v hp hret
    obtain ⟨i, hi, rfl⟩ := hn
    obtain ⟨l', b₂, p₂, hl', hb₂, hs₂, hle₂, hrest⟩ := goes_pairEvents vs hs₁ hrest
    refine ⟨wordBytes 2 i.toNat ++ (l ++ l'), b₂, p₂, ?_, ?_, hs₂, le_trans hle₁ hle₂, ?_⟩
    · simp only [EncodesPairs]
      exact ⟨i, l, l', text?_later hle₂ hi, hl.later hle₂ _ _, hl', rfl⟩
    · rw [hb₂, hb₁]
      simp only [List.append_assoc]
    · rw [List.length_cons, Nat.add_comm vs.length, UInt16.ofNat_add, ← UInt16.add_assoc]
      exact hrest

/-- The events of the values of an array write the values, and then their number. -/
theorem goes_entryEvents : ∀ (vs : List ElementValue) {count : UInt16}
    {place : Bytes.Placeholder} {outer : List AnnotationLevel} {es : List AnnotationEvent}
    {b b' : Bytes} {p p' : ConstantPool}, p.Sound h →
    Returns (all (.counted false count place :: outer) (entryEvents vs ++ es) b) p ((), b') p' →
      ∃ l, ∃ b₁ : Bytes, ∃ p₁, EncodesEntries p₁ vs l ∧ b₁.toList = b.toList ++ l ∧ p₁.Sound h ∧ p ≤ p₁ ∧
        Returns (all outer es (b₁.patchU16 place (count + UInt16.ofNat vs.length))) p₁ ((), b') p'
  | [], count, _, _, _, b, _, p, _, hp, hret => by
    simp only [entryEvents, List.cons_append, List.nil_append] at hret
    obtain ⟨levels, b₁, p₁, hevent, hrest⟩ := returns_bind_above.1 hret
    obtain ⟨_, b₂, p₂, hpatch, hevent⟩ := returns_bind_above.1 hevent
    obtain ⟨rfl, rfl⟩ := returns_modify_above.1 hpatch
    obtain ⟨rfl, rfl, rfl⟩ := returns_pure_above.1 hevent
    refine ⟨[], b, p, by simp only [EncodesEntries], by simp, hp, le_refl _, ?_⟩
    rw [List.length_nil, show UInt16.ofNat 0 = 0 from rfl, UInt16.add_zero]
    exact hrest
  | v :: vs, count, _, _, _, b, _, _, _, hp, hret => by
    simp only [entryEvents, List.append_assoc] at hret
    obtain ⟨n, l, b₁, p₁, rfl, hl, hb₁, hs₁, hle₁, hrest⟩ := goes_events v hp hret
    obtain ⟨l', b₂, p₂, hl', hb₂, hs₂, hle₂, hrest⟩ := goes_entryEvents vs hs₁ hrest
    refine ⟨l ++ l', b₂, p₂, ?_, ?_, hs₂, le_trans hle₁ hle₂, ?_⟩
    · simp only [EncodesEntries]
      exact ⟨l, l', hl.later hle₂ _ _, hl', rfl⟩
    · rw [hb₂, hb₁]
      simp only [List.nil_append, List.append_assoc]
    · rw [List.length_cons, Nat.add_comm vs.length, UInt16.ofNat_add, ← UInt16.add_assoc]
      exact hrest

end

/-! ## 5. Annotations and defaults -/

/-- **An annotation is written** as its events are replayed. -/
theorem encodes_encode (hp : p.Sound h) {a : Annotation}
    (hret : Returns (encode a.descriptor a.events) p b p') :
    p'.Sound h ∧ p ≤ p' ∧ a.Encodes p' b.toList := by
  obtain ⟨⟨_, b₁⟩, p₁, hput, hpure⟩ := returns_bind.1 hret
  obtain ⟨rfl, rfl⟩ := returns_pure.1 hpure
  obtain ⟨i, b₂, p₂, hlift, hput⟩ := returns_bind_above.1 hput
  obtain ⟨hi, rfl⟩ := returns_lift_above.1 hlift
  obtain ⟨hs₂, hle₂, hi⟩ := hp.utf8 hi
  obtain ⟨_, b₃, p₃, happend, hput⟩ := returns_bind_above.1 hput
  obtain ⟨rfl, rfl⟩ := returns_modify_above.1 happend
  obtain ⟨levels, b₄, p₄, hbegin, hall⟩ := returns_bind_above.1 hput
  obtain ⟨place, b₅, p₅, hreserve, hpure⟩ := returns_bind_above.1 hbegin
  obtain ⟨rfl, rfl, rfl⟩ := returns_reserve.1 hreserve
  obtain ⟨rfl, rfl, rfl⟩ := returns_pure_above.1 hpure
  unfold Annotation.events at hall
  rw [← List.append_nil (pairEvents a.values)] at hall
  obtain ⟨l, b₆, p₆, hl, hb₆, hs₆, hle₆, hrest⟩ := goes_pairEvents a.values hs₂ hall
  obtain ⟨-, rfl, rfl⟩ := returns_pure_above.1 hrest
  refine ⟨hs₆, le_trans hle₂ hle₆, i, l, text?_later hle₆ hi, hl, ?_⟩
  rw [Bytes.toList_patchU16 hb₆, UInt16.zero_add]
  simp [Bytes.empty]

/-- Ends at the top are passed over. -/
theorem returns_ends {n : Nat}
    (hret : Returns (all [.bare] (List.replicate n .finish) b) p (u, b') p') : b = b' ∧ p = p' := by
  induction n with
  | zero =>
    obtain ⟨-, rfl, rfl⟩ := returns_pure_above.1 hret
    exact ⟨rfl, rfl⟩
  | succ n ih =>
    obtain ⟨levels, b₁, p₁, hevent, hrest⟩ := returns_bind_above.1 hret
    obtain ⟨rfl, rfl, rfl⟩ := returns_pure_above.1 hevent
    exact ih hrest

/-- **A default is written** as the one value that it is, whether or not an end follows. -/
theorem encodes_encodeDefault (hp : p.Sound h) {v : ElementValue} {n : Nat}
    (hret : Returns (encodeDefault .empty (v.events none ++ List.replicate n .finish)) p b p') :
    p'.Sound h ∧ p ≤ p' ∧ Encodes p' v b.toList := by
  obtain ⟨⟨_, b₁⟩, p₁, hall, hpure⟩ := returns_bind.1 hret
  obtain ⟨rfl, rfl⟩ := returns_pure.1 hpure
  obtain ⟨n, l, b₂, p₂, rfl, hl, hb₂, hs₂, hle₂, hrest⟩ := goes_events v hp hall
  obtain ⟨rfl, rfl⟩ := returns_ends hrest
  refine ⟨hs₂, hle₂, ?_⟩
  rw [hb₂]
  exact hl

end AnnotationWriter

end ClassFile
