/-
# What readers take

A reader of types takes the rendering of the type that it returns, and nothing else
(`readFieldType_eq_ok_iff`).  The classes of such a type are named: a name has a character, and no
semicolon, which would end it.
-/
import ClassFile.Descriptor.Parser

namespace ClassFile

/-- A class that a descriptor can write. -/
def ElementType.Named : ElementType → Prop
  | .base _ => True
  | .object name => name.toList ≠ [] ∧ ';' ∉ name.toList

/-- A type whose class, if it has one, a descriptor can write. -/
def FieldType.Named (t : FieldType) : Prop := t.element.Named

/-- A type is wide exactly if it is written with one of two letters. -/
theorem FieldType.slots_eq (t : FieldType) :
    t.slots = if t.render = ['J'] ∨ t.render = ['D'] then 2 else 1 := by
  obtain ⟨dimensions, element⟩ := t
  cases dimensions with
  | zero =>
    cases element with
    | base b => cases b <;> decide
    | object name => simp [render, ElementType.render, slots, base?]
  | succ n => cases element <;> simp [render, ElementType.render, List.replicate_succ, slots, base?]

namespace Descriptor

variable {cs rest : List Char}

/-- A name is read up to the first semicolon. -/
theorem readName_eq_ok_iff {name : List Char} {s : String} :
    readName name cs = .ok (s, rest) ↔
      ∃ more, cs = more ++ ';' :: rest ∧ ';' ∉ more ∧ name.reverse ++ more ≠ [] ∧
        s = String.ofList (name.reverse ++ more) := by
  induction cs generalizing name with
  | nil => simp [readName]
  | cons c cs ih =>
    rw [readName]
    split
    · rename_i hc
      subst hc
      constructor
      · intro h
        split at h
        · cases h
        · rename_i hname
          cases h
          exact ⟨[], rfl, by simp, by simpa using hname, by simp⟩
      · rintro ⟨more, hcs, hmore, hne, rfl⟩
        -- the first semicolon is this one, so nothing more belongs to the name
        obtain rfl : more = [] := by
          cases more with
          | nil => rfl
          | cons d more =>
            cases hcs
            simp at hmore
        cases hcs
        rw [if_neg (by simpa using hne), List.append_nil]
    · rename_i hc
      rw [ih]
      constructor
      · rintro ⟨more, rfl, hmore, hne, rfl⟩
        exact ⟨c :: more, rfl, by simpa using ⟨Ne.symm hc, hmore⟩, by simp, by simp⟩
      · rintro ⟨more, hcs, hmore, hne, rfl⟩
        cases more with
        | nil =>
          cases hcs
          exact absurd rfl hc
        | cons d more =>
          cases hcs
          exact ⟨more, rfl, fun h => hmore (List.mem_cons_of_mem _ h), by simp, by simp⟩

theorem readBase_eq_ok_iff {t : BaseType} : readBase cs = .ok (t, rest) ↔ cs = t.letter :: rest := by
  cases cs with
  | nil => simp [readBase]
  | cons c cs =>
    rw [readBase]
    split
    · rename_i b hb
      obtain rfl := BaseType.ofLetter?_eq_some_iff.1 hb
      constructor
      · intro h
        cases h
        rfl
      · intro h
        obtain ⟨hletter, rfl⟩ := List.cons.inj h
        rw [hletter, BaseType.ofLetter?_letter] at hb
        cases hb
        rfl
    · rename_i hb
      constructor
      · exact nofun
      · intro h
        obtain ⟨rfl, -⟩ := List.cons.inj h
        rw [BaseType.ofLetter?_letter] at hb
        exact nomatch hb

theorem map_eq_ok_iff {α β : Type} {r : Read α} {f : α → β} {b : β} :
    (r.map fun (a, rest) => (f a, rest)) = .ok (b, rest) ↔ ∃ a, r = .ok (a, rest) ∧ f a = b := by
  cases r with
  | error e => simp [Except.map]
  | ok v =>
    obtain ⟨a, rest'⟩ := v
    simp only [Except.map, Except.ok.injEq, Prod.mk.injEq]
    constructor
    · rintro ⟨rfl, rfl⟩
      exact ⟨a, ⟨rfl, rfl⟩, rfl⟩
    · rintro ⟨_, ⟨rfl, rfl⟩, rfl⟩
      exact ⟨rfl, rfl⟩

theorem readElement_eq_ok_iff {e : ElementType} :
    readElement cs = .ok (e, rest) ↔ e.Named ∧ cs = e.render ++ rest := by
  unfold readElement
  split
  · rename_i cs
    rw [map_eq_ok_iff]
    constructor
    · rintro ⟨name, hname, rfl⟩
      obtain ⟨more, rfl, hmore, hne, rfl⟩ := readName_eq_ok_iff.1 hname
      exact ⟨⟨by simpa using hne, by simpa using hmore⟩, by simp [ElementType.render]⟩
    · rintro ⟨hnamed, hcs⟩
      cases e with
      | base t =>
        obtain ⟨hletter, -⟩ := List.cons.inj hcs
        exact absurd hletter (by cases t <;> decide)
      | object name =>
        obtain ⟨-, rfl⟩ := List.cons.inj hcs
        exact ⟨name, readName_eq_ok_iff.2 ⟨name.toList, by simp, hnamed.2, by simpa using hnamed.1,
          by simp⟩, rfl⟩
  · rename_i hL
    rw [map_eq_ok_iff]
    constructor
    · rintro ⟨t, ht, rfl⟩
      exact ⟨trivial, readBase_eq_ok_iff.1 ht⟩
    · rintro ⟨hnamed, hcs⟩
      cases e with
      | base t => exact ⟨t, readBase_eq_ok_iff.2 hcs, rfl⟩
      | object name => exact absurd hcs (hL _)

/-- Brackets count on from the dimensions that are known already. -/
theorem readArray_eq_ok_iff {dimensions : Nat} {t : FieldType} :
    readArray dimensions cs = .ok (t, rest) ↔
      t.Named ∧ dimensions ≤ t.dimensions ∧
        cs = List.replicate (t.dimensions - dimensions) '[' ++ t.element.render ++ rest := by
  fun_induction readArray dimensions cs with
  | case1 dimensions cs ih =>
    rw [ih]
    constructor
    · rintro ⟨hnamed, hle, rfl⟩
      refine ⟨hnamed, by omega, ?_⟩
      rw [show t.dimensions - dimensions = t.dimensions - (dimensions + 1) + 1 by omega,
        List.replicate_succ]
      rfl
    · rintro ⟨hnamed, hle, hcs⟩
      obtain heq | hlt := Nat.eq_or_lt_of_le hle
      · -- no element type starts with a bracket
        rw [heq, Nat.sub_self] at hcs
        obtain ⟨n, e⟩ := t
        cases e with
        | base b =>
          obtain ⟨hletter, -⟩ := List.cons.inj hcs
          exact absurd hletter (by cases b <;> decide)
        | object name => exact absurd (List.cons.inj hcs).1 (by decide)
      · rw [show t.dimensions - dimensions = t.dimensions - (dimensions + 1) + 1 by omega,
          List.replicate_succ] at hcs
        exact ⟨hnamed, hlt, (List.cons.inj hcs).2⟩
  | case2 dimensions cs hbracket =>
    rw [map_eq_ok_iff (f := fun e => (⟨dimensions, e⟩ : FieldType))]
    constructor
    · rintro ⟨e, he, rfl⟩
      obtain ⟨hnamed, rfl⟩ := readElement_eq_ok_iff.1 he
      exact ⟨hnamed, Nat.le_refl _, by simp⟩
    · rintro ⟨hnamed, hle, hcs⟩
      obtain heq | hlt := Nat.eq_or_lt_of_le hle
      · subst heq
        rw [Nat.sub_self] at hcs
        exact ⟨t.element, readElement_eq_ok_iff.2 ⟨hnamed, hcs⟩, rfl⟩
      · rw [show t.dimensions - dimensions = t.dimensions - (dimensions + 1) + 1 by omega,
          List.replicate_succ] at hcs
        exact absurd hcs (hbracket _)

/-- A field type is read as its brackets and its element are; only errors differ. -/
theorem readFieldType_eq_ok_iff_readArray {t : FieldType} :
    readFieldType cs = .ok (t, rest) ↔ readArray 0 cs = .ok (t, rest) := by
  cases cs with
  | nil => simp [readFieldType, readArray, readElement, readBase, Except.map]
  | cons c cs =>
    rw [readFieldType]
    split
    · rfl
    · rename_i hc
      obtain ⟨hL, hbracket⟩ : c ≠ 'L' ∧ c ≠ '[' := by simpa using hc
      rw [readArray.eq_2 _ _ (by intro _ h; exact hbracket (List.cons.inj h).1),
        readElement.eq_2 _ (by intro _ h; exact hL (List.cons.inj h).1), readBase]
      cases BaseType.ofLetter? c <;> simp [Except.map, FieldType.base]

/-- **A field type is read exactly from its rendering.** -/
theorem readFieldType_eq_ok_iff {t : FieldType} :
    readFieldType cs = .ok (t, rest) ↔ t.Named ∧ cs = t.render ++ rest := by
  rw [readFieldType_eq_ok_iff_readArray, readArray_eq_ok_iff]
  simp [FieldType.render]

end Descriptor

end ClassFile
