/-
# Labels and lengths of assembled code

Encoding an instruction makes the code longer by at least one byte, and places no labels
(`encode_extends`).  Afterwards each label that the instruction mentions has been placed, or some room
waits for it; and room waits until the label is placed.  So when no room waits any more, all labels
that instructions mention have been placed (`not_waits_of_firstWaiting?`).
-/
import ClassFile.Code.Assembler
import ClassFile.Proofs.ConstantPool.Interning

namespace ClassFile

/-! ## 1. Lengths -/

namespace Bytes

variable (b : Bytes)

@[simp] theorem size_putU8 (v : UInt8) : (b.putU8 v).size = b.size + 1 := Array.size_push v

@[simp] theorem size_putWord (w n : Nat) : (b.putWord w n).size = b.size + w := by
  rw [← Array.length_toList, toList_putWord, List.length_append, length_wordBytes,
    Array.length_toList]

@[simp] theorem size_putU16 (v : UInt16) : (b.putU16 v).size = b.size + 2 := size_putWord b 2 _

@[simp] theorem size_putU32 (v : UInt32) : (b.putU32 v).size = b.size + 4 := size_putWord b 4 _

@[simp] theorem size_putI16 (v : Int16) : (b.putI16 v).size = b.size + 2 := size_putWord b 2 _

@[simp] theorem size_putI32 (v : Int32) : (b.putI32 v).size = b.size + 4 := size_putWord b 4 _

@[simp] theorem size_put11 (v w : UInt8) : (b.put11 v w).size = b.size + 2 := by
  rw [put11, size_putU8, size_putU8]

@[simp] theorem size_put12 (v : UInt8) (w : UInt16) : (b.put12 v w).size = b.size + 3 := by
  rw [put12, size_putU16, size_putU8]

theorem size_align4 : b.align4.size = b.size + (4 - b.size % 4) % 4 := by
  rw [← Array.length_toList]
  simp [align4]

/-- What is appended comes behind what was there. -/
theorem prefix_putU8 (v : UInt8) : b.toList <+: (b.putU8 v).toList := ⟨[v], (toList_putU8 b v).symm⟩

theorem prefix_putWord (w n : Nat) : b.toList <+: (b.putWord w n).toList :=
  ⟨wordBytes w n, (toList_putWord b w n).symm⟩

theorem prefix_putU16 (v : UInt16) : b.toList <+: (b.putU16 v).toList := prefix_putWord b 2 _

theorem prefix_putI16 (v : Int16) : b.toList <+: (b.putI16 v).toList := prefix_putWord b 2 _

theorem prefix_putI32 (v : Int32) : b.toList <+: (b.putI32 v).toList := prefix_putWord b 4 _

theorem prefix_put11 (v w : UInt8) : b.toList <+: (b.put11 v w).toList :=
  (prefix_putU8 b v).trans (prefix_putU8 _ w)

theorem prefix_put12 (v : UInt8) (w : UInt16) : b.toList <+: (b.put12 v w).toList :=
  (prefix_putU8 b v).trans (prefix_putU16 _ w)

theorem prefix_align4 : b.toList <+: b.align4.toList := by simp [align4]

@[simp] theorem size_setI16 (position : Nat) (v : Int16) : (b.setI16 position v).size = b.size :=
  size_setList ..

@[simp] theorem size_setI32 (position : Nat) (v : Int32) : (b.setI32 position v).size = b.size :=
  size_setList ..

end Bytes

namespace Assembler

variable {a a' a'' : Assembler} {l : Label} {h : Hierarchy}

/-! ## 2. Room that waits -/

/-- Some room waits for a label. -/
def Waits (a : Assembler) (l : Label) : Prop := ∃ r rs, a.waiting[l]? = some (r :: rs)

/-- The label whose room comes first, of labels with their room. -/
def earlier (found : Option (Nat × Label)) (row : Label × List Reference) : Option (Nat × Label) :=
  row.2.foldl (fun found r =>
    match found with
    | some (operand, _) => if r.operand < operand then some (r.operand, row.1) else found
    | none => some (r.operand, row.1)) found

theorem isSome_earlier {found : Option (Nat × Label)} (hfound : found.isSome = true)
    (row : Label × List Reference) : (earlier found row).isSome = true := by
  obtain ⟨l, rs⟩ := row
  unfold earlier
  dsimp only
  induction rs generalizing found with
  | nil => exact hfound
  | cons r rs ih =>
    obtain ⟨⟨operand, k⟩, rfl⟩ := Option.isSome_iff_exists.1 hfound
    rw [List.foldl_cons]
    refine ih ?_
    dsimp only
    split
    · rfl
    · rfl

theorem isSome_earlier_cons (found : Option (Nat × Label)) (l : Label) (r : Reference)
    (rs : List Reference) : (earlier found (l, r :: rs)).isSome = true := by
  have hfirst : earlier found (l, r :: rs) = earlier (earlier found (l, [r])) (l, rs) := rfl
  rw [hfirst]
  refine isSome_earlier ?_ _
  unfold earlier
  rw [List.foldl_cons, List.foldl_nil]
  split
  · split
    · rfl
    · rfl
  · rfl

/-- **When no room comes first, none waits.** -/
theorem not_waits_of_firstWaiting? (ha : a.firstWaiting? = none) (l : Label) : ¬ a.Waits l := by
  rintro ⟨r, rs, hl⟩
  have hfold : a.firstWaiting? = (a.waiting.toList.foldl earlier none).map (·.2) := by
    rw [firstWaiting?, Std.HashMap.fold_eq_foldl_toList]
    rfl
  have hmem : (l, r :: rs) ∈ a.waiting.toList := Std.HashMap.mem_toList_iff_getElem?_eq_some.2 hl
  have hrest : ∀ (rows : List (Label × List Reference)) found, (found : Option _).isSome = true →
      (rows.foldl earlier found).isSome = true := by
    intro rows
    induction rows with
    | nil => exact fun _ hf => hf
    | cons row rows ih => exact fun found hf => ih _ (isSome_earlier hf row)
  obtain ⟨before, after, hsplit⟩ := List.append_of_mem hmem
  have hsome : (a.waiting.toList.foldl earlier none).isSome = true := by
    rw [hsplit, List.foldl_append, List.foldl_cons]
    exact hrest after _ (isSome_earlier_cons _ l r rs)
  rw [hfold, Option.map_eq_none_iff] at ha
  rw [ha] at hsome
  exact nomatch hsome

/-- Room of a row comes first only if the row has any. -/
theorem of_earlier {found : Option (Nat × Label)} {row : Label × List Reference} {n : Nat}
    (h : earlier found row = some (n, l)) :
    found = some (n, l) ∨ l = row.1 ∧ ∃ r rs, row.2 = r :: rs := by
  obtain ⟨k, rs⟩ := row
  unfold earlier at h
  dsimp only at h ⊢
  induction rs generalizing found with
  | nil => exact .inl h
  | cons r rs ih =>
    refine (ih h).elim (fun hfound => ?_) fun hmem => .inr ⟨hmem.1, r, rs, rfl⟩
    dsimp only at hfound
    split at hfound
    · split at hfound
      · cases hfound
        exact .inr ⟨rfl, r, rs, rfl⟩
      · exact .inl hfound
    · cases hfound
      exact .inr ⟨rfl, r, rs, rfl⟩

/-- **What comes first waits.** -/
theorem waits_of_firstWaiting? (ha : a.firstWaiting? = some l) : a.Waits l := by
  have hfold : a.firstWaiting? = (a.waiting.toList.foldl earlier none).map (·.2) := by
    rw [firstWaiting?, Std.HashMap.fold_eq_foldl_toList]
    rfl
  have hrows : ∀ (rows : List (Label × List Reference)) found n,
      rows.foldl earlier found = some (n, l) →
        found = some (n, l) ∨ ∃ row ∈ rows, l = row.1 ∧ ∃ r rs, row.2 = r :: rs := by
    intro rows
    induction rows with
    | nil => exact fun _ _ h => .inl h
    | cons row rows ih =>
      intro found n h
      rcases ih _ n h with h | ⟨row', hrow', h⟩
      · exact (of_earlier h).imp id fun h => ⟨row, List.mem_cons_self, h⟩
      · exact .inr ⟨row', List.mem_cons_of_mem _ hrow', h⟩
  rw [hfold] at ha
  obtain ⟨⟨n, k⟩, hfound, rfl⟩ := Option.map_eq_some_iff.1 ha
  rcases hrows _ none n hfound with h | ⟨⟨k', rs'⟩, hrow, rfl, r, rs, rfl⟩
  · exact nomatch h
  · exact ⟨r, rs, Std.HashMap.mem_toList_iff_getElem?_eq_some.1 hrow⟩

/-! ## 3. Parts of instructions -/

/-- The code of the second assembler is at least as long, and the labels `ls` have been placed or are
waited for; labels are placed as before, and what waited still does. -/
structure Extends (ls : List Label) (a a' : Assembler) : Prop where
  size_le : a.code.size ≤ a'.code.size
  places : a'.places = a.places
  waits : ∀ l, a.Waits l → a'.Waits l
  known : ∀ l ∈ ls, (a'.place? l).isSome = true ∨ a'.Waits l

theorem Extends.trans {ls ls' : List Label} (ha : Extends ls a a') (ha' : Extends ls' a' a'') :
    Extends (ls ++ ls') a a'' where
  size_le := Nat.le_trans ha.size_le ha'.size_le
  places := ha'.places.trans ha.places
  waits l hl := ha'.waits l (ha.waits l hl)
  known l hl := by
    rcases List.mem_append.1 hl with hl | hl
    · refine (ha.known l hl).imp (fun hp => ?_) (ha'.waits l)
      rw [place?, ha'.places]
      exact hp
    · exact ha'.known l hl

theorem size_put (a : Assembler) (f : Bytes → Bytes) : (a.put f).code.size = (f a.code).size := rfl

theorem extends_refl (a : Assembler) : Extends [] a a :=
  ⟨Nat.le_refl _, rfl, fun _ => id, fun _ hl => absurd hl List.not_mem_nil⟩

theorem extends_put (a : Assembler) {f : Bytes → Bytes} (hf : a.code.size ≤ (f a.code).size) :
    Extends [] a (a.put f) :=
  ⟨hf, rfl, fun _ => id, fun _ hl => absurd hl List.not_mem_nil⟩

/-- Room that is reserved waits. -/
theorem extends_wait (a : Assembler) (l : Label) (source : Nat) (isLong : Bool) :
    Extends [l] a (a.wait l source isLong) := by
  obtain ⟨code, places, waiting⟩ := a
  have hget : ∀ k, (Assembler.wait l source isLong ⟨code, places, waiting⟩).waiting[k]? =
      if l == k then some (⟨source, code.size, isLong⟩ :: waiting.getD l []) else waiting[k]? :=
    fun k => Std.HashMap.getElem?_insert
  refine ⟨?_, rfl, ?_, ?_⟩
  · show code.size ≤ (if isLong then code.putI32 0 else code.putI16 0).size
    split
    · exact Nat.le_of_lt_succ (by rw [Bytes.size_putI32]; omega)
    · exact Nat.le_of_lt_succ (by rw [Bytes.size_putI16]; omega)
  · rintro k ⟨r, rs, hk⟩
    unfold Waits
    rw [hget]
    split
    · exact ⟨_, _, rfl⟩
    · exact ⟨r, rs, hk⟩
  · intro k hk
    refine .inr ⟨⟨source, code.size, isLong⟩, waiting.getD l [], ?_⟩
    rw [hget, List.mem_singleton.1 hk, if_pos (beq_self_eq_true l)]

theorem extends_putDistance (source : Nat) (a : Assembler) (l : Label) :
    Extends [l] a (putDistance source a l) := by
  unfold putDistance
  cases hplace : a.place? l with
  | none => exact extends_wait a l source true
  | some place =>
    have hput : Extends [] a (a.put fun b => b.putI32 (Int32.ofInt ((place : Int) - source))) :=
      extends_put a (Nat.le_of_lt_succ (by rw [Bytes.size_putI32]; omega))
    refine ⟨hput.size_le, hput.places, hput.waits, fun k hk => .inl ?_⟩
    rw [List.mem_singleton.1 hk, place?, hput.places, ← place?, hplace]
    rfl

/-! ## 4. Instructions -/

/-- Several distances. -/
theorem extends_putDistances (source : Nat) (ls : List Label) (a : Assembler) :
    Extends ls a (ls.foldl (putDistance source) a) := by
  induction ls generalizing a with
  | nil => exact extends_refl a
  | cons l ls ih => exact (extends_putDistance source a l).trans (ih _)

/-- Several keys and distances. -/
theorem extends_putPairs (source : Nat) (pairs : List (Int32 × Label)) (a : Assembler) :
    Extends (pairs.map (·.2)) a
      (pairs.foldl (fun a (key, target) => (a.put fun b => b.putI32 key).putDistance source target)
        a) := by
  induction pairs generalizing a with
  | nil => exact extends_refl a
  | cons pair pairs ih =>
    have hkey : Extends [] a (a.put fun b => b.putI32 pair.1) :=
      extends_put a (Nat.le_of_lt_succ (by rw [Bytes.size_putI32]; omega))
    exact (hkey.trans (extends_putDistance source _ pair.2)).trans (ih _)

theorem extends_putJump (op : Opcode) (goal : Label) (a : Assembler) :
    Extends [goal] a (putJump op goal a).2 ∧ a.code.size < (putJump op goal a).2.code.size := by
  unfold putJump
  dsimp only
  rcases shortForm op with ⟨op, isLong⟩
  dsimp only
  cases hplace : a.place? goal with
  | some place =>
    have hput : ∀ (around : Bool) (f : Bytes → Bytes), a.code.size < (f a.code).size →
        Extends [goal] a (around, a.put f).2 ∧ a.code.size < (around, a.put f).2.code.size := by
      intro around f hf
      have hext := extends_put a (Nat.le_of_lt hf)
      refine ⟨⟨hext.size_le, hext.places, hext.waits, fun k hk => .inl ?_⟩, hf⟩
      rw [List.mem_singleton.1 hk, place?, hext.places, ← place?, hplace]
      rfl
    dsimp only
    split
    · refine hput _ _ ?_
      rw [Bytes.size_putI16, Bytes.size_putU8]
      omega
    · split
      · refine hput _ _ ?_
        rw [Bytes.size_putI32, Bytes.size_putU8]
        omega
      · refine hput _ _ ?_
        rw [Bytes.size_putI32, Bytes.size_putU8, Bytes.size_putI16, Bytes.size_putU8]
        omega
  | none =>
    have hwait : ∀ (first : UInt8) (source : Nat) (isLong : Bool),
        Extends [goal] a ((a.put fun b => b.putU8 first).wait goal source isLong) ∧
          a.code.size < ((a.put fun b => b.putU8 first).wait goal source isLong).code.size := by
      intro first source isLong
      have hput : a.code.size < (a.put fun b => b.putU8 first).code.size := by
        rw [size_put, Bytes.size_putU8]
        exact Nat.lt_succ_self _
      have hext := extends_wait (a.put fun b => b.putU8 first) goal source isLong
      exact ⟨(extends_put a (Nat.le_of_lt hput)).trans hext, Nat.lt_of_lt_of_le hput hext.size_le⟩
    dsimp only
    split
    · exact hwait _ _ _
    · exact hwait _ _ _

theorem size_wait (a : Assembler) (l : Label) (source : Nat) (isLong : Bool) :
    (a.wait l source isLong).code.size = a.code.size + if isLong then 4 else 2 := by
  obtain ⟨code, places, waiting⟩ := a
  show (if isLong then code.putI32 0 else code.putI16 0).size = _
  cases isLong with
  | true => exact code.size_putI32 0
  | false => exact code.size_putI16 0

/-- A jump takes no more bytes than one that is written around a long one. -/
theorem size_putJump_le (op : Opcode) (goal : Label) (a : Assembler) :
    (putJump op goal a).2.code.size ≤ a.code.size + 8 := by
  unfold putJump
  dsimp only
  rcases shortForm op with ⟨op, isLong⟩
  split
  · split
    · rw [size_put, Bytes.size_putI16, Bytes.size_putU8]
      omega
    · split
      all_goals
        simp only [size_put, Bytes.size_putI32, Bytes.size_putI16, Bytes.size_putU8]
        omega
  · split
    all_goals
      simp only [size_wait, size_put, Bytes.size_putU8]
      split <;> omega

/-- The opcode of a switch, the room up to the next multiple of four, and the distance of the default. -/
theorem extends_switchHead (op : UInt8) (source : Nat) (default : Label) (a : Assembler) :
    Extends [default] a
        ((a.put fun b => (b.putU8 op).align4).putDistance source default) ∧
      a.code.size < ((a.put fun b => (b.putU8 op).align4).putDistance source default).code.size := by
  have hput : a.code.size < (a.put fun b => (b.putU8 op).align4).code.size := by
    rw [size_put, Bytes.size_align4, Bytes.size_putU8]
    omega
  have hext := extends_putDistance source (a.put fun b => (b.putU8 op).align4) default
  exact ⟨(extends_put a (Nat.le_of_lt hput)).trans hext, Nat.lt_of_lt_of_le hput hext.size_le⟩

theorem extends_putTableSwitch (low high : Int32) (default : Label) (targets : List Label)
    (a : Assembler) :
    Extends (default :: targets) a (putTableSwitch low high default targets a) ∧
      a.code.size < (putTableSwitch low high default targets a).code.size := by
  obtain ⟨hhead, hlt⟩ := extends_switchHead Opcode.tableswitch a.code.size default a
  unfold putTableSwitch
  dsimp only
  generalize (a.put fun b => (b.putU8 Opcode.tableswitch).align4).putDistance a.code.size default
    = a₁ at hhead hlt ⊢
  have hbounds : Extends [] a₁ (a₁.put fun b => (b.putI32 low).putI32 high) := by
    refine extends_put a₁ ?_
    rw [Bytes.size_putI32, Bytes.size_putI32]
    omega
  have hall := (hhead.trans hbounds).trans (extends_putDistances a.code.size targets _)
  refine ⟨hall, Nat.lt_of_lt_of_le hlt ?_⟩
  exact Nat.le_trans hbounds.size_le (extends_putDistances a.code.size targets _).size_le

theorem extends_putLookupSwitch (default : Label) (pairs : List (Int32 × Label)) (a : Assembler) :
    Extends (default :: pairs.map (·.2)) a (putLookupSwitch default pairs a) ∧
      a.code.size < (putLookupSwitch default pairs a).code.size := by
  obtain ⟨hhead, hlt⟩ := extends_switchHead Opcode.lookupswitch a.code.size default a
  unfold putLookupSwitch
  dsimp only
  generalize (a.put fun b => (b.putU8 Opcode.lookupswitch).align4).putDistance a.code.size default
    = a₁ at hhead hlt ⊢
  have hcount : Extends [] a₁ (a₁.put fun b => b.putI32 (Int32.ofInt pairs.length)) := by
    refine extends_put a₁ ?_
    rw [Bytes.size_putI32]
    omega
  have hall := (hhead.trans hcount).trans (extends_putPairs a.code.size pairs _)
  refine ⟨hall, Nat.lt_of_lt_of_le hlt ?_⟩
  exact Nat.le_trans hcount.size_le (extends_putPairs a.code.size pairs _).size_le

variable {p p' : ConstantPool}

/-- Something comes behind the code, and labels have no part in it. -/
def Appends (a a' : Assembler) : Prop :=
  ∃ f : Bytes → Bytes, a' = a.put f ∧ a.code.toList <+: (f a.code).toList ∧
    a.code.size < (f a.code).size

theorem Appends.trans (h : Appends a a') (h' : Appends a' a'') : Appends a a'' := by
  obtain ⟨f, rfl, hf, hlt⟩ := h
  obtain ⟨g, rfl, hg, hlt'⟩ := h'
  exact ⟨g ∘ f, rfl, hf.trans hg, Nat.lt_trans hlt hlt'⟩

/-- Appending something that does not depend on labels. -/
theorem appends_append {f : Bytes → Bytes}
    (hf : a.code.toList <+: (f a.code).toList ∧ a.code.size < (f a.code).size) {around : Bool}
    (hret : Returns ((do append f; return false : AssembleM Bool) a) p (around, a') p') :
    Appends a a' := by
  obtain ⟨u, a₁, p₁, happend, hret⟩ := returns_bind_above.1 hret
  obtain ⟨rfl, -⟩ := returns_modify_above.1 happend
  obtain ⟨-, rfl, -⟩ := returns_pure_above.1 hret
  exact ⟨f, rfl, hf⟩

/-- Appending the index of a constant with what belongs to it. -/
theorem appends_constant {α : Type} {m : PoolM α} {f : α → Bytes → Bytes}
    (hf : ∀ i, a.code.toList <+: (f i a.code).toList ∧ a.code.size < (f i a.code).size)
    {around : Bool}
    (hret : Returns ((do
      let i ← m
      append (f i)
      return false : AssembleM Bool) a) p (around, a') p') : Appends a a' := by
  obtain ⟨i, a₁, p₁, hm, hret⟩ := returns_bind_above.1 hret
  obtain ⟨-, rfl⟩ := returns_lift_above.1 hm
  exact appends_append (hf i) hret

theorem prefix_putNumber (op : Opcode) (operand : Int32) (b : Bytes) :
    b.toList <+: (putNumber op operand b).toList ∧ b.size < (putNumber op operand b).size := by
  unfold putNumber
  split
  · refine ⟨(b.prefix_putU8 _).trans (Bytes.prefix_putI16 _ _), ?_⟩
    rw [Bytes.size_putI16, Bytes.size_putU8]
    omega
  · refine ⟨b.prefix_put11 _ _, ?_⟩
    rw [Bytes.size_put11]
    omega

theorem size_putLocal_le (op : Opcode) (index : UInt16) (b : Bytes) :
    (putLocal op index b).size ≤ b.size + 4 := by
  unfold putLocal
  split
  · rw [Bytes.size_putU8]
    omega
  · split
    · rw [Bytes.size_putU16, Bytes.size_putU8, Bytes.size_putU8]
    · rw [Bytes.size_put11]
      omega

theorem prefix_putLocal (op : Opcode) (index : UInt16) (b : Bytes) :
    b.toList <+: (putLocal op index b).toList ∧ b.size < (putLocal op index b).size := by
  unfold putLocal
  split
  · refine ⟨b.prefix_putU8 _, ?_⟩
    rw [Bytes.size_putU8]
    omega
  · split
    · refine ⟨((b.prefix_putU8 _).trans (Bytes.prefix_putU8 _ _)).trans (Bytes.prefix_putU16 _ _), ?_⟩
      rw [Bytes.size_putU16, Bytes.size_putU8, Bytes.size_putU8]
      omega
    · refine ⟨b.prefix_put11 _ _, ?_⟩
      rw [Bytes.size_put11]
      omega

theorem prefix_putIncrement (index : UInt16) (amount : Int16) (b : Bytes) :
    b.toList <+: (putIncrement index amount b).toList ∧
      b.size < (putIncrement index amount b).size := by
  unfold putIncrement
  split
  · refine ⟨(b.prefix_put11 _ _).trans (Bytes.prefix_putU8 _ _), ?_⟩
    rw [Bytes.size_putU8, Bytes.size_put11]
    omega
  · refine ⟨((b.prefix_put11 _ _).trans (Bytes.prefix_putU16 _ _)).trans (Bytes.prefix_putI16 _ _), ?_⟩
    rw [Bytes.size_putI16, Bytes.size_putU16, Bytes.size_put11]
    omega

theorem prefix_putIndex (op : UInt8) (index : UInt16) (b : Bytes) :
    b.toList <+: (b.put12 op index).toList ∧ b.size < (b.put12 op index).size := by
  refine ⟨b.prefix_put12 op index, ?_⟩
  rw [Bytes.size_put12]
  omega

theorem prefix_putConstant (isWide : Bool) (index : ConstantIndex) (b : Bytes) :
    b.toList <+: (putConstant isWide index b).toList ∧
      b.size < (putConstant isWide index b).size := by
  unfold putConstant
  split
  · exact prefix_putIndex _ index b
  · split
    · refine ⟨b.prefix_put11 _ _, ?_⟩
      rw [Bytes.size_put11]
      omega
    · exact prefix_putIndex _ index b

/-- A call is appended, with the number of its arguments if it is one of an interface. -/
theorem appends_call {op : Opcode} {owner name descriptor : String} {interface : Bool} {u : Unit}
    (hret : Returns (encodeCall op owner name descriptor interface a) p (u, a') p') : Appends a a' := by
  obtain ⟨index, a₁, p₁, hlift, hret⟩ := returns_bind_above.1 hret
  obtain ⟨-, rfl⟩ := returns_lift_above.1 hlift
  obtain ⟨v, a₂, p₂, happend, hret⟩ := returns_bind_above.1 hret
  obtain ⟨rfl, -⟩ := returns_modify_above.1 happend
  have hput : Appends a (a.put fun b => b.put12 op index) := ⟨_, rfl, prefix_putIndex op index _⟩
  split at hret
  · obtain ⟨slots, a₃, p₃, hslots, hret⟩ := returns_bind_above.1 hret
    obtain ⟨-, rfl⟩ := returns_lift_above.1 hslots
    obtain ⟨rfl, -⟩ := returns_modify_above.1 hret
    refine hput.trans ⟨_, rfl, Bytes.prefix_put11 _ _ _, ?_⟩
    rw [Bytes.size_put11]
    omega
  · obtain ⟨-, rfl, -⟩ := returns_pure_above.1 hret
    exact hput

/-- **What encoding does**: an instruction without targets is appended, and the others are written as
their distances need it. -/
theorem encode_cases {i : Instruction Label} {around : Bool}
    (hret : Returns (encode i a) p (around, a') p') :
    (i.targets = [] ∧ Appends a a') ∨
    (∃ op goal, i = .jump op goal ∧ (around, a') = putJump op goal a) ∨
    (∃ low high default targets, i = .tableSwitch low high default targets ∧
      a' = putTableSwitch low high default targets a) ∨
    ∃ default keys targets, i = .lookupSwitch default keys targets ∧ keys.length = targets.length ∧
      a' = putLookupSwitch default (keys.zip targets) a := by
  cases i with
  | simple op =>
    refine .inl ⟨rfl, appends_append ⟨Bytes.prefix_putU8 _ _, ?_⟩ hret⟩
    rw [Bytes.size_putU8]
    omega
  | int op operand =>
    exact .inl ⟨rfl, appends_append (prefix_putNumber op operand _) hret⟩
  | var op index =>
    exact .inl ⟨rfl, appends_append (prefix_putLocal op index _) hret⟩
  | type op name =>
    exact .inl ⟨rfl, appends_constant (fun index => prefix_putIndex op index _) hret⟩
  | field op owner name descriptor =>
    exact .inl ⟨rfl, appends_constant (fun index => prefix_putIndex op index _) hret⟩
  | method op owner name descriptor interface =>
    obtain ⟨u, a₁, p₁, hcall, hret⟩ := returns_bind_above.1 hret
    obtain ⟨-, rfl, -⟩ := returns_pure_above.1 hret
    exact .inl ⟨rfl, appends_call hcall⟩
  | invokeDynamic name descriptor bootstrap arguments =>
    obtain ⟨entry, a₁, p₁, hentry, hret⟩ := returns_bind_above.1 hret
    obtain ⟨-, rfl⟩ := returns_lift_above.1 hentry
    refine .inl ⟨rfl, appends_constant (fun i => ⟨?_, ?_⟩) hret⟩
    · exact (Bytes.prefix_put12 _ _ i).trans (Bytes.prefix_putU16 _ _)
    · rw [Bytes.size_putU16, Bytes.size_put12]
      omega
  | jump op goal =>
    obtain ⟨hjump, -⟩ := returns_pure.1 (show Returns (pure (putJump op goal a)) p (around, a') p'
      from hret)
    exact .inr (.inl ⟨op, goal, rfl, hjump.symm⟩)
  | constant value =>
    exact .inl ⟨rfl, appends_constant (fun i => prefix_putConstant _ i _) hret⟩
  | increment index amount =>
    exact .inl ⟨rfl, appends_append (prefix_putIncrement index amount _) hret⟩
  | tableSwitch low high default targets =>
    obtain ⟨u, a₁, p₁, hput, hret⟩ := returns_bind_above.1 hret
    obtain ⟨rfl, -⟩ := returns_modify_above.1 hput
    obtain ⟨-, rfl, -⟩ := returns_pure_above.1 hret
    exact .inr (.inr (.inl ⟨low, high, default, targets, rfl, rfl⟩))
  | lookupSwitch default keys targets =>
    rw [encode] at hret
    dsimp only at hret
    split at hret
    · obtain ⟨u, a₁, p₁, hthrow, -⟩ := returns_bind_above.1 hret
      exact absurd hthrow returns_throw
    · rename_i hlen
      obtain ⟨u, a₁, p₁, hput, hret⟩ := returns_bind_above.1 hret
      obtain ⟨rfl, -⟩ := returns_modify_above.1 hput
      obtain ⟨-, rfl, -⟩ := returns_pure_above.1 hret
      exact .inr (.inr (.inr ⟨default, keys, targets, rfl, not_not.1 hlen, rfl⟩))
  | multiArray descriptor dimensions =>
    refine .inl ⟨rfl, appends_constant (fun i => ⟨?_, ?_⟩) hret⟩
    · exact (Bytes.prefix_put12 _ _ i).trans (Bytes.prefix_putU8 _ _)
    · rw [Bytes.size_putU8, Bytes.size_put12]
      omega

/-- **Encoding an instruction** makes the code longer; its targets have been placed or are waited for. -/
theorem encode_extends {i : Instruction Label} {around : Bool}
    (hret : Returns (encode i a) p (around, a') p') :
    Extends i.targets a a' ∧ a.code.size < a'.code.size := by
  rcases encode_cases hret with ⟨htargets, f, rfl, -, hlt⟩ | ⟨op, goal, rfl, hjump⟩ |
    ⟨low, high, default, targets, rfl, rfl⟩ | ⟨default, keys, targets, rfl, hlength, rfl⟩
  · rw [htargets]
    exact ⟨extends_put a (Nat.le_of_lt hlt), hlt⟩
  · have hext := extends_putJump op goal a
    rw [← hjump] at hext
    exact hext
  · exact extends_putTableSwitch low high default targets a
  · have hext := extends_putLookupSwitch default (keys.zip targets) a
    rw [List.map_snd_zip (Nat.le_of_eq hlength.symm)] at hext
    exact hext

/-- Encoding asks the pool for what an instruction refers to. -/
theorem interning_encode (i : Instruction Label) (a : Assembler) :
    Interning (encode i a) := by
  have happend : ∀ (f : Bytes → Bytes) (a : Assembler),
      Interning ((do append f; return false : AssembleM Bool) a) :=
    fun f a => .bind_above (.modify_above _) fun _ _ => .pure_above _
  cases i with
  | simple | int | var | increment => exact happend _ a
  | type op name =>
    exact .bind_above (.lift_above (ConstantPool.interning_classRef name)) fun _ a => happend _ a
  | field op owner name descriptor =>
    exact .bind_above (.lift_above (ConstantPool.interning_fieldRef owner name descriptor))
      fun _ a => happend _ a
  | method op owner name descriptor interface =>
    refine .bind_above ?_ fun _ _ => .pure_above _
    refine .bind_above (.lift_above (ConstantPool.interning_methodRef owner name descriptor interface))
      fun _ _ => .bind_above (.modify_above _) fun _ a => ?_
    split
    · exact .bind_above (.lift_above (.lift _)) fun _ _ => .modify_above _
    · exact .pure_above _
  | invokeDynamic name descriptor bootstrap arguments =>
    exact .bind_above (.lift_above (ConstantPool.interning_bootstrapMethod bootstrap arguments))
      fun entry _ =>
        .bind_above (.lift_above (ConstantPool.interning_invokeDynamic name descriptor entry))
          fun _ a => happend _ a
  | jump op goal => exact .pure _
  | constant value =>
    exact .bind_above (.lift_above (ConstantPool.interning_loadable value)) fun _ a => happend _ a
  | tableSwitch => exact .bind_above (.modify_above _) fun _ _ => .pure_above _
  | lookupSwitch default keys targets =>
    rw [encode]
    dsimp only
    split
    · exact .bind_above (.lift _) fun _ _ =>
        .bind_above (.modify_above _) fun _ _ => .pure_above _
    · exact .bind_above (.modify_above _) fun _ _ => .pure_above _
  | multiArray descriptor dimensions =>
    exact .bind_above (.lift_above (ConstantPool.interning_classRef descriptor))
      fun _ a => happend _ a

theorem leads_encode (i : Instruction Label) (a : Assembler) :
    Leads (ConstantPool.Later h) (encode i a) := (interning_encode i a).leads

/-! ## 5. Placing labels -/

theorem size_fill {place : Nat} {code code' : Bytes} {r : Reference}
    (hfill : fill place code r = .ok code') : code'.size = code.size := by
  unfold fill at hfill
  dsimp only at hfill
  split at hfill
  · cases hfill
    exact Bytes.size_setI32 ..
  · split at hfill
    · cases hfill
      exact Bytes.size_setI16 ..
    · exact nomatch hfill

theorem size_fillAll {place : Nat} {references : List Reference} {code code' : Bytes}
    (hfill : references.foldlM (fill place) code = .ok code') : code'.size = code.size := by
  induction references generalizing code with
  | nil =>
    cases hfill
    rfl
  | cons r rs ih =>
    rw [List.foldlM_cons] at hfill
    obtain ⟨code₁, hr, hrs⟩ := bind_eq_ok_iff.1 hfill
    exact (ih hrs).trans (size_fill hr)

/-- **A label is placed** at the end of the code, and nothing waits for it any more. -/
theorem placeLabel_ok (hplace : a.placeLabel l = .ok a') :
    a'.code.size = a.code.size ∧
      (∀ k, a'.place? k = if l == k then some a.code.size else a.place? k) ∧
      ∀ k, k ≠ l → a.Waits k → a'.Waits k := by
  obtain ⟨code, places, waiting⟩ := a
  obtain ⟨code', hfill, hdone⟩ := bind_eq_ok_iff.1 hplace
  cases hdone
  refine ⟨size_fillAll hfill, fun k => Std.HashMap.getElem?_insert, ?_⟩
  rintro k hk ⟨r, rs, hwait⟩
  refine ⟨r, rs, ?_⟩
  rw [Std.HashMap.getElem?_erase, if_neg (fun heq => hk (eq_of_beq heq).symm)]
  exact hwait

end Assembler

end ClassFile
