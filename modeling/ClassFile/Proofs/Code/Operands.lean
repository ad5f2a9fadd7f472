/-
# The operands of jumps and switches

The distance to a label stands in an operand (`Assembler.operands`).  An operand is written once: at
once if the label has been placed, and otherwise when it is (`Assembler.Laid`).  Operands do not overlap,
so what is filled in for one label leaves the operands of all others alone (`Laid.placeLabel`).

A label cannot be placed just if a short operand waits for it that is too far away
(`Laid.placeLabel_fails_iff`).  Only jumps that were written in their short form have such operands
(`short_operand`).
-/
import ClassFile.Proofs.ClassBytes.Layout
import ClassFile.Proofs.Code.Assembler
import Mathlib.Data.List.Pairwise

namespace ClassFile

/-! ## 1. Room -/

namespace Reference

variable {r r' : Reference} {place : Nat} {code code' : Bytes}

/-- The offset behind the room. -/
def stop (r : Reference) : Nat := r.operand + if r.isLong then 4 else 2

/-- The distance to a place. -/
def distance (r : Reference) (place : Nat) : Int := (place : Int) - r.source

/-- The room is large enough for the distance to a place. -/
def Fits (r : Reference) (place : Nat) : Prop :=
  r.isLong = true ∨ Assembler.isShort (r.distance place) = true

instance (r : Reference) (place : Nat) : Decidable (r.Fits place) :=
  inferInstanceAs (Decidable (_ ∨ _))

/-- The bytes of the distance to a place. -/
def bytes (r : Reference) (place : Nat) : List UInt8 :=
  if r.isLong then wordBytes 4 (Int32.ofInt (r.distance place)).toUInt32.toNat
  else wordBytes 2 (Int16.ofInt (r.distance place)).toUInt16.toNat

/-- The distance to a place stands in the room. -/
def Holds (r : Reference) (place : Nat) (code : Bytes) : Prop :=
  r.Fits place ∧ code.Has r.operand (r.bytes place)

/-- The number that stands in the room. -/
def read (r : Reference) (code : Bytes) : Except Error Int :=
  if r.isLong then (code.i32At r.operand).map Int32.toInt
  else (code.i16At r.operand).map Int16.toInt

/-- Two rooms do not overlap. -/
def Apart (r r' : Reference) : Prop := r.stop ≤ r'.operand ∨ r'.stop ≤ r.operand

theorem Apart.symm (h : r.Apart r') : r'.Apart r := Or.symm h

theorem operand_lt_stop (r : Reference) : r.operand < r.stop := by
  unfold stop
  split <;> omega

theorem length_bytes (r : Reference) (place : Nat) : r.operand + (r.bytes place).length = r.stop := by
  unfold bytes stop
  split <;> rw [length_wordBytes]

theorem isShort_iff {d : Int} : Assembler.isShort d = true ↔ -32768 ≤ d ∧ d ≤ 32767 := by
  simp [Assembler.isShort]

/-- Behind the instruction, only what is too far away does not fit. -/
theorem not_fits_iff (hle : r.source ≤ place) :
    ¬ r.Fits place ↔ r.isLong = false ∧ r.source + 32767 < place := by
  unfold Fits distance
  rw [isShort_iff, not_or, Bool.not_eq_true]
  refine and_congr_right fun _ => ?_
  omega

/-- **What has been written is read back**, as long as code is not longer than four bytes can tell. -/
theorem Holds.read (h : r.Holds place code) (hsource : r.source ≤ 65535) (hplace : place ≤ 65535) :
    r.read code = .ok (r.distance place) := by
  obtain ⟨hfits, hhas⟩ := h
  unfold Reference.read
  unfold bytes at hhas
  cases hlong : r.isLong with
  | true =>
    rw [hlong, if_pos rfl] at hhas
    rw [if_pos rfl, hhas.i32At, Except.map, Int32.toInt_ofInt_of_le]
    · unfold distance
      omega
    · unfold distance
      omega
  | false =>
    rw [hlong, if_neg Bool.false_ne_true] at hhas
    have hshort := isShort_iff.1 (hfits.resolve_left (by rw [hlong]; exact Bool.false_ne_true))
    rw [if_neg Bool.false_ne_true, hhas.i16At, Except.map, Int16.toInt_ofInt_of_le]
    · omega
    · omega

/-- What is appended changes nothing. -/
theorem Holds.appended (h : r.Holds place code) (hcode : code.toList <+: code'.toList) :
    r.Holds place code' := ⟨h.1, h.2.appended hcode⟩

end Reference

namespace Assembler

variable {a a' a'' : Assembler} {l : Label} {place : Nat} {code code' : Bytes}

/-! ## 2. Filling in -/

theorem fill_eq (place : Nat) (code : Bytes) (r : Reference) :
    fill place code r = if r.Fits place then .ok (code.setList r.operand (r.bytes place))
      else .error (.jumpOffsetOverflow r.source place) := by
  obtain ⟨source, operand, isLong⟩ := r
  cases isLong with
  | true => exact (if_pos (.inl rfl)).symm
  | false =>
    by_cases hshort : isShort ((place : Int) - source) = true
    · exact (if_pos hshort).trans (if_pos (.inr hshort)).symm
    · exact (if_neg hshort).trans (if_neg fun h => hshort (h.resolve_left Bool.false_ne_true)).symm

theorem fill_eq_ok_iff {r : Reference} :
    fill place code r = .ok code' ↔ r.Fits place ∧ code' = code.setList r.operand (r.bytes place) := by
  rw [fill_eq]
  split
  · rename_i hfits
    exact ⟨fun h => ⟨hfits, (Except.ok.inj h).symm⟩, fun h => by rw [h.2]⟩
  · rename_i hfits
    exact ⟨fun h => (nomatch h), fun h => absurd h.1 hfits⟩

/-- **What is filled in stands there**, and nothing else changes. -/
theorem fillAll_ok {rs : List Reference} (hfill : rs.foldlM (fill place) code = .ok code')
    (hin : ∀ r ∈ rs, r.stop ≤ code.size) (hapart : ∀ r ∈ rs, ∀ r' ∈ rs, r = r' ∨ r.Apart r') :
    (∀ r ∈ rs, r.Holds place code') ∧
      ∀ (r : Reference) place', (∀ r' ∈ rs, r.Apart r') → r.Holds place' code →
        r.Holds place' code' := by
  induction rs generalizing code with
  | nil =>
    cases hfill
    exact ⟨fun _ hr => absurd hr List.not_mem_nil, fun _ _ _ h => h⟩
  | cons r rs ih =>
    rw [List.foldlM_cons] at hfill
    obtain ⟨code₁, hr, hrs⟩ := bind_eq_ok_iff.1 hfill
    obtain ⟨hfits, rfl⟩ := fill_eq_ok_iff.1 hr
    have hin' : ∀ r' ∈ rs, r'.stop ≤ (code.setList r.operand (r.bytes place)).size := fun r' hr' => by
      rw [Bytes.size_setList]
      exact hin r' (List.mem_cons_of_mem _ hr')
    obtain ⟨hfilled, hkept⟩ := ih hrs hin' fun r' hr' r'' hr'' =>
      hapart r' (List.mem_cons_of_mem _ hr') r'' (List.mem_cons_of_mem _ hr'')
    have hhead : r.Holds place (code.setList r.operand (r.bytes place)) :=
      ⟨hfits, Bytes.Has.setList (by rw [r.length_bytes]; exact hin r List.mem_cons_self)⟩
    refine ⟨fun r' hr' => ?_, fun r' place' hr' h => hkept r' place'
      (fun r'' hr'' => hr' r'' (List.mem_cons_of_mem _ hr'')) ⟨h.1, ?_⟩⟩
    · rcases List.mem_cons.1 hr' with rfl | hr'
      · -- a room that is filled in twice gets the same bytes twice
        by_cases hagain : r' ∈ rs
        · exact hfilled r' hagain
        · refine hkept r' place (fun r'' hr'' => ?_) hhead
          refine (hapart r' List.mem_cons_self r'' (List.mem_cons_of_mem _ hr'')).resolve_left ?_
          rintro rfl
          exact hagain hr''
      · exact hfilled r' hr'
    · refine h.2.setList_apart ?_
      rw [r.length_bytes, r'.length_bytes]
      exact (hr' r List.mem_cons_self).symm

/-- **What cannot be filled in** is the first room that is too small. -/
theorem fillAll_error {rs : List Reference} {e : Error}
    (hfill : rs.foldlM (fill place) code = .error e) :
    ∃ r ∈ rs, ¬ r.Fits place ∧ e = .jumpOffsetOverflow r.source place := by
  obtain ⟨r, hr, code₁, h⟩ := of_foldlM_eq_error hfill
  rw [fill_eq] at h
  split at h
  · exact nomatch h
  · rename_i hfits
    exact ⟨r, hr, hfits, (Except.error.inj h).symm⟩

theorem fits_of_fillAll {rs : List Reference} (hfill : rs.foldlM (fill place) code = .ok code') :
    ∀ r ∈ rs, r.Fits place := by
  induction rs generalizing code with
  | nil => exact fun _ hr => absurd hr List.not_mem_nil
  | cons r rs ih =>
    rw [List.foldlM_cons] at hfill
    obtain ⟨code₁, hr, hrs⟩ := bind_eq_ok_iff.1 hfill
    exact List.forall_mem_cons.2 ⟨(fill_eq_ok_iff.1 hr).1, ih hrs⟩

/-! ## 3. Operands -/

/-- The room that waits for a label. -/
def room (a : Assembler) (l : Label) : List Reference := a.waiting.getD l []

/-- Long operands for labels, at a distance from one another. -/
def spread (source stride : Nat) : Nat → List Label → List (Label × Reference)
  | _, [] => []
  | offset, l :: ls => (l, ⟨source, offset, true⟩) :: spread source stride (offset + stride) ls

/-- Where the operands of a switch start: the first multiple of four behind its opcode. -/
def switchStart (size : Nat) : Nat := size + 1 + (4 - (size + 1) % 4) % 4

/-- The operands of a switch. -/
def switchOperands (size stride : Nat) (default : Label) (targets : List Label) :
    List (Label × Reference) :=
  (default, ⟨size, switchStart size, true⟩) ::
    spread size stride (switchStart size + 12) targets

/-- **The operands of an instruction**, with the labels whose distances they hold.  What becomes a jump
around a long one has that of the long one. -/
def operands (a : Assembler) : Instruction Label → List (Label × Reference)
  | .jump op goal =>
    let source := a.code.size
    match a.place? goal with
    | none => [(goal, ⟨source, source + 1, (shortForm op).2⟩)]
    | some place =>
      if isShort ((place : Int) - source) && !(shortForm op).2 then
        [(goal, ⟨source, source + 1, false⟩)]
      else if (shortForm op).1 = Opcode.goto ∨ (shortForm op).1 = Opcode.jsr then
        [(goal, ⟨source, source + 1, true⟩)]
      else [(goal, ⟨source + 3, source + 4, true⟩)]
  | .tableSwitch _ _ default targets => switchOperands a.code.size 4 default targets
  | .lookupSwitch default _ targets => switchOperands a.code.size 8 default targets
  | _ => []

/-- An operand holds the distance to its label if that has been placed, and waits for it if not. -/
structure Settled (a : Assembler) (x : Label × Reference) : Prop where
  holds : ∀ place, a.place? x.1 = some place → x.2.Holds place a.code
  waits : a.place? x.1 = none → x.2 ∈ a.room x.1

/-- Operands that are written behind the code, with what else comes there. -/
structure Writes (new : List (Label × Reference)) (a a' : Assembler) : Prop where
  code : a.code.toList <+: a'.code.toList
  places : a'.places = a.places
  apart : new.Pairwise fun x y => x.2.stop ≤ y.2.operand
  behind : ∀ x ∈ new, a.code.size ≤ x.2.operand ∧ x.2.stop ≤ a'.code.size
  settled : ∀ x ∈ new, a'.Settled x
  room : ∀ l r, r ∈ a'.room l ↔ r ∈ a.room l ∨ (l, r) ∈ new ∧ a.place? l = none

variable {new new' : List (Label × Reference)}

theorem Writes.size_le (h : Writes new a a') : a.code.size ≤ a'.code.size := by
  rw [← Array.length_toList, ← Array.length_toList]
  exact h.code.length_le

theorem Writes.place? (h : Writes new a a') (l : Label) : a'.place? l = a.place? l := by
  rw [Assembler.place?, Assembler.place?, h.places]

/-- What is settled stays so. -/
theorem Settled.writes {x : Label × Reference} (hx : a.Settled x) (h : Writes new a a') :
    a'.Settled x where
  holds place hplace := (hx.holds place (h.place? _ ▸ hplace)).appended h.code
  waits hplace := (h.room _ _).2 (.inl (hx.waits (h.place? _ ▸ hplace)))

theorem Writes.trans (h : Writes new a a') (h' : Writes new' a' a'') : Writes (new ++ new') a a'' where
  code := h.code.trans h'.code
  places := h'.places.trans h.places
  apart := List.pairwise_append.2 ⟨h.apart, h'.apart, fun x hx y hy =>
    Nat.le_trans (h.behind x hx).2 (h'.behind y hy).1⟩
  behind x hx := by
    rcases List.mem_append.1 hx with hx | hx
    · exact ⟨(h.behind x hx).1, Nat.le_trans (h.behind x hx).2 h'.size_le⟩
    · exact ⟨Nat.le_trans h.size_le (h'.behind x hx).1, (h'.behind x hx).2⟩
  settled x hx := by
    rcases List.mem_append.1 hx with hx | hx
    · exact (h.settled x hx).writes h'
    · exact h'.settled x hx
  room l r := by
    rw [h'.room, h.room, h.place?, List.mem_append, or_and_right, or_assoc]

/-- What has no operands. -/
theorem writes_put (a : Assembler) {f : Bytes → Bytes} (hf : a.code.toList <+: (f a.code).toList) :
    Writes [] a (a.put f) where
  code := hf
  places := rfl
  apart := .nil
  behind _ hx := absurd hx List.not_mem_nil
  settled _ hx := absurd hx List.not_mem_nil
  room _ _ := ⟨.inl, fun h => h.resolve_right fun h => List.not_mem_nil h.1⟩

theorem writes_refl (a : Assembler) : Writes [] a a := writes_put a (f := id) (List.prefix_refl _)

/-- An operand that is written at once. -/
theorem writes_operand (hplace : a.place? l = some place) {r : Reference}
    (hr : r.operand = a.code.size) (hfits : r.Fits place) {f : Bytes → Bytes}
    (hf : (f a.code).toList = a.code.toList ++ r.bytes place) : Writes [(l, r)] a (a.put f) := by
  have hhas : (f a.code).Has r.operand (r.bytes place) :=
    ⟨a.code.toList, [], by rw [hf, List.append_nil], by rw [Array.length_toList, hr]⟩
  refine ⟨⟨_, hf.symm⟩, rfl, List.pairwise_singleton _ _, ?_, ?_, fun k r' => ⟨.inl, ?_⟩⟩
  · intro x hx
    obtain rfl := List.mem_singleton.1 hx
    exact ⟨Nat.le_of_eq hr.symm, r.length_bytes place ▸ hhas.le_size⟩
  · intro x hx
    obtain rfl := List.mem_singleton.1 hx
    refine ⟨fun place' hplace' => ?_, fun hnone => nomatch hplace.symm.trans hnone⟩
    obtain rfl := Option.some.inj (hplace.symm.trans hplace')
    exact ⟨hfits, hhas⟩
  · rintro (h | ⟨h, hnone⟩)
    · exact h
    · obtain ⟨rfl, rfl⟩ := Prod.mk.injEq .. ▸ List.mem_singleton.1 h
      exact nomatch hplace.symm.trans hnone

/-- An operand that is written at once, behind other bytes. -/
theorem writes_operand_behind (hplace : a.place? l = some place) {r : Reference}
    (hfits : r.Fits place) (g f : Bytes → Bytes) (hg : a.code.toList <+: (g a.code).toList)
    (hr : r.operand = (g a.code).size)
    (hf : (f (g a.code)).toList = (g a.code).toList ++ r.bytes place) :
    Writes [(l, r)] a (a.put fun b => f (g b)) :=
  (writes_put a hg).trans (writes_operand (a := a.put g) hplace hr hfits hf)

/-- An operand that waits. -/
theorem writes_wait (hplace : a.place? l = none) (source : Nat) (isLong : Bool) :
    Writes [(l, ⟨source, a.code.size, isLong⟩)] a (a.wait l source isLong) := by
  obtain ⟨code, places, waiting⟩ := a
  have hroom : ∀ k, (Assembler.wait l source isLong ⟨code, places, waiting⟩).room k =
      if l == k then ⟨source, code.size, isLong⟩ :: waiting.getD l [] else waiting.getD k [] :=
    fun k => Std.HashMap.getD_insert
  have hself : ⟨source, code.size, isLong⟩ ∈
      (Assembler.wait l source isLong ⟨code, places, waiting⟩).room l := by
    rw [hroom, if_pos (beq_self_eq_true l)]
    exact List.mem_cons_self
  refine ⟨?_, rfl, List.pairwise_singleton _ _, ?_, ?_, fun k r => ?_⟩
  · show code.toList <+: (if isLong then code.putI32 0 else code.putI16 0).toList
    split
    · exact code.prefix_putI32 0
    · exact code.prefix_putI16 0
  · intro x hx
    obtain rfl := List.mem_singleton.1 hx
    refine ⟨Nat.le_refl _, ?_⟩
    show code.size + (if isLong then 4 else 2) ≤
      (if isLong then code.putI32 0 else code.putI16 0).size
    split
    · exact Nat.le_of_eq (code.size_putI32 0).symm
    · exact Nat.le_of_eq (code.size_putI16 0).symm
  · intro x hx
    obtain rfl := List.mem_singleton.1 hx
    exact ⟨fun place hsome => (nomatch hplace.symm.trans hsome), fun _ => hself⟩
  · rw [hroom, List.mem_singleton]
    by_cases hk : l = k
    · subst hk
      rw [if_pos (beq_self_eq_true l), List.mem_cons, Prod.mk.injEq, or_comm]
      exact or_congr_right ⟨fun h => ⟨⟨rfl, h⟩, hplace⟩, fun h => h.1.2⟩
    · rw [if_neg fun h => hk (eq_of_beq h)]
      refine ⟨.inl, fun h => h.resolve_right fun h => hk ?_⟩
      exact (Prod.mk.injEq .. ▸ h.1).1.symm

/-- A long operand. -/
theorem writes_putDistance (source : Nat) (a : Assembler) (l : Label) :
    Writes [(l, ⟨source, a.code.size, true⟩)] a (putDistance source a l) ∧
      (putDistance source a l).code.size = a.code.size + 4 := by
  unfold putDistance
  cases hplace : a.place? l with
  | none => exact ⟨writes_wait hplace source true, Bytes.size_putI32 a.code 0⟩
  | some place =>
    exact ⟨writes_operand hplace rfl (.inl rfl) (Bytes.toList_putWord a.code 4 _),
      Bytes.size_putI32 a.code _⟩

/-- Several long operands. -/
theorem writes_putDistances (source : Nat) (ls : List Label) (a : Assembler) :
    Writes (spread source 4 a.code.size ls) a (ls.foldl (putDistance source) a) := by
  induction ls generalizing a with
  | nil => exact writes_refl a
  | cons l ls ih =>
    obtain ⟨hfirst, hsize⟩ := writes_putDistance source a l
    have hrest := ih (putDistance source a l)
    rw [hsize] at hrest
    exact hfirst.trans hrest

/-- Several long operands, with a key before each of them. -/
theorem writes_putPairs (source : Nat) (pairs : List (Int32 × Label)) (a : Assembler) :
    Writes (spread source 8 (a.code.size + 4) (pairs.map (·.2))) a
      (pairs.foldl (fun a (key, target) => (a.put fun b => b.putI32 key).putDistance source target)
        a) := by
  induction pairs generalizing a with
  | nil => exact writes_refl a
  | cons pair pairs ih =>
    have hkey : Writes [] a (a.put fun b => b.putI32 pair.1) := writes_put a (a.code.prefix_putI32 _)
    have hsize : (a.put fun b => b.putI32 pair.1).code.size = a.code.size + 4 :=
      Bytes.size_putI32 a.code pair.1
    obtain ⟨hfirst, hsize'⟩ := writes_putDistance source (a.put fun b => b.putI32 pair.1) pair.2
    have hrest := ih (putDistance source (a.put fun b => b.putI32 pair.1) pair.2)
    rw [hsize', hsize] at hrest
    rw [hsize] at hfirst
    exact (hkey.trans hfirst).trans hrest

/-- The opcode of a switch and its default. -/
theorem writes_switchHead (op : UInt8) (default : Label) (a : Assembler) :
    Writes [(default, ⟨a.code.size, switchStart a.code.size, true⟩)] a
        ((a.put fun b => (b.putU8 op).align4).putDistance a.code.size default) ∧
      ((a.put fun b => (b.putU8 op).align4).putDistance a.code.size default).code.size =
        switchStart a.code.size + 4 := by
  have hput : Writes [] a (a.put fun b => (b.putU8 op).align4) :=
    writes_put a ((a.code.prefix_putU8 op).trans (Bytes.prefix_align4 _))
  have hsize : (a.put fun b => (b.putU8 op).align4).code.size = switchStart a.code.size := by
    rw [size_put, Bytes.size_align4, Bytes.size_putU8]
    rfl
  obtain ⟨hdefault, hsize'⟩ :=
    writes_putDistance a.code.size (a.put fun b => (b.putU8 op).align4) default
  rw [hsize] at hdefault hsize'
  exact ⟨hput.trans hdefault, hsize'⟩

theorem writes_putTableSwitch (low high : Int32) (default : Label) (targets : List Label)
    (a : Assembler) :
    Writes (switchOperands a.code.size 4 default targets) a
      (putTableSwitch low high default targets a) := by
  obtain ⟨hhead, hsize⟩ := writes_switchHead Opcode.tableswitch default a
  unfold putTableSwitch
  dsimp only
  generalize (a.put fun b => (b.putU8 Opcode.tableswitch).align4).putDistance a.code.size default
    = a₁ at hhead hsize ⊢
  have hbounds : Writes [] a₁ (a₁.put fun b => (b.putI32 low).putI32 high) :=
    writes_put a₁ ((a₁.code.prefix_putI32 low).trans (Bytes.prefix_putI32 _ high))
  have hsize' : (a₁.put fun b => (b.putI32 low).putI32 high).code.size =
      switchStart a.code.size + 12 := by
    rw [size_put, Bytes.size_putI32, Bytes.size_putI32, hsize]
  have hall := writes_putDistances a.code.size targets
    (a₁.put fun b => (b.putI32 low).putI32 high)
  rw [hsize'] at hall
  exact (hhead.trans hbounds).trans hall

theorem writes_putLookupSwitch (default : Label) (pairs : List (Int32 × Label)) (a : Assembler) :
    Writes (switchOperands a.code.size 8 default (pairs.map (·.2))) a
      (putLookupSwitch default pairs a) := by
  obtain ⟨hhead, hsize⟩ := writes_switchHead Opcode.lookupswitch default a
  unfold putLookupSwitch
  dsimp only
  generalize (a.put fun b => (b.putU8 Opcode.lookupswitch).align4).putDistance a.code.size default
    = a₁ at hhead hsize ⊢
  have hcount : Writes [] a₁ (a₁.put fun b => b.putI32 (Int32.ofInt pairs.length)) :=
    writes_put a₁ (a₁.code.prefix_putI32 _)
  have hsize' : (a₁.put fun b => b.putI32 (Int32.ofInt pairs.length)).code.size =
      switchStart a.code.size + 8 := by
    rw [size_put, Bytes.size_putI32, hsize]
  have hall := writes_putPairs a.code.size pairs
    (a₁.put fun b => b.putI32 (Int32.ofInt pairs.length))
  rw [hsize'] at hall
  exact (hhead.trans hcount).trans hall

/-- A jump, in whichever form. -/
theorem writes_putJump (op : Opcode) (goal : Label) (a : Assembler) :
    Writes (a.operands (.jump op goal)) a (putJump op goal a).2 := by
  unfold operands putJump
  dsimp only
  rcases shortForm op with ⟨op, isLong⟩
  dsimp only
  cases hplace : a.place? goal with
  | none =>
    have hwait : ∀ (first : UInt8) (isLong : Bool),
        Writes [(goal, ⟨a.code.size, a.code.size + 1, isLong⟩)] a
          ((a.put fun b => b.putU8 first).wait goal a.code.size isLong) := by
      intro first isLong
      have hrest := writes_wait (a := a.put fun b => b.putU8 first) hplace a.code.size isLong
      rw [size_put, Bytes.size_putU8] at hrest
      exact (writes_put a (a.code.prefix_putU8 first)).trans hrest
    cases isLong with
    | true => exact hwait _ true
    | false => exact hwait _ false
  | some place =>
    dsimp only
    split
    · rename_i hshort
      rw [Bool.and_eq_true] at hshort
      exact writes_operand_behind hplace (r := ⟨a.code.size, a.code.size + 1, false⟩) (.inr hshort.1)
        (fun b => b.putU8 op) (fun b => b.putI16 (Int16.ofInt ((place : Int) - a.code.size)))
        (a.code.prefix_putU8 op) (a.code.size_putU8 op).symm (Bytes.toList_putWord _ 2 _)
    · split
      · exact writes_operand_behind hplace (r := ⟨a.code.size, a.code.size + 1, true⟩) (.inl rfl)
          (fun b => b.putU8 (longForm op))
          (fun b => b.putI32 (Int32.ofInt ((place : Int) - a.code.size)))
          (a.code.prefix_putU8 _) (a.code.size_putU8 _).symm (Bytes.toList_putWord _ 4 _)
      · -- the opposite jump leads behind the long one, whose distance is the operand
        refine writes_operand_behind hplace (r := ⟨a.code.size + 3, a.code.size + 4, true⟩) (.inl rfl)
          (fun b => ((b.putU8 (opposite op)).putI16 8).putU8 Opcode.gotoW)
          (fun b => b.putI32 (Int32.ofInt ((place : Int) - a.code.size - 3)))
          (((a.code.prefix_putU8 _).trans (Bytes.prefix_putI16 _ _)).trans (Bytes.prefix_putU8 _ _))
          ?_ ?_
        · rw [Bytes.size_putU8, Bytes.size_putI16, Bytes.size_putU8]
        · have hdistance : (place : Int) - a.code.size - 3 = (place : Int) - ((a.code.size + 3 : Nat) : Int) := by
            omega
          rw [hdistance]
          exact Bytes.toList_putWord _ 4 _

/-- **What an instruction writes**: its operands, each of which is settled. -/
theorem writes_encode {i : Instruction Label} {around : Bool} {p p' : ConstantPool}
    (hret : Returns (encode i a) p (around, a') p') : Writes (a.operands i) a a' := by
  rcases encode_cases hret with ⟨htargets, f, rfl, hbehind, -⟩ | ⟨op, goal, rfl, hjump⟩ |
    ⟨low, high, default, targets, rfl, rfl⟩ | ⟨default, keys, targets, rfl, hlength, rfl⟩
  · have hnone : a.operands i = [] := by
      cases i
      case jump | tableSwitch | lookupSwitch => exact nomatch htargets
      all_goals rfl
    rw [hnone]
    exact writes_put a hbehind
  · have hwrites := writes_putJump op goal a
    rw [← hjump] at hwrites
    exact hwrites
  · exact writes_putTableSwitch low high default targets a
  · have hwrites := writes_putLookupSwitch default (keys.zip targets) a
    rw [List.map_snd_zip (Nat.le_of_eq hlength.symm)] at hwrites
    exact hwrites

/-! ## 4. Labels and operands -/

theorem of_mem_spread {source stride offset : Nat} {ls : List Label} {x : Label × Reference}
    (hx : x ∈ spread source stride offset ls) :
    x.1 ∈ ls ∧ x.2.source = source ∧ offset ≤ x.2.operand ∧ x.2.isLong = true := by
  induction ls generalizing offset with
  | nil => exact absurd hx List.not_mem_nil
  | cons l ls ih =>
    rcases List.mem_cons.1 hx with rfl | hx
    · exact ⟨List.mem_cons_self, rfl, Nat.le_refl _, rfl⟩
    · obtain ⟨hl, hsource, hle, hlong⟩ := ih hx
      exact ⟨List.mem_cons_of_mem _ hl, hsource, Nat.le_trans (Nat.le_add_right ..) hle, hlong⟩

theorem exists_mem_spread {ls : List Label} (hl : l ∈ ls) (source stride offset : Nat) :
    ∃ r, (l, r) ∈ spread source stride offset ls := by
  induction ls generalizing offset with
  | nil => exact absurd hl List.not_mem_nil
  | cons k ls ih =>
    rcases List.mem_cons.1 hl with rfl | hl
    · exact ⟨_, List.mem_cons_self⟩
    · obtain ⟨r, hr⟩ := ih hl (offset + stride)
      exact ⟨r, List.mem_cons_of_mem _ hr⟩

theorem of_mem_switchOperands {size stride : Nat} {default : Label} {targets : List Label}
    {x : Label × Reference} (hx : x ∈ switchOperands size stride default targets) :
    x.1 ∈ default :: targets ∧ x.2.source = size ∧ size < x.2.operand ∧ x.2.isLong = true := by
  rcases List.mem_cons.1 hx with rfl | hx
  · refine ⟨List.mem_cons_self, rfl, show size < switchStart size from ?_, rfl⟩
    unfold switchStart
    omega
  · obtain ⟨hl, hsource, hle, hlong⟩ := of_mem_spread hx
    refine ⟨List.mem_cons_of_mem _ hl, hsource, Nat.lt_of_lt_of_le ?_ hle, hlong⟩
    unfold switchStart
    omega

theorem exists_mem_switchOperands {default : Label} {targets : List Label}
    (hl : l ∈ default :: targets) (size stride : Nat) :
    ∃ r, (l, r) ∈ switchOperands size stride default targets := by
  rcases List.mem_cons.1 hl with rfl | hl
  · exact ⟨_, List.mem_cons_self⟩
  · obtain ⟨r, hr⟩ := exists_mem_spread hl size stride (switchStart size + 12)
    exact ⟨r, List.mem_cons_of_mem _ hr⟩

/-- What waits for the goal of a jump is short unless the long form is asked for. -/
theorem operands_jump_waiting {op : Opcode} {goal : Label} (hgoal : a.place? goal = none) :
    a.operands (.jump op goal) =
      [(goal, ⟨a.code.size, a.code.size + 1, (shortForm op).2⟩)] := by
  unfold operands
  dsimp only
  rw [hgoal]

/-- A jump has one operand. -/
theorem operands_jump (a : Assembler) (op : Opcode) (goal : Label) :
    ∃ r : Reference, a.operands (.jump op goal) = [(goal, r)] ∧ a.code.size ≤ r.source ∧
      r.source < r.operand ∧
      (r.isLong = false → r.source = a.code.size ∧ (shortForm op).2 = false) := by
  unfold operands
  dsimp only
  cases a.place? goal with
  | none => exact ⟨_, rfl, Nat.le_refl _, Nat.lt_succ_self _, fun h => ⟨rfl, h⟩⟩
  | some place =>
    dsimp only
    split
    · rename_i hshort
      rw [Bool.and_eq_true, Bool.not_eq_true'] at hshort
      exact ⟨_, rfl, Nat.le_refl _, Nat.lt_succ_self _, fun _ => ⟨rfl, hshort.2⟩⟩
    · split
      · exact ⟨_, rfl, Nat.le_refl _, Nat.lt_succ_self _, fun h => nomatch h⟩
      · exact ⟨_, rfl, Nat.le_add_right .., Nat.lt_succ_self _, fun h => nomatch h⟩

theorem shortForm_snd_iff {op : Opcode} :
    (shortForm op).2 = false ↔ op ≠ Opcode.gotoW ∧ op ≠ Opcode.jsrW := by
  unfold shortForm
  split
  · rename_i h
    exact ⟨fun h => (nomatch h), fun h' => absurd h h'.1⟩
  · rename_i h
    split
    · rename_i h'
      exact ⟨fun h => (nomatch h), fun h'' => absurd h' h''.2⟩
    · rename_i h'
      exact ⟨fun _ => ⟨h, h'⟩, fun _ => rfl⟩

/-- An operand stands behind the start of its instruction, and is that of a target. -/
theorem of_mem_operands {i : Instruction Label} {x : Label × Reference} (hx : x ∈ a.operands i) :
    x.1 ∈ i.targets ∧ x.2.source < x.2.operand := by
  cases i
  case jump op goal =>
    obtain ⟨r, hr, -, hlt, -⟩ := operands_jump a op goal
    rw [hr] at hx
    obtain rfl := List.mem_singleton.1 hx
    exact ⟨List.mem_singleton.2 rfl, hlt⟩
  case tableSwitch | lookupSwitch =>
    obtain ⟨hl, hsource, hlt, -⟩ := of_mem_switchOperands hx
    exact ⟨hl, hsource ▸ hlt⟩
  all_goals exact absurd hx List.not_mem_nil

/-- Each target has an operand. -/
theorem exists_mem_operands {i : Instruction Label} (hl : l ∈ i.targets) (a : Assembler) :
    ∃ r, (l, r) ∈ a.operands i := by
  cases i
  case jump op goal =>
    obtain ⟨r, hr, -⟩ := operands_jump a op goal
    obtain rfl := List.mem_singleton.1 hl
    exact ⟨r, hr ▸ List.mem_singleton.2 rfl⟩
  case tableSwitch low high default targets => exact exists_mem_switchOperands hl _ _
  case lookupSwitch default keys targets => exact exists_mem_switchOperands hl _ _
  all_goals exact absurd hl List.not_mem_nil

/-- **Short operands are those of jumps** whose long form is not asked for. -/
theorem short_operand {i : Instruction Label} {x : Label × Reference} (hx : x ∈ a.operands i)
    (hshort : x.2.isLong = false) :
    x.2.source = a.code.size ∧ ∃ op, i = .jump op x.1 ∧ op ≠ Opcode.gotoW ∧ op ≠ Opcode.jsrW := by
  cases i
  case jump op goal =>
    obtain ⟨r, hr, -, -, hform⟩ := operands_jump a op goal
    rw [hr] at hx
    obtain rfl := List.mem_singleton.1 hx
    obtain ⟨hsource, hform⟩ := hform hshort
    exact ⟨hsource, op, rfl, shortForm_snd_iff.1 hform⟩
  case tableSwitch | lookupSwitch =>
    exact nomatch (of_mem_switchOperands hx).2.2.2.symm.trans hshort
  all_goals exact absurd hx List.not_mem_nil

/-! ## 5. All operands of some code -/

/-- **Code with its operands**: they do not overlap, each is settled, and nothing else waits. -/
structure Laid (a : Assembler) (ops : List (Label × Reference)) : Prop where
  apart : ops.Pairwise fun x y => x.2.stop ≤ y.2.operand
  inside : ∀ x ∈ ops, x.2.source < x.2.operand ∧ x.2.stop ≤ a.code.size
  settled : ∀ x ∈ ops, a.Settled x
  waiting : ∀ l, ∀ r ∈ a.room l, (l, r) ∈ ops ∧ a.place? l = none
  reached : ∀ l place, a.place? l = some place → place ≤ a.code.size

variable {ops : List (Label × Reference)}

theorem laid_empty : empty.Laid [] where
  apart := .nil
  inside _ hx := absurd hx List.not_mem_nil
  settled _ hx := absurd hx List.not_mem_nil
  waiting l r hr := by simp [room, empty] at hr
  reached l place hl := by simp [place?, empty] at hl

theorem Laid.apart_of_ne (h : a.Laid ops) {x y : Label × Reference} (hx : x ∈ ops) (hy : y ∈ ops)
    (hne : x ≠ y) : x.2.Apart y.2 := by
  have hapart : ops.Pairwise fun x y => x.2.Apart y.2 := h.apart.imp Or.inl
  have hsymm : Std.Symm fun x y : Label × Reference => x.2.Apart y.2 :=
    ⟨fun _ _ => Reference.Apart.symm⟩
  exact hapart.forall hx hy hne

/-- Code is long enough for the sources of its operands. -/
theorem Laid.source_lt (h : a.Laid ops) {x : Label × Reference} (hx : x ∈ ops) :
    x.2.source < a.code.size := by
  obtain ⟨hlt, hle⟩ := h.inside x hx
  exact Nat.lt_of_lt_of_le (Nat.lt_trans hlt x.2.operand_lt_stop) hle

/-- **An instruction** adds its operands. -/
theorem Laid.encode (h : a.Laid ops) {i : Instruction Label} {around : Bool} {p p' : ConstantPool}
    (hret : Returns (encode i a) p (around, a') p') : a'.Laid (ops ++ a.operands i) := by
  have hwrites := writes_encode hret
  refine ⟨?_, ?_, ?_, ?_, fun l place hl => ?_⟩
  · exact List.pairwise_append.2 ⟨h.apart, hwrites.apart, fun x hx y hy =>
      Nat.le_trans (h.inside x hx).2 (hwrites.behind y hy).1⟩
  · intro x hx
    rcases List.mem_append.1 hx with hx | hx
    · exact ⟨(h.inside x hx).1, Nat.le_trans (h.inside x hx).2 hwrites.size_le⟩
    · exact ⟨(of_mem_operands hx).2, (hwrites.behind x hx).2⟩
  · intro x hx
    rcases List.mem_append.1 hx with hx | hx
    · exact (h.settled x hx).writes hwrites
    · exact hwrites.settled x hx
  · intro l r hr
    rw [hwrites.place?]
    rcases (hwrites.room l r).1 hr with hr | ⟨hnew, hplace⟩
    · exact ⟨List.mem_append_left _ (h.waiting l r hr).1, (h.waiting l r hr).2⟩
    · exact ⟨List.mem_append_right _ hnew, hplace⟩
  · exact Nat.le_trans (h.reached l place (hwrites.place? l ▸ hl)) hwrites.size_le

/-- **A label that is new** fills in the operands that wait for it. -/
theorem Laid.placeLabel (h : a.Laid ops) (hnew : a.place? l = none)
    (hplace : a.placeLabel l = .ok a') : a'.Laid ops := by
  obtain ⟨hsize, hplace?, -⟩ := placeLabel_ok hplace
  obtain ⟨code, places, waiting⟩ := a
  obtain ⟨code', hfill, hdone⟩ := bind_eq_ok_iff.1 hplace
  cases hdone
  have hmem : ∀ r, r ∈ (waiting.getD l []).reverse →
      (l, r) ∈ ops ∧ Assembler.place? ⟨code, places, waiting⟩ l = none := fun r hr =>
    h.waiting l r (List.mem_reverse.1 hr)
  obtain ⟨hfilled, hkept⟩ := fillAll_ok hfill (fun r hr => (h.inside _ (hmem r hr).1).2)
    fun r hr r' hr' => by
      by_cases heq : r = r'
      · exact .inl heq
      · exact .inr (h.apart_of_ne (hmem r hr).1 (hmem r' hr').1 fun h => heq (Prod.mk.inj h).2)
  have hroom : ∀ k, Assembler.room ⟨code', places.insert l code.size, waiting.erase l⟩ k =
      if l == k then [] else waiting.getD k [] := fun k => Std.HashMap.getD_erase
  refine ⟨h.apart, fun x hx => ⟨(h.inside x hx).1, hsize.symm ▸ (h.inside x hx).2⟩, ?_, ?_,
    fun k place hk => ?_⟩
  · rintro ⟨k, r⟩ hx
    refine ⟨fun place hk => ?_, fun hk => ?_⟩
    · rw [hplace?] at hk
      by_cases hkl : l = k
      · subst hkl
        rw [if_pos (beq_self_eq_true l)] at hk
        cases hk
        exact hfilled r (List.mem_reverse.2 ((h.settled _ hx).waits hnew))
      · rw [if_neg fun heq => hkl (eq_of_beq heq)] at hk
        refine hkept r place (fun r' hr' => ?_) ((h.settled _ hx).holds place hk)
        exact h.apart_of_ne hx (hmem r' hr').1 fun heq => hkl (Prod.mk.inj heq).1.symm
    · rw [hplace?] at hk
      split at hk
      · exact nomatch hk
      · rename_i hkl
        rw [hroom, if_neg hkl]
        exact (h.settled _ hx).waits hk
  · intro k r hr
    rw [hroom] at hr
    rw [hplace?]
    split at hr
    · exact absurd hr List.not_mem_nil
    · rename_i hkl
      rw [if_neg hkl]
      exact h.waiting k r hr
  · rw [hplace?] at hk
    rw [hsize]
    split at hk
    · exact Nat.le_of_eq (Option.some.inj hk).symm
    · exact h.reached k place hk

/-- The room that a label is too far away for is that of the error. -/
theorem placeLabel_error {e : Error} (hplace : a.placeLabel l = .error e) :
    ∃ r ∈ a.room l, ¬ r.Fits a.code.size ∧ e = .jumpOffsetOverflow r.source a.code.size := by
  obtain ⟨code, places, waiting⟩ := a
  rcases bind_eq_error_iff.1 hplace with hfill | ⟨_, -, hdone⟩
  · obtain ⟨r, hr, hfits, he⟩ := fillAll_error hfill
    exact ⟨r, List.mem_reverse.1 hr, hfits, he⟩
  · exact nomatch hdone

/-- **A label cannot be placed** just if it is too far behind a short operand. -/
theorem Laid.placeLabel_fails_iff (h : a.Laid ops) (hnew : a.place? l = none) :
    (∃ e, a.placeLabel l = .error e) ↔
      ∃ r : Reference, (l, r) ∈ ops ∧ r.isLong = false ∧ r.source + 32767 < a.code.size := by
  constructor
  · rintro ⟨e, he⟩
    obtain ⟨r, hr, hfits, -⟩ := placeLabel_error he
    obtain ⟨hmem, -⟩ := h.waiting l r hr
    exact ⟨r, hmem, (Reference.not_fits_iff (Nat.le_of_lt (h.source_lt hmem))).1 hfits⟩
  · rintro ⟨r, hr, hfar⟩
    have hfits := (Reference.not_fits_iff (Nat.le_of_lt (h.source_lt hr))).2 hfar
    have hwaits := (h.settled _ hr).waits hnew
    cases hplace : a.placeLabel l with
    | error e => exact ⟨e, rfl⟩
    | ok a' =>
      obtain ⟨code, places, waiting⟩ := a
      obtain ⟨code', hfill, -⟩ := bind_eq_ok_iff.1 hplace
      exact absurd (fits_of_fillAll hfill r (List.mem_reverse.2 hwaits)) hfits

end Assembler

end ClassFile
