/-
# The labels of code that is read

A `LabelTable` gives an offset a label when it is first mentioned, and keeps it.  `mark` is what one
mention does to the table and `markAll` what several do in turn; `label` is the label that an offset has
then.  A reading that labels what it reads (`Labelling`) marks the offsets that are mentioned, and puts
the labels of the table afterwards in their place: since labels stay, it does not matter that some of the
offsets were not marked yet when the first of them got its label.

Labels are numbered as they are made, so different offsets have different labels (`Numbered`), and a label
is a debug label exactly if the mention that made it was one of a debug table (`debug_markAll`).
-/
import ClassFile.Code.Decode
import ClassFile.Proofs.Stateful

namespace ClassFile

namespace LabelTable

variable {t : LabelTable} {d : Bool} {p q : Nat} {ps : List Nat}

/-! ## 1. Marking offsets -/

/-- The table after an offset has been mentioned. -/
def mark (d : Bool) (t : LabelTable) (place : Nat) : LabelTable :=
  match t.labels[place]? with
  | some none => ⟨t.labels.setIfInBounds place (some ⟨t.made, d⟩), t.made + 1⟩
  | _ => t

/-- The table after several offsets have been mentioned. -/
def markAll (d : Bool) (t : LabelTable) (places : List Nat) : LabelTable := places.foldl (mark d) t

/-- The label of an offset, if it has one. -/
def label? (t : LabelTable) (place : Nat) : Option Label := t.labels[place]?.join

/-- The label of an offset that has one. -/
def label (t : LabelTable) (place : Nat) : Label := (t.label? place).getD ⟨place, false⟩

theorem label_of_label? {l : Label} (h : t.label? p = some l) : t.label p = l := by
  rw [label, h, Option.getD_some]

theorem getElem?_of_label? {l : Label} (h : t.label? p = some l) : t.labels[p]? = some (some l) := by
  unfold label? at h
  rw [Option.join_eq_some_iff] at h
  exact h

theorem getElem?_of_unlabelled (hp : p < t.labels.size) (h : t.label? p = none) :
    t.labels[p]? = some none := by
  rw [label?, Array.getElem?_eq_getElem hp] at h
  rw [Array.getElem?_eq_getElem hp]
  exact congrArg some h

@[simp] theorem size_ofLength (length : Nat) : (ofLength length).labels.size = length + 1 := by
  simp [ofLength]

@[simp] theorem label?_ofLength (length : Nat) : (ofLength length).label? p = none := by
  simp [ofLength, label?, Array.getElem?_replicate]
  split <;> rfl

@[simp] theorem size_mark : (t.mark d p).labels.size = t.labels.size := by
  unfold mark
  split <;> simp

@[simp] theorem size_markAll : (t.markAll d ps).labels.size = t.labels.size := by
  induction ps generalizing t with
  | nil => rfl
  | cons p ps ih => exact ih.trans size_mark

theorem markAll_append {qs : List Nat} :
    t.markAll d (ps ++ qs) = (t.markAll d ps).markAll d qs := List.foldl_append

/-- An offset with a label is passed over. -/
theorem mark_of_label? {l : Label} (h : t.label? p = some l) : t.mark d p = t := by
  rw [mark, getElem?_of_label? h]

theorem markAll_of_label? (h : ∀ p ∈ ps, (t.label? p).isSome) : t.markAll d ps = t := by
  induction ps with
  | nil => rfl
  | cons p ps ih =>
    obtain ⟨l, hl⟩ := Option.isSome_iff_exists.1 (h p List.mem_cons_self)
    show (t.mark d p).markAll d ps = t
    rw [mark_of_label? hl]
    exact ih fun q hq => h q (List.mem_cons_of_mem p hq)

/-- What one mention does to the labels. -/
theorem label?_mark (hp : p < t.labels.size) : (t.mark d p).label? q =
    if q = p then some ((t.label? p).getD ⟨t.made, d⟩) else t.label? q := by
  cases h : t.label? p with
  | some l =>
    rw [mark_of_label? h]
    split
    · rename_i hq
      rw [hq, h, Option.getD_some]
    · rfl
  | none =>
    rw [mark, getElem?_of_unlabelled hp h]
    dsimp only
    rw [label?, label?, Array.getElem?_setIfInBounds]
    by_cases hq : q = p
    · subst hq
      simp [hp]
    · simp [hq, Ne.symm hq]

/-- Labels stay. -/
theorem label?_markAll_of_label? {l : Label} (h : t.label? p = some l) :
    (t.markAll d ps).label? p = some l := by
  induction ps generalizing t with
  | nil => exact h
  | cons q ps ih =>
    refine ih ?_
    by_cases hq : q < t.labels.size
    · rw [label?_mark hq]
      split
      · rename_i hpq
        rw [← hpq, h, Option.getD_some]
      · exact h
    · rw [mark, Array.getElem?_eq_none (Nat.le_of_not_lt hq)]
      exact h

theorem label_markAll_of_label? (h : (t.label? p).isSome) :
    (t.markAll d ps).label p = t.label p := by
  obtain ⟨l, hl⟩ := Option.isSome_iff_exists.1 h
  rw [label_of_label? hl, label_of_label? (label?_markAll_of_label? hl)]

theorem isSome_markAll (hps : ∀ q ∈ ps, q < t.labels.size) :
    ((t.markAll d ps).label? p).isSome ↔ (t.label? p).isSome ∨ p ∈ ps := by
  induction ps generalizing t with
  | nil => simp [markAll]
  | cons q ps ih =>
    have hq := hps q List.mem_cons_self
    show (((t.mark d q).markAll d ps).label? p).isSome ↔ _
    have hrest : ∀ r ∈ ps, r < (t.mark d q).labels.size := fun r hr => by
      rw [size_mark]
      exact hps r (List.mem_cons_of_mem q hr)
    rw [ih hrest, label?_mark hq, List.mem_cons]
    by_cases hpq : p = q
    · simp [hpq]
    · simp [hpq]

/-! ## 2. Different labels, and debug labels -/

/-- **Labels are numbered as they are made.** -/
structure Numbered (t : LabelTable) : Prop where
  lt : ∀ p l, t.label? p = some l → l.id < t.made
  unique : ∀ p q l l', t.label? p = some l → t.label? q = some l' → l.id = l'.id → p = q

theorem numbered_ofLength (length : Nat) : (ofLength length).Numbered :=
  ⟨fun p l h => by simp at h, fun p q l l' h => by simp at h⟩

theorem Numbered.mark (ht : t.Numbered) (d : Bool) (place : Nat) : (t.mark d place).Numbered := by
  rcases Nat.lt_or_ge place t.labels.size with hplace | hplace
  case inr => rwa [LabelTable.mark, Array.getElem?_eq_none hplace]
  cases h : t.label? place with
  | some l => rwa [mark_of_label? h]
  | none =>
    have hmade : (t.mark d place).made = t.made + 1 := by
      rw [LabelTable.mark, getElem?_of_unlabelled hplace h]
    have hlabel : ∀ q, (t.mark d place).label? q =
        if q = place then some ⟨t.made, d⟩ else t.label? q := fun q => by
      rw [label?_mark hplace, h, Option.getD_none]
    refine ⟨fun p l hl => ?_, fun p q l l' hl hl' hid => ?_⟩
    · rw [hlabel] at hl
      rw [hmade]
      split at hl
      · cases hl
        exact Nat.lt_succ_self _
      · exact Nat.lt_succ_of_lt (ht.lt p l hl)
    · rw [hlabel] at hl hl'
      split at hl <;> split at hl'
      · rename_i hp hq
        rw [hp, hq]
      · cases hl
        exact absurd hid (Nat.ne_of_gt (ht.lt q l' hl'))
      · cases hl'
        exact absurd hid (Nat.ne_of_lt (ht.lt p l hl))
      · exact ht.unique p q l l' hl hl' hid

theorem Numbered.markAll (ht : t.Numbered) (d : Bool) (ps : List Nat) :
    (t.markAll d ps).Numbered := by
  induction ps generalizing t with
  | nil => exact ht
  | cons p ps ih => exact ih (ht.mark d p)

theorem Numbered.label_inj (ht : t.Numbered) (hp : (t.label? p).isSome) (hq : (t.label? q).isSome)
    (h : t.label p = t.label q) : p = q := by
  obtain ⟨l, hl⟩ := Option.isSome_iff_exists.1 hp
  obtain ⟨l', hl'⟩ := Option.isSome_iff_exists.1 hq
  rw [label_of_label? hl, label_of_label? hl'] at h
  exact ht.unique p q l l' hl hl' (congrArg Label.id h)

/-- A label says of which kind the mention was that made it. -/
theorem debug_markAll (hps : ∀ q ∈ ps, q < t.labels.size) (hnew : t.label? p = none) (hp : p ∈ ps) :
    ((t.markAll d ps).label p).debug = d := by
  induction ps generalizing t with
  | nil => cases hp
  | cons q ps ih =>
    have hq := hps q List.mem_cons_self
    show (((t.mark d q).markAll d ps).label p).debug = d
    by_cases hpq : p = q
    · subst hpq
      have hl : (t.mark d p).label? p = some ⟨t.made, d⟩ := by
        rw [label?_mark hq, if_pos rfl, hnew, Option.getD_none]
      rw [label_of_label? (label?_markAll_of_label? hl)]
    · have hrest : ∀ r ∈ ps, r < (t.mark d q).labels.size := fun r hr => by
        rw [size_mark]
        exact hps r (List.mem_cons_of_mem q hr)
      refine ih hrest ?_ ((List.mem_cons.1 hp).resolve_left hpq)
      rw [label?_mark hq, if_neg hpq, hnew]

end LabelTable

/-! ## 3. Readings that label -/

section Labelling

variable {α β γ : Type} {d : Bool}

/-- A reading that gives labels to these offsets: it marks them in their order, and its answer has the
labels of the table afterwards in their place. -/
structure Labelling (d : Bool) (m : CodeReader β) (places : List Nat) (put : (Nat → Label) → β) :
    Prop where
  run : ∀ t, (∀ p ∈ places, p < t.labels.size) →
    m t = pure (put (t.markAll d places).label, t.markAll d places)
  congr : ∀ f g, (∀ p ∈ places, f p = g p) → put f = put g

theorem labelling_labelFor (d : Bool) (p : Nat) :
    Labelling d (labelFor d p) [p] fun label => label p where
  run t hp := by
    have hp : p < t.labels.size := hp p List.mem_cons_self
    show labelFor d p t = pure ((t.mark d p).label p, t.mark d p)
    cases h : t.label? p with
    | some l =>
      have hget := LabelTable.getElem?_of_label? h
      rw [LabelTable.mark_of_label? h, LabelTable.label_of_label? h]
      unfold labelFor
      simp only [hget]
    | none =>
      have hget := LabelTable.getElem?_of_unlabelled hp h
      have hl : (t.mark d p).label? p = some ⟨t.made, d⟩ := by
        rw [LabelTable.label?_mark hp, if_pos rfl, h, Option.getD_none]
      rw [LabelTable.label_of_label? hl]
      unfold labelFor LabelTable.mark
      simp only [hget]
  congr f g h := h p List.mem_cons_self

namespace Labelling

variable {m : CodeReader β} {ps qs : List Nat} {put : (Nat → Label) → β}

theorem pure (b : β) : Labelling d (Pure.pure b) [] fun _ => b := ⟨fun _ _ => rfl, fun _ _ _ => rfl⟩

/-- What is put for offsets that have been marked is put for them later, too. -/
theorem put_later (h : Labelling d m ps put) (d' : Bool) (qs : List Nat) {t : LabelTable}
    (hps : ∀ p ∈ ps, p < t.labels.size) :
    put (t.markAll d ps).label = put ((t.markAll d ps).markAll d' qs).label :=
  h.congr _ _ fun _ hp =>
    (LabelTable.label_markAll_of_label? ((LabelTable.isSome_markAll hps).2 (.inr hp))).symm

/-- One reading after the other. -/
theorem bind {k : β → CodeReader γ} (hm : Labelling d m ps put) (next : (Nat → Label) → β → γ)
    (hk : ∀ b, Labelling d (k b) qs fun label => next label b) :
    Labelling d (m >>= k) (ps ++ qs) fun label => next label (put label) where
  run t hp := by
    simp only [List.mem_append] at hp
    have hps : ∀ p ∈ ps, p < t.labels.size := fun p hpp => hp p (.inl hpp)
    have hqs : ∀ q ∈ qs, q < (t.markAll d ps).labels.size := fun q hq => by
      rw [LabelTable.size_markAll]
      exact hp q (.inr hq)
    show (m t >>= fun x => k x.1 x.2) = _
    rw [hm.run t hps, pure_bind, LabelTable.markAll_append]
    rw [(hk _).run _ hqs, hm.put_later d qs hps]
  congr f g hfg := by
    rw [hm.congr f g fun p hp => hfg p (List.mem_append_left qs hp),
      (hk _).congr f g fun q hq => hfg q (List.mem_append_right ps hq)]

/-- What is done with the answer. -/
theorem map (hm : Labelling d m ps put) (g : β → γ) :
    Labelling d (m >>= fun b => Pure.pure (g b)) ps fun label => g (put label) := by
  have := hm.bind (fun _ b => g b) fun b => .pure (g b)
  rwa [List.append_nil] at this

/-- The same reading for one thing after the other. -/
theorem mapM {step : α → CodeReader β} {places : α → List Nat} {put : (Nat → Label) → α → β}
    (h : ∀ a, Labelling d (step a) (places a) fun label => put label a) (as : List α) :
    Labelling d (as.mapM step) (as.flatMap places) fun label => as.map (put label) := by
  induction as with
  | nil => exact .pure []
  | cons a as ih =>
    rw [List.mapM_cons, List.flatMap_cons]
    refine (h a).bind (fun label b => b :: as.map (put label)) fun b => ?_
    exact ih.map (b :: ·)

end Labelling

/-- The targets of an instruction. -/
theorem labelling_instruction (d : Bool) (i : Instruction Nat) :
    Labelling d (i.mapM (labelFor d)) i.targets fun label => i.map label := by
  have hlist : ∀ places : List Nat, Labelling d (places.mapM (labelFor d)) places fun label =>
      places.map label := fun places => by
    have := Labelling.mapM (labelling_labelFor d) places
    rwa [List.flatMap_singleton'] at this
  cases i with
  | jump op target => exact (labelling_labelFor d target).map (Instruction.jump op)
  | tableSwitch low high default targets =>
    exact (labelling_labelFor d default).bind
      (fun label l => Instruction.tableSwitch low high l (targets.map label)) fun l =>
        (hlist targets).map (Instruction.tableSwitch low high l)
  | lookupSwitch default keys targets =>
    exact (labelling_labelFor d default).bind
      (fun label l => Instruction.lookupSwitch l keys (targets.map label)) fun l =>
        (hlist targets).map (Instruction.lookupSwitch l keys)
  | _ => exact .pure _

end Labelling

end ClassFile
