/-
# Skipping an annotation

The reader of annotations goes over the same bytes whether it has a visitor or not, and whichever nested
annotations and arrays a visitor declines.  `Gives` says of a computation that its answer does not depend
on the state of the visitors.  All reading with visitors that never fail gives what skipping answers
(`gives_visitValueWithin`); reading as events and skipping are reading with a certain visitor and with none
(`visitValue_recorder`, `visitValue_none`).

Reading ends because a value takes at least one byte: how deep values are nested is less than the number
of bytes left, so that beyond this depth anything can stand for the reader of the values inside
(`iterate_visitValueWith`).  Only constants could be nested without an end.
-/
import ClassFile.Annotation.Visitor
import ClassFile.Proofs.ClassBytes.Assembled

namespace ClassFile

open AnnotationVisitor (tell ask times)
open Relation (TransGen)

variable {V σ α β : Type}

/-! ## 1. Computations of visitors -/

/-- The answer, whatever the state is. -/
def Gives (m : Visit σ α) (x : Except Error α) : Prop := ∀ s, (m s : Except Error α × σ).1 = x

theorem gives_lift (x : Except Error α) : Gives (liftM x : Visit σ α) x := fun _ => rfl

theorem Gives.bind {m : Visit σ α} {x : Except Error α} {f : α → Visit σ β}
    {g : α → Except Error β} (hm : Gives m x) (hf : ∀ a, Gives (f a) (g a)) :
    Gives (m >>= f) (x >>= g) := by
  intro s
  have hs := hm s
  rw [bind_apply]
  rcases h : (m s : Except Error α × σ) with ⟨e | a, s'⟩
  · rw [h] at hs
    subst hs
    rfl
  · rw [h] at hs
    subst hs
    exact hf a s'

theorem Gives.returns {m : Visit σ α} {a : α} (hm : Gives m (.ok a)) (s : σ) :
    ∃ s', Returns m s a s' :=
  ⟨(m s : Except Error α × σ).2, Prod.ext (hm s) rfl⟩

/-- The computation does not fail, whatever the state is. -/
def Succeeds (m : Visit σ α) : Prop := ∀ s, ∃ a s', Returns m s a s'

/-- What does not fail has no part in the answer of what is behind it. -/
theorem Succeeds.gives {m : Visit σ α} {f : α → Visit σ β} {x : Except Error β} (hm : Succeeds m)
    (hf : ∀ a, Gives (f a) x) : Gives (m >>= f) x := by
  intro s
  obtain ⟨a, s', hret⟩ := hm s
  have happly : (m s : Except Error α × σ) = (.ok a, s') := hret
  rw [bind_apply, happly]
  exact hf a s'

theorem Gives.before {m : Visit σ α} {x : Except Error α} {f : α → Visit σ Unit} (hm : Gives m x)
    (hf : ∀ a, Succeeds (f a)) : Gives (do let a ← m; f a; return a) x := by
  have hpure : ∀ a, Gives (do f a; return a) (.ok a) := fun a => (hf a).gives fun _ _ => rfl
  have h := hm.bind hpure
  rwa [show x >>= (fun a => .ok a) = x from bind_pure x] at h

/-- None of the operations fails. -/
structure AnnotationVisitor.NeverFails (k : AnnotationVisitor V σ) : Prop where
  value : ∀ v name x, Succeeds (k.value v name x)
  enumConstant : ∀ v name descriptor x, Succeeds (k.enumConstant v name descriptor x)
  beginNested : ∀ v name descriptor, Succeeds (k.beginNested v name descriptor)
  beginArray : ∀ v name, Succeeds (k.beginArray v name)
  finish : ∀ v, Succeeds (k.finish v)

theorem succeeds_tell {f : V → Visit σ Unit} (hf : ∀ v, Succeeds (f v)) (v : Option V) :
    Succeeds (tell v f) := by
  cases v with
  | none => exact fun s => ⟨(), s, rfl⟩
  | some v => exact hf v

theorem succeeds_ask {f : V → Visit σ (Option V)} (hf : ∀ v, Succeeds (f v)) (v : Option V) :
    Succeeds (ask v f) := by
  cases v with
  | none => exact fun s => ⟨none, s, rfl⟩
  | some v => exact hf v

/-- What comes behind a computation matters for its answers only. -/
theorem bind_congr_of_returns {m : Visit σ α} {f g : α → Visit σ β}
    (h : ∀ s a s', Returns m s a s' → f a s' = g a s') : m >>= f = m >>= g := by
  funext s
  rw [bind_apply, bind_apply]
  rcases hm : (m s : Except Error α × σ) with ⟨e | a, s'⟩
  · rfl
  · exact h s a s' hm

/-! ## 2. Loops -/

theorem iterateM_succ (step : α → Except Error α) (n : Nat) (a : α) :
    iterateM step (n + 1) a = step a >>= iterateM step n := by
  rw [iterateM]
  cases step a <;> rfl

theorem gives_times {step : α → Visit σ α} {step' : α → Except Error α}
    (h : ∀ a, Gives (step a) (step' a)) (n : Nat) (a : α) :
    Gives (times step n a) (iterateM step' n a) := by
  induction n generalizing a with
  | zero => exact fun _ => rfl
  | succ n ih =>
    rw [times, iterateM_succ]
    exact (h a).bind ih

variable {step step' : α → Visit σ α} {P : α → Prop}

theorem returns_times (hP : ∀ a s b s', P a → Returns (step a) s b s' → P b) {n : Nat} {a b : α}
    {s s' : σ} (ha : P a) (h : Returns (times step n a) s b s') : P b := by
  induction n generalizing a s with
  | zero =>
    obtain ⟨rfl, -⟩ := returns_pure.1 h
    exact ha
  | succ n ih =>
    obtain ⟨a', s₁, hstep, h⟩ := returns_bind.1 h
    exact ih (hP a s a' s₁ ha hstep) h

theorem times_congr (hP : ∀ a s b s', P a → Returns (step a) s b s' → P b)
    (h : ∀ a, P a → step a = step' a) (n : Nat) {a : α} (ha : P a) :
    times step n a = times step' n a := by
  induction n generalizing a with
  | zero => rfl
  | succ n ih =>
    rw [times, times, ← h a ha]
    exact bind_congr_of_returns fun s a' s' hret => congrFun (ih (hP a s a' s' ha hret)) s'

namespace ClassBytes

variable (c : ClassBytes) (k : AnnotationVisitor V σ)
  {read read' : Option V → Option String → Nat → Visit σ Nat}

/-! ## 3. How far a value goes -/

/-- An answer is an offset behind this one that is still in the input. -/
def Advances (m : Visit σ Nat) (offset : Nat) : Prop :=
  ∀ s stop s', Returns m s stop s' → offset < stop ∧ stop ≤ c.bytes.size

variable {c}

theorem le_size_of_u16At {offset : Nat} {v : UInt16} (h : c.bytes.u16At offset = .ok v) :
    offset + 2 ≤ c.bytes.size :=
  (Bytes.has_of_u16At h).le_size

theorem le_size_of_utf8At {offset : Nat} {text : String} (h : c.utf8At offset = .ok text) :
    offset + 2 ≤ c.bytes.size := by
  obtain ⟨i, hi, -⟩ := bind_eq_ok_iff.1 h
  exact le_size_of_u16At hi

theorem le_size_of_readLiteral? {tag : Char} {offset : Nat} {v : ElementValue}
    (h : c.readLiteral? tag offset = .ok (some v)) : offset + 2 ≤ c.bytes.size := by
  have hconstant : ∀ {f : Loadable → Except Error (Option ElementValue)},
      ((do c.readLoadable (← c.bytes.u16At offset)) >>= f) = .ok (some v) →
        offset + 2 ≤ c.bytes.size := by
    intro f h
    obtain ⟨value, hvalue, -⟩ := bind_eq_ok_iff.1 h
    obtain ⟨i, hi, -⟩ := bind_eq_ok_iff.1 hvalue
    exact le_size_of_u16At hi
  have htext : ∀ {f : String → Except Error (Option ElementValue)},
      (c.utf8At offset >>= f) = .ok (some v) → offset + 2 ≤ c.bytes.size := by
    intro f h
    obtain ⟨text, ht, -⟩ := bind_eq_ok_iff.1 h
    exact le_size_of_utf8At ht
  unfold readLiteral? at h
  dsimp only at h
  split at h
  case h_11 => cases h
  all_goals first | exact hconstant h | exact htext h

theorem advances_visitAnnotationWith {offset : Nat}
    (h : ∀ v name o, offset < o → c.Advances (read v name o) o) (v : Option V) :
    c.Advances (c.visitAnnotationWith k read v offset) offset := by
  intro s stop s' hret
  obtain ⟨count, s₁, hcount, hret⟩ := returns_bind.1 hret
  obtain ⟨stop', s₂, htimes, hret⟩ := returns_bind.1 hret
  obtain ⟨-, s₃, -, hret⟩ := returns_bind.1 hret
  obtain ⟨rfl, -⟩ := returns_pure.1 hret
  have hstart := le_size_of_u16At (returns_lift.1 hcount).1
  refine returns_times (P := fun o => offset < o ∧ o ≤ c.bytes.size) ?_ ⟨by omega, hstart⟩ htimes
  intro o s₁ o' s₂ ho hstep
  obtain ⟨name, s₃, -, hstep⟩ := returns_bind.1 hstep
  obtain ⟨hlt, hle⟩ := h v (some name) (o + 2) (by omega) _ _ _ hstep
  exact ⟨by omega, hle⟩

theorem advances_visitValueWith {offset : Nat}
    (h : ∀ v name o, offset < o → c.Advances (read v name o) o) (v : Option V)
    (name : Option String) : c.Advances (c.visitValueWith k read v name offset) offset := by
  intro s stop s' hret
  obtain ⟨byte, s₁, -, hret⟩ := returns_bind.1 hret
  split at hret
  · obtain ⟨descriptor, s₂, -, hret⟩ := returns_bind.1 hret
    obtain ⟨value, s₃, hvalue, hret⟩ := returns_bind.1 hret
    obtain ⟨-, s₄, -, hret⟩ := returns_bind.1 hret
    obtain ⟨rfl, -⟩ := returns_pure.1 hret
    have hle := le_size_of_utf8At (returns_lift.1 hvalue).1
    exact ⟨by omega, hle⟩
  · obtain ⟨descriptor, s₂, -, hret⟩ := returns_bind.1 hret
    obtain ⟨inner, s₃, -, hret⟩ := returns_bind.1 hret
    have hinside : c.Advances (c.visitAnnotationWith k read inner (offset + 3)) (offset + 3) :=
      advances_visitAnnotationWith k (fun v name o ho => h v name o (by omega)) inner
    obtain ⟨hlt, hle⟩ := hinside _ _ _ hret
    exact ⟨by omega, hle⟩
  · obtain ⟨count, s₂, hcount, hret⟩ := returns_bind.1 hret
    obtain ⟨inner, s₃, -, hret⟩ := returns_bind.1 hret
    obtain ⟨stop', s₄, htimes, hret⟩ := returns_bind.1 hret
    obtain ⟨-, s₅, -, hret⟩ := returns_bind.1 hret
    obtain ⟨rfl, -⟩ := returns_pure.1 hret
    have hstart := le_size_of_u16At (returns_lift.1 hcount).1
    refine returns_times (P := fun o => offset < o ∧ o ≤ c.bytes.size) ?_ ⟨by omega, hstart⟩ htimes
    intro o s₁ o' s₂ ho hstep
    obtain ⟨hlt, hle⟩ := h inner none o ho.1 _ _ _ hstep
    exact ⟨by omega, hle⟩
  · obtain ⟨literal, s₂, hliteral, hret⟩ := returns_bind.1 hret
    cases literal with
    | none => exact absurd hret returns_throw
    | some value =>
      obtain ⟨-, s₃, -, hret⟩ := returns_bind.1 hret
      obtain ⟨rfl, -⟩ := returns_pure.1 hret
      have hle := le_size_of_readLiteral? (returns_lift.1 hliteral).1
      exact ⟨by omega, hle⟩

/-! ## 4. The depth of values -/

theorem visitAnnotationWith_congr {offset : Nat}
    (h : ∀ v name o, offset < o → c.Advances (read v name o) o)
    (heq : ∀ v name o, offset < o → read v name o = read' v name o) (v : Option V) :
    c.visitAnnotationWith k read v offset = c.visitAnnotationWith k read' v offset := by
  refine bind_congr fun count => congrArg (· >>= _) ?_
  refine times_congr (P := fun o => offset < o) ?_ ?_ _ (by omega)
  · intro o s o' s' ho hstep
    obtain ⟨name, s₁, -, hstep⟩ := returns_bind.1 hstep
    have hlt := (h v (some name) (o + 2) (by omega) _ _ _ hstep).1
    omega
  · intro o ho
    exact bind_congr fun name => heq v (some name) (o + 2) (by omega)

theorem visitValueWith_congr {offset : Nat}
    (h : ∀ v name o, offset < o → c.Advances (read v name o) o)
    (heq : ∀ v name o, offset < o → read v name o = read' v name o) (v : Option V)
    (name : Option String) :
    c.visitValueWith k read v name offset = c.visitValueWith k read' v name offset := by
  refine bind_congr fun byte => ?_
  split
  · rfl
  · refine bind_congr fun descriptor => bind_congr fun inner => ?_
    exact visitAnnotationWith_congr k (fun v name o ho => h v name o (by omega))
      (fun v name o ho => heq v name o (by omega)) inner
  · refine bind_congr fun count => bind_congr fun inner => congrArg (· >>= _) ?_
    refine times_congr (P := fun o => offset < o) ?_ ?_ _ (by omega)
    · intro o s o' s' ho hstep
      have hlt := (h inner none o ho _ _ _ hstep).1
      omega
    · exact fun o ho => heq inner none o ho
  · rfl

/-- The depth is enough at an offset: it is more than the bytes that are left, or as much, and what
stands for values inside fails as the reader does behind the end of the input. -/
def Enough (c : ClassBytes) (deeper : Option V → Option String → Nat → Visit σ Nat) (n offset : Nat) :
    Prop :=
  c.bytes.size - offset < n ∨ c.bytes.size - offset = n ∧
    ∀ v name o, deeper v name o = throw (.unexpectedEof o 1)

variable {deeper deeper' : Option V → Option String → Nat → Visit σ Nat} {n m offset : Nat}

/-- One level less is enough for values inside. -/
theorem Enough.inside (h : c.Enough deeper (n + 1) offset) (hoffset : offset < c.bytes.size) {o : Nat}
    (ho : offset < o) : c.Enough deeper n o := by
  unfold Enough at h ⊢
  rcases h with h | ⟨h, hdeeper⟩
  · left
    omega
  · by_cases hlt : c.bytes.size - o < n
    · exact .inl hlt
    · exact .inr ⟨by omega, hdeeper⟩

theorem visitValueWith_of_size_le (h : c.bytes.size ≤ offset) (v : Option V) (name : Option String) :
    c.visitValueWith k read v name offset = throw (.unexpectedEof offset 1) := by
  have hbyte : c.bytes.u8At offset = .error (.unexpectedEof offset 1) := by
    rw [Bytes.u8At, Bytes.wordAt, Bytes.word?_eq_none_iff.2 (by omega)]
    rfl
  rw [visitValueWith, hbyte]
  rfl

/-- At the end of the input there is nothing to read, with no depth left and with some. -/
theorem iterate_of_size_le (hsize : c.bytes.size ≤ offset) (h : c.Enough deeper n offset)
    (v : Option V) (name : Option String) :
    (c.visitValueWith k)^[n] deeper v name offset = throw (.unexpectedEof offset 1) := by
  cases n with
  | zero =>
    obtain h | ⟨-, hdeeper⟩ := h
    · omega
    · exact hdeeper v name offset
  | succ n =>
    rw [Function.iterate_succ_apply']
    exact visitValueWith_of_size_le k hsize v name

theorem advances_iterate (h : c.Enough deeper n offset) (v : Option V) (name : Option String) :
    c.Advances ((c.visitValueWith k)^[n] deeper v name offset) offset := by
  induction n generalizing offset v name with
  | zero =>
    intro s stop s' hret
    obtain h | ⟨-, hdeeper⟩ := h
    · omega
    · rw [Function.iterate_zero_apply, hdeeper] at hret
      exact absurd hret returns_throw
  | succ n ih =>
    by_cases hoffset : offset < c.bytes.size
    · rw [Function.iterate_succ_apply']
      exact advances_visitValueWith k (fun v name o ho => ih (h.inside hoffset ho) v name) v name
    · intro s stop s' hret
      rw [iterate_of_size_le k (Nat.le_of_not_lt hoffset) h] at hret
      exact absurd hret returns_throw

/-- **Two depths that are enough give the same**, whatever stands for the values below them. -/
theorem iterate_congr (hn : c.Enough deeper n offset) (hm : c.Enough deeper' m offset) (v : Option V)
    (name : Option String) :
    (c.visitValueWith k)^[n] deeper v name offset = (c.visitValueWith k)^[m] deeper' v name offset := by
  induction n generalizing m offset v name with
  | zero =>
    have hsize : c.bytes.size ≤ offset := by
      unfold Enough at hn
      omega
    rw [iterate_of_size_le k hsize hn, iterate_of_size_le k hsize hm]
  | succ n ih =>
    by_cases hoffset : offset < c.bytes.size
    · obtain ⟨m, rfl⟩ : ∃ m', m = m' + 1 := Nat.exists_eq_add_one.2 (by unfold Enough at hm; omega)
      rw [Function.iterate_succ_apply', Function.iterate_succ_apply']
      refine visitValueWith_congr k (fun v name o ho => ?_) (fun v name o ho => ?_) v name
      · exact advances_iterate k (hn.inside hoffset ho) v name
      · exact ih (hn.inside hoffset ho) (hm.inside hoffset ho) v name
    · have hsize := Nat.le_of_not_lt hoffset
      rw [iterate_of_size_le k hsize hn, iterate_of_size_le k hsize hm]

theorem visitValueWithin_eq_iterate (left : Nat) :
    c.visitValueWithin k left =
      (c.visitValueWith k)^[left] fun _ _ o => throw (.unexpectedEof o 1) := by
  induction left with
  | zero => rfl
  | succ left ih =>
    rw [Function.iterate_succ_apply', ← ih]
    rfl

theorem enough_within {left : Nat} (h : c.bytes.size - offset ≤ left) :
    c.Enough (fun (_ : Option V) (_ : Option String) (o : Nat) =>
      (throw (.unexpectedEof o 1) : Visit σ Nat)) left offset := by
  rcases Nat.lt_or_eq_of_le h with h | h
  · exact .inl h
  · exact .inr ⟨h, fun _ _ _ => rfl⟩

/-- **Reading a value ends**: beyond a depth of the bytes that are left it has come to all values. -/
theorem iterate_eq_visitValue (h : c.bytes.size - offset < n) (v : Option V) (name : Option String) :
    (c.visitValueWith k)^[n] deeper v name offset = c.visitValue k v name offset := by
  rw [visitValue, visitValueWithin_eq_iterate]
  exact iterate_congr k (.inl h) (enough_within (Nat.le_refl _)) v name

theorem iterate_eq_visitAnnotationAt (h : c.bytes.size - offset < n) (v : Option V) :
    c.visitAnnotationWith k ((c.visitValueWith k)^[n] deeper) v offset =
      c.visitAnnotationAt k v offset := by
  rw [visitAnnotationAt, visitValueWithin_eq_iterate]
  refine visitAnnotationWith_congr k (fun v name o ho => ?_) (fun v name o ho => ?_) v
  · exact advances_iterate k (.inl (by omega)) v name
  · exact iterate_congr k (.inl (by omega)) (enough_within (by omega)) v name

/-! ## 5. With a visitor and without one -/

variable {k}

theorem gives_visitAnnotationWith (hk : k.NeverFails) {skip : Nat → Except Error Nat}
    (h : ∀ v name o, Gives (read v name o) (skip o)) (v : Option V) (offset : Nat) :
    Gives (c.visitAnnotationWith k read v offset) (c.skipAnnotationWith skip offset) := by
  refine (gives_lift _).bind fun count => Gives.before (f := fun _ => tell v k.finish) ?_ fun _ =>
    succeeds_tell hk.finish v
  exact gives_times (fun o => (gives_lift _).bind fun name => h v (some name) (o + 2)) _ _

/-- **A value is read to the same end as it is skipped**, to the same depth. -/
theorem gives_visitValueWithin (hk : k.NeverFails) (left : Nat) (v : Option V) (name : Option String)
    (offset : Nat) : Gives (c.visitValueWithin k left v name offset) (c.skipValueWithin left offset) := by
  induction left generalizing v name offset with
  | zero => exact fun _ => rfl
  | succ left ih =>
    refine (gives_lift _).bind fun byte => ?_
    generalize Char.ofNat byte.toNat = tag
    -- the tag decides on either side, so one side is put away while the other one is looked at
    refine (fun (h : ∀ skipped, skipped = _ → Gives _ skipped) => h _ rfl) ?_
    intro skipped hskipped
    split
    · subst hskipped
      refine (gives_lift _).bind fun descriptor => (gives_lift _).bind fun value => ?_
      exact (succeeds_tell (fun v => hk.enumConstant v name descriptor value) v).gives fun _ _ => rfl
    · subst hskipped
      refine (gives_lift _).bind fun descriptor => ?_
      refine (succeeds_ask (fun v => hk.beginNested v name descriptor) v).gives fun inner => ?_
      exact gives_visitAnnotationWith hk ih inner (offset + 3)
    · subst hskipped
      refine (gives_lift _).bind fun count => ?_
      refine (succeeds_ask (fun v => hk.beginArray v name) v).gives fun inner => ?_
      refine Gives.before (f := fun _ => tell inner k.finish) ?_ fun _ => succeeds_tell hk.finish inner
      exact gives_times (fun o => ih inner none o) _ _
    · rename_i henum hnested harray
      split at hskipped
      · exact absurd rfl henum
      · exact absurd rfl hnested
      · exact absurd rfl harray
      · subst hskipped
        refine (gives_lift _).bind fun literal => ?_
        cases literal with
        | none => exact fun _ => rfl
        | some value => exact (succeeds_tell (fun v => hk.value v name value) v).gives fun _ _ => rfl

/-! ## 6. Reading as events -/

open AnnotationVisitor (recorder)

theorem neverFails_recorder : recorder.NeverFails where
  value _ _ _ := fun _ => ⟨(), _, rfl⟩
  enumConstant _ _ _ _ := fun _ => ⟨(), _, rfl⟩
  beginNested _ _ _ := fun _ => ⟨some (), _, rfl⟩
  beginArray _ _ := fun _ => ⟨some (), _, rfl⟩
  finish _ := fun _ => ⟨(), _, rfl⟩

theorem readPairs_eq_times (read : Option String → Nat → Replay AnnotationEvent Nat) (n offset : Nat) :
    c.readPairs read n offset = times (fun o => do
      let name ← c.utf8At o
      read (some name) (o + 2)) n offset := by
  induction n generalizing offset with
  | zero => rfl
  | succ n ih => simp only [readPairs, times, ih, bind_assoc]

theorem readEntries_eq_times (read : Option String → Nat → Replay AnnotationEvent Nat)
    (n offset : Nat) : readEntries read n offset = times (read none) n offset := by
  induction n generalizing offset with
  | zero => rfl
  | succ n ih => simp only [readEntries, times, ih]

theorem visitAnnotationWith_recorder
    {read : Option Unit → Option String → Nat → Visit (Array AnnotationEvent) Nat} (offset : Nat) :
    c.visitAnnotationWith recorder read (some ()) offset =
      c.readAnnotationWith (read (some ())) offset := by
  simp only [visitAnnotationWith, readAnnotationWith, readPairs_eq_times]
  rfl

/-- **Reading as events** is reading with the visitor that writes everything down. -/
theorem visitValueWithin_recorder (left : Nat) (name : Option String) (offset : Nat) :
    c.visitValueWithin recorder left (some ()) name offset = c.readValueWithin left name offset := by
  induction left generalizing name offset with
  | zero => rfl
  | succ left ih =>
    have hread : c.visitValueWithin recorder left (some ()) = c.readValueWithin left :=
      funext fun name => funext fun offset => ih name offset
    refine bind_congr fun byte => ?_
    generalize Char.ofNat byte.toNat = tag
    refine (fun (h : ∀ read, read = _ → _ = read) => h _ rfl) ?_
    intro read hvalue
    split
    · exact hvalue.symm
    · subst hvalue
      refine bind_congr fun descriptor => ?_
      have hask : ask (some ()) (fun v => recorder.beginNested v name descriptor) =
          (do Replay.emit (.beginNested name descriptor); return some ()) := rfl
      rw [hask, bind_assoc]
      refine bind_congr fun _ => ?_
      rw [pure_bind, visitAnnotationWith_recorder, hread]
    · subst hvalue
      refine bind_congr fun count => ?_
      have hask : ask (some ()) (fun v => recorder.beginArray v name) =
          (do Replay.emit (.beginArray name); return some ()) := rfl
      rw [hask, bind_assoc]
      refine bind_congr fun _ => ?_
      rw [pure_bind, readEntries_eq_times, ← hread]
      rfl
    · rename_i henum hnested harray
      split at hvalue
      · exact absurd rfl henum
      · exact absurd rfl hnested
      · exact absurd rfl harray
      · exact hvalue.symm

theorem readValue_eq_visitValue (name : Option String) (offset : Nat) :
    c.readValue name offset = c.visitValue recorder (some ()) name offset :=
  (visitValueWithin_recorder _ name offset).symm

theorem readAnnotationAt_eq_visitAnnotationAt (offset : Nat) :
    c.readAnnotationAt offset = c.visitAnnotationAt recorder (some ()) offset := by
  have hread : c.visitValueWithin recorder (c.bytes.size - offset) (some ()) =
      c.readValueWithin (c.bytes.size - offset) :=
    funext fun name => funext fun offset => visitValueWithin_recorder _ name offset
  rw [readAnnotationAt, visitAnnotationAt, visitAnnotationWith_recorder, hread]

/-! ## 7. Skipping -/

theorem not_outOfDepth_iterateM {α : Type} {step : α → Except Error α}
    (h : ∀ a, ¬ OutOfDepth (step a)) (n : Nat) (a : α) : ¬ OutOfDepth (iterateM step n a) := by
  induction n generalizing a with
  | zero => exact not_outOfDepth_ok
  | succ n ih =>
    rw [iterateM_succ, outOfDepth_bind_iff]
    rintro (hstep | ⟨a', -, hrest⟩)
    · exact h a hstep
    · exact ih a' hrest

theorem not_outOfDepth_readLiteral? (hends : ∀ i, c.Ends i) (tag : Char) (offset : Nat) :
    ¬ OutOfDepth (c.readLiteral? tag offset) := by
  have hconstant : ∀ {f : Loadable → Except Error (Option ElementValue)},
      (∀ value, ¬ OutOfDepth (f value)) →
        ¬ OutOfDepth ((do c.readLoadable (← c.bytes.u16At offset)) >>= f) := by
    intro f hf
    simp only [outOfDepth_bind_iff, not_outOfDepth_u16At, hf, and_false, exists_false, or_false,
      false_or, not_exists, not_and]
    exact fun i _ => not_outOfDepth_readLoadable (ends_iff.1 (hends i))
  unfold readLiteral?
  dsimp only
  split
  case h_9 | h_10 | h_11 => simp
  all_goals exact hconstant fun value => by split <;> simp

theorem not_outOfDepth_skipAnnotationWith {skip : Nat → Except Error Nat}
    (h : ∀ o, ¬ OutOfDepth (skip o)) (offset : Nat) :
    ¬ OutOfDepth (c.skipAnnotationWith skip offset) := by
  simp only [skipAnnotationWith, outOfDepth_bind_iff, not_outOfDepth_u16At, false_or, not_exists, not_and]
  exact fun count _ => not_outOfDepth_iterateM (fun o => by simp [h]) _ _

theorem not_outOfDepth_skipValueWithin (hends : ∀ i, c.Ends i) (left offset : Nat) :
    ¬ OutOfDepth (c.skipValueWithin left offset) := by
  induction left generalizing offset with
  | zero => simp [skipValueWithin]
  | succ left ih =>
    simp only [skipValueWithin, outOfDepth_bind_iff, not_outOfDepth_u8At, false_or, not_exists, not_and]
    intro byte _
    split
    · simp
    · simp [not_outOfDepth_skipAnnotationWith ih]
    · simp [not_outOfDepth_iterateM ih]
    · simp only [outOfDepth_bind_iff, not_outOfDepth_readLiteral? hends, false_or, not_exists, not_and]
      intro literal _
      cases literal <;> simp

theorem not_outOfDepth_skipValue (hends : ∀ i, c.Ends i) (offset : Nat) :
    ¬ OutOfDepth (c.skipValue offset) := not_outOfDepth_skipValueWithin hends _ offset

theorem not_outOfDepth_skipAnnotationAt (hends : ∀ i, c.Ends i) (offset : Nat) :
    ¬ OutOfDepth (c.skipAnnotationAt offset) :=
  not_outOfDepth_skipAnnotationWith (not_outOfDepth_skipValueWithin hends _) offset

theorem gives_visitValue (hk : k.NeverFails) (v : Option V) (name : Option String) (offset : Nat) :
    Gives (c.visitValue k v name offset) (c.skipValue offset) :=
  gives_visitValueWithin hk _ v name offset

theorem gives_visitAnnotationAt (hk : k.NeverFails) (v : Option V) (offset : Nat) :
    Gives (c.visitAnnotationAt k v offset) (c.skipAnnotationAt offset) :=
  gives_visitAnnotationWith hk (fun v name o => gives_visitValueWithin hk _ v name o) v offset

theorem advances_visitValue (k : AnnotationVisitor V σ) (v : Option V) (name : Option String)
    (offset : Nat) : c.Advances (c.visitValue k v name offset) offset := by
  rw [visitValue, visitValueWithin_eq_iterate]
  exact advances_iterate k (enough_within (Nat.le_refl _)) v name

theorem advances_visitAnnotationAt (k : AnnotationVisitor V σ) (v : Option V) (offset : Nat) :
    c.Advances (c.visitAnnotationAt k v offset) offset := by
  rw [visitAnnotationAt, visitValueWithin_eq_iterate]
  refine advances_visitAnnotationWith k (fun v name o ho => ?_) v
  exact advances_iterate k (enough_within (by omega)) v name

/-- What is skipped takes bytes, and is in the input: it is what a visitor would be told of. -/
theorem lt_of_skipped {offset stop : Nat}
    (h : c.skipValue offset = .ok stop ∨ c.skipAnnotationAt offset = .ok stop) :
    offset < stop ∧ stop ≤ c.bytes.size := by
  rcases h with h | h
  · have hgives := gives_visitValue (c := c) neverFails_recorder none none offset
    rw [h] at hgives
    obtain ⟨s', hret⟩ := hgives.returns #[]
    exact advances_visitValue recorder none none offset _ _ _ hret
  · have hgives := gives_visitAnnotationAt (c := c) neverFails_recorder none offset
    rw [h] at hgives
    obtain ⟨s', hret⟩ := hgives.returns #[]
    exact advances_visitAnnotationAt recorder none offset _ _ _ hret

/-- **Skipping an annotation walks over the same bytes as reading it**, in a class file in which each
constant can be read to an end.  With a visitor that never fails, whichever visitors it hands out, and
without one, the answer is that of skipping: the same end or the same error.  Reading comes to an end at a
depth of the bytes that are left, and an end that it answers is behind the start and in the input. -/
theorem visits_what_it_skips {b : Bytes} (hb : ofBytes b = .ok c) (hends : ∀ i, c.Ends i)
    (hk : k.NeverFails) (offset : Nat) :
    ((∀ v name, Gives (c.visitValue k v name offset) (c.skipValue offset)) ∧
      ∀ v, Gives (c.visitAnnotationAt k v offset) (c.skipAnnotationAt offset)) ∧
    (∀ n deeper, b.size - offset < n →
      (∀ v name, (c.visitValueWith k)^[n] deeper v name offset = c.visitValue k v name offset) ∧
        ∀ v, c.visitAnnotationWith k ((c.visitValueWith k)^[n] deeper) v offset =
          c.visitAnnotationAt k v offset) ∧
    (¬ OutOfDepth (c.skipValue offset) ∧ ¬ OutOfDepth (c.skipAnnotationAt offset)) ∧
    ∀ stop, c.skipValue offset = .ok stop ∨ c.skipAnnotationAt offset = .ok stop →
      offset < stop ∧ stop ≤ b.size := by
  obtain ⟨rfl, -⟩ := located_of_ofBytes hb
  refine ⟨⟨?_, ?_⟩, ?_, ⟨?_, ?_⟩, ?_⟩
  · intro v name
    exact gives_visitValue hk v name offset
  · intro v
    exact gives_visitAnnotationAt hk v offset
  · intro n deeper hn
    exact ⟨fun v name => iterate_eq_visitValue k hn v name, fun v => iterate_eq_visitAnnotationAt k hn v⟩
  · exact not_outOfDepth_skipValue hends offset
  · exact not_outOfDepth_skipAnnotationAt hends offset
  · exact fun stop h => lt_of_skipped h

/-- A class file without attributes, behind which there are the values of an annotation: an array of a
number and of a nested annotation. -/
def annotatedBytes : Bytes :=
  #[0xca, 0xfe, 0xba, 0xbe, 0, 0, 0, 55, 0, 4, 1, 0, 1, 0x54, 7, 0, 1, 3, 0, 0, 0, 7, 0, 0x21, 0, 2,
    0, 0, 0, 0, 0, 0, 0, 0, 0, 0, 0, 1, 0, 1, 0x5b, 0, 2, 0x49, 0, 3, 0x40, 0, 1, 0, 0]

/-- The same class file with where things are in it. -/
def annotatedSource : ClassBytes := ⟨annotatedBytes, #[0, 10, 14, 17], 22, 34, #[], none⟩

theorem ofBytes_annotated : ofBytes annotatedBytes = .ok annotatedSource := by
  have hmagic : annotatedBytes.u32At 0 = .ok magicNumber := by decide +kernel
  have hcount : annotatedBytes.u16At 8 = .ok 4 := by decide +kernel
  have hrecords : indexRecords annotatedBytes 4 1 10 (Array.replicate 4 0) =
      .ok (annotatedSource.itemOffsets, 22) := by decide +kernel
  have hfind : findAttributes annotatedBytes 22 = .ok 34 := by decide +kernel
  have hattributes : annotatedBytes.u16At 34 = .ok 0 := by decide +kernel
  exact ofBytes_eq_ok hmagic hcount hrecords hfind hattributes rfl

theorem ends_annotated (i : ConstantIndex) : annotatedSource.Ends i := by
  have hneeds : ∀ i j, ¬ annotatedSource.Needs i j := by
    rintro i j ⟨_, _, _, k, -, -, -, -, -, o, _, _, _, _, ho, -⟩
    simp [annotatedSource] at ho
  refine (all_end fun i hi => ?_).1 i
  obtain ⟨j, hij, -⟩ := TransGen.head'_iff.1 hi
  exact hneeds i j hij

/-- The annotation and the array in it end where the input does. -/
theorem visits_what_it_skips_annotated :
    annotatedSource.skipValue 40 = .ok 51 ∧ annotatedSource.skipAnnotationAt 36 = .ok 51 ∧
      Gives (annotatedSource.visitValue recorder (some ()) none 40) (annotatedSource.skipValue 40) ∧
      Gives (annotatedSource.visitAnnotationAt recorder (some ()) 36)
        (annotatedSource.skipAnnotationAt 36) := by
  have hvalue : annotatedSource.skipValue 40 = .ok 51 := by decide +kernel
  have hannotation : annotatedSource.skipAnnotationAt 36 = .ok 51 := by decide +kernel
  obtain ⟨⟨hvalues, -⟩, -⟩ := visits_what_it_skips ofBytes_annotated ends_annotated neverFails_recorder 40
  obtain ⟨⟨-, hannotations⟩, -⟩ :=
    visits_what_it_skips ofBytes_annotated ends_annotated neverFails_recorder 36
  exact ⟨hvalue, hannotation, hvalues _ _, hannotations _⟩

end ClassBytes

end ClassFile
