/-
# Computations that may fail and keep a state

An operation on a constant pool or on a table of types gives an answer or an error, and the state
afterwards in both cases.  An operation on a frame or on a block graph has two states.  `Holds`
and `Holds₂` say what is true afterwards of what was true before: `Q` of an answer, `E` behind an
error.  `Returns` and `Returns₂` say which answer an operation gives, `Fails` which error.

All are closed under sequencing (`Holds.bind`, `Holds₂.bind`, `returns_bind`, `returns₂_bind`), which is
how facts about a whole operation follow from facts about its parts.  So is `Leads`: whatever the answer, the
state afterwards is related to the one before, as a table is to a later one that it has grown into.
And so is `Raises`: each error is of some kind.
-/
import ClassFile.Error
import Mathlib.Data.List.Forall2
import Mathlib.Order.Defs.Unbundled

namespace ClassFile

/-! ## 1. One state -/

section One

variable {σ α β : Type}

/-- After an operation that starts where `P` is true, `Q` is true of its answer, or `E` behind its
error. -/
def Holds (P : σ → Prop) (m : ExceptT Error (StateM σ) α) (Q : α → σ → Prop) (E : σ → Prop) :
    Prop :=
  ∀ s, P s → match (m s : Except Error α × σ) with
    | (.ok a, s') => Q a s'
    | (.error _, s') => E s'

/-- The operation gives this answer, and this is the state afterwards. -/
def Returns (m : ExceptT Error (StateM σ) α) (s : σ) (a : α) (s' : σ) : Prop :=
  m s = (.ok a, s')

theorem bind_apply (m : ExceptT Error (StateM σ) α) (f : α → ExceptT Error (StateM σ) β) (s : σ) :
    (m >>= f) s = match (m s : Except Error α × σ) with
      | (.ok a, s') => f a s'
      | (.error e, s') => (.error e, s') := by
  simp only [bind, ExceptT.bind, ExceptT.mk, StateT.bind]
  rcases h : (m s : Except Error α × σ) with ⟨_ | _, _⟩ <;> rfl

theorem Holds.bind {P : σ → Prop} {m : ExceptT Error (StateM σ) α}
    {f : α → ExceptT Error (StateM σ) β} {R : α → σ → Prop} {Q : β → σ → Prop} {E : σ → Prop}
    (hm : Holds P m R E) (hf : ∀ a, Holds (R a) (f a) Q E) : Holds P (m >>= f) Q E := by
  intro s hs
  have hms := hm s hs
  rw [bind_apply]
  rcases h : (m s : Except Error α × σ) with ⟨_ | a, s'⟩ <;> simp only [h] at hms ⊢
  · exact hms
  · exact hf a s' hms

/-- An answer of an operation of which something holds. -/
theorem Holds.of_returns {P : σ → Prop} {m : ExceptT Error (StateM σ) α} {Q : α → σ → Prop}
    {E : σ → Prop} (hm : Holds P m Q E) {s s' : σ} {a : α} (hs : P s) (h : Returns m s a s') :
    Q a s' := by
  have := hm s hs
  rwa [show (m s : Except Error α × σ) = (.ok a, s') from h] at this

theorem returns_pure {s s' : σ} {a b : α} :
    Returns (pure a) s b s' ↔ a = b ∧ s = s' := by
  show ((.ok a, s) : Except Error α × σ) = (.ok b, s') ↔ _
  simp

theorem returns_bind {m : ExceptT Error (StateM σ) α} {f : α → ExceptT Error (StateM σ) β}
    {s s' : σ} {b : β} :
    Returns (m >>= f) s b s' ↔ ∃ a s₁, Returns m s a s₁ ∧ Returns (f a) s₁ b s' := by
  unfold Returns
  rw [bind_apply]
  rcases h : (m s : Except Error α × σ) with ⟨e | a, s₁⟩
  · exact ⟨fun hb => (by cases hb), fun ⟨_, _, ha, _⟩ => (by cases ha)⟩
  · exact ⟨fun hb => ⟨a, s₁, rfl, hb⟩, fun ⟨_, _, ha, hb⟩ => (by cases ha; exact hb)⟩

theorem returns_map {m : ExceptT Error (StateM σ) α} {f : α → β} {s s' : σ} {b : β} :
    Returns (f <$> m) s b s' ↔ ∃ a, Returns m s a s' ∧ f a = b := by
  rw [map_eq_pure_bind, returns_bind]
  constructor
  · rintro ⟨a, s₁, hm, hb⟩
    obtain ⟨rfl, rfl⟩ := returns_pure.1 hb
    exact ⟨a, hm, rfl⟩
  · rintro ⟨a, hm, rfl⟩
    exact ⟨a, s', hm, returns_pure.2 ⟨rfl, rfl⟩⟩

/-- What each step keeps, all steps keep. -/
theorem returns_foldlM_keeps {P : β → Prop} {f : β → α → ExceptT Error (StateM σ) β}
    (hf : ∀ b a s b' s', P b → Returns (f b a) s b' s' → P b') {l : List α} {b b' : β} {s s' : σ}
    (hb : P b) (h : Returns (l.foldlM f b) s b' s') : P b' := by
  induction l generalizing b s with
  | nil =>
    obtain ⟨rfl, -⟩ := returns_pure.1 h
    exact hb
  | cons a l ih =>
    rw [List.foldlM_cons] at h
    obtain ⟨b₁, s₁, hone, hrest⟩ := returns_bind.1 h
    exact ih (hf b a s b₁ s₁ hb hone) hrest

theorem length_of_returns_mapM {f : α → ExceptT Error (StateM σ) β} {as : List α} {s s' : σ}
    {bs : List β} (h : Returns (as.mapM f) s bs s') : bs.length = as.length := by
  induction as generalizing s s' bs with
  | nil =>
    obtain ⟨rfl, -⟩ := returns_pure.1 h
    rfl
  | cons a as ih =>
    rw [List.mapM_cons] at h
    obtain ⟨b, s₁, -, h⟩ := returns_bind.1 h
    obtain ⟨bs', s₂, hbs', h⟩ := returns_bind.1 h
    obtain ⟨rfl, -⟩ := returns_pure.1 h
    exact congrArg Nat.succ (ih hbs')

theorem returns_throw {e : Error} {s s' : σ} {a : α} :
    ¬ Returns (throw e : ExceptT Error (StateM σ) α) s a s' := by
  intro h
  cases h

theorem returns_lift {e : Except Error α} {s s' : σ} {a : α} :
    Returns (liftM e : ExceptT Error (StateM σ) α) s a s' ↔ e = .ok a ∧ s = s' := by
  show ((e, s) : Except Error α × σ) = (.ok a, s') ↔ _
  simp

theorem returns_get {s s' : σ} {a : σ} :
    Returns (get : ExceptT Error (StateM σ) σ) s a s' ↔ s = a ∧ s = s' := by
  show ((.ok s, s) : Except Error σ × σ) = (.ok a, s') ↔ _
  simp

theorem returns_modifyGet {f : σ → α × σ} {s s' : σ} {a : α} :
    Returns (modifyGet f : ExceptT Error (StateM σ) α) s a s' ↔ f s = (a, s') := by
  show ((.ok (f s).1, (f s).2) : Except Error α × σ) = (.ok a, s') ↔ _
  rw [Prod.mk.injEq, Except.ok.injEq, Prod.ext_iff]

theorem returns_modify {f : σ → σ} {s s' : σ} {u : PUnit} :
    Returns (modify f : ExceptT Error (StateM σ) PUnit) s u s' ↔ f s = s' := by
  show ((.ok PUnit.unit, f s) : Except Error PUnit × σ) = (.ok u, s') ↔ _
  simp

/-- Each answer comes with a state that the one before is related to. -/
def Leads (R : σ → σ → Prop) (m : ExceptT Error (StateM σ) α) : Prop :=
  ∀ s a s', Returns m s a s' → R s s'

variable {R : σ → σ → Prop}

theorem Leads.pure [Std.Refl R] (a : α) : Leads R (pure a) := by
  intro s b s' h
  obtain ⟨-, rfl⟩ := returns_pure.1 h
  exact Std.Refl.refl s

theorem Leads.throw (e : Error) : Leads R (throw e : ExceptT Error (StateM σ) α) :=
  fun _ _ _ h => absurd h returns_throw

theorem Leads.lift [Std.Refl R] (e : Except Error α) :
    Leads R (liftM e : ExceptT Error (StateM σ) α) := by
  intro s b s' h
  obtain ⟨-, rfl⟩ := returns_lift.1 h
  exact Std.Refl.refl s

theorem Leads.get [Std.Refl R] : Leads R (get : ExceptT Error (StateM σ) σ) := by
  intro s b s' h
  obtain ⟨-, rfl⟩ := returns_get.1 h
  exact Std.Refl.refl s

theorem Leads.bind [IsTrans σ R] {m : ExceptT Error (StateM σ) α}
    {f : α → ExceptT Error (StateM σ) β} (hm : Leads R m) (hf : ∀ a, Leads R (f a)) :
    Leads R (m >>= f) := by
  intro s b s' h
  obtain ⟨a, s₁, hm', hf'⟩ := returns_bind.1 h
  exact IsTrans.trans _ _ _ (hm s a s₁ hm') (hf a s₁ b s' hf')

/-- An operation on each entry of a list. -/
theorem Leads.mapM [IsPreorder σ R] {f : α → ExceptT Error (StateM σ) β}
    (hf : ∀ a, Leads R (f a)) (l : List α) : Leads R (l.mapM f) := by
  induction l with
  | nil => exact .pure []
  | cons a l ih =>
    rw [List.mapM_cons]
    exact (hf a).bind fun b => ih.bind fun bs => .pure (b :: bs)

/-- An operation that goes through a list. -/
theorem Leads.foldlM [IsPreorder σ R] {f : β → α → ExceptT Error (StateM σ) β}
    (hf : ∀ b a, Leads R (f b a)) (l : List α) (b : β) : Leads R (l.foldlM f b) := by
  induction l generalizing b with
  | nil => exact .pure b
  | cons a l ih =>
    rw [List.foldlM_cons]
    exact (hf b a).bind fun b' => ih b'

end One

/-! ## 2. Two states -/

section Two

variable {φ τ α β : Type}

/-- After an operation that starts where `P` is true, `Q` is true of its answer, or `E` behind its
error. -/
def Holds₂ (P : φ → τ → Prop) (m : ExceptT Error (StateT φ (StateM τ)) α) (Q : α → φ → τ → Prop)
    (E : φ → τ → Prop) : Prop :=
  ∀ f t, P f t → match (m f t : (Except Error α × φ) × τ) with
    | ((.ok a, f'), t') => Q a f' t'
    | ((.error _, f'), t') => E f' t'

theorem bind_apply₂ (m : ExceptT Error (StateT φ (StateM τ)) α)
    (g : α → ExceptT Error (StateT φ (StateM τ)) β) (f : φ) (t : τ) :
    (m >>= g) f t = match (m f t : (Except Error α × φ) × τ) with
      | ((.ok a, f'), t') => g a f' t'
      | ((.error e, f'), t') => ((.error e, f'), t') := by
  simp only [bind, ExceptT.bind, ExceptT.mk, StateT.bind]
  rcases h : (m f t : (Except Error α × φ) × τ) with ⟨⟨_ | _, _⟩, _⟩ <;> rfl

theorem Holds₂.mono {P P' : φ → τ → Prop} {m : ExceptT Error (StateT φ (StateM τ)) α}
    {Q Q' : α → φ → τ → Prop} {E E' : φ → τ → Prop} (hm : Holds₂ P m Q E)
    (hP : ∀ f t, P' f t → P f t) (hQ : ∀ a f t, Q a f t → Q' a f t)
    (hE : ∀ f t, E f t → E' f t) : Holds₂ P' m Q' E' := by
  intro f t hs
  have := hm f t (hP f t hs)
  rcases h : (m f t : (Except Error α × φ) × τ) with ⟨⟨_ | _, _⟩, _⟩ <;> simp only [h] at this ⊢
  · exact hE _ _ this
  · exact hQ _ _ _ this

theorem Holds₂.bind {P : φ → τ → Prop} {m : ExceptT Error (StateT φ (StateM τ)) α}
    {g : α → ExceptT Error (StateT φ (StateM τ)) β} {R : α → φ → τ → Prop}
    {Q : β → φ → τ → Prop} {E : φ → τ → Prop} (hm : Holds₂ P m R E)
    (hg : ∀ a, Holds₂ (R a) (g a) Q E) : Holds₂ P (m >>= g) Q E := by
  intro f t hs
  have hms := hm f t hs
  rw [bind_apply₂]
  rcases h : (m f t : (Except Error α × φ) × τ) with ⟨⟨_ | a, f'⟩, t'⟩ <;> simp only [h] at hms ⊢
  · exact hms
  · exact hg a f' t' hms

/-- The operation gives this answer, and these are the states afterwards. -/
def Returns₂ (m : ExceptT Error (StateT φ (StateM τ)) α) (f : φ) (t : τ) (a : α) (f' : φ) (t' : τ) :
    Prop :=
  m f t = ((.ok a, f'), t')

theorem returns₂_of_ok {m : ExceptT Error (StateT φ (StateM τ)) α} {f : φ} {t : τ} {a : α}
    (h : (m f t : (Except Error α × φ) × τ).1.1 = .ok a) :
    Returns₂ m f t a (m f t : (Except Error α × φ) × τ).1.2 (m f t : (Except Error α × φ) × τ).2 :=
  Prod.ext (Prod.ext h rfl) rfl

theorem returns₂_bind {m : ExceptT Error (StateT φ (StateM τ)) α}
    {g : α → ExceptT Error (StateT φ (StateM τ)) β} {f f' : φ} {t t' : τ} {b : β} :
    Returns₂ (m >>= g) f t b f' t' ↔
      ∃ a f₁ t₁, Returns₂ m f t a f₁ t₁ ∧ Returns₂ (g a) f₁ t₁ b f' t' := by
  unfold Returns₂
  rw [bind_apply₂]
  rcases h : (m f t : (Except Error α × φ) × τ) with ⟨⟨e | a, f₁⟩, t₁⟩
  · exact ⟨fun hb => (by cases hb), fun ⟨_, _, _, ha, _⟩ => (by cases ha)⟩
  · exact ⟨fun hb => ⟨a, f₁, t₁, rfl, hb⟩, fun ⟨_, _, _, ha, hb⟩ => (by cases ha; exact hb)⟩

theorem returns₂_pure {f f' : φ} {t t' : τ} {a b : α} :
    Returns₂ (pure a : ExceptT Error (StateT φ (StateM τ)) α) f t b f' t' ↔
      a = b ∧ f = f' ∧ t = t' := by
  show (((.ok a, f), t) : (Except Error α × φ) × τ) = ((.ok b, f'), t') ↔ _
  simp [and_assoc]

theorem returns₂_throw {e : Error} {f f' : φ} {t t' : τ} {a : α} :
    ¬ Returns₂ (throw e : ExceptT Error (StateT φ (StateM τ)) α) f t a f' t' := by
  intro h
  cases h

theorem returns₂_lift {x : Except Error α} {f f' : φ} {t t' : τ} {a : α} :
    Returns₂ (liftM x : ExceptT Error (StateT φ (StateM τ)) α) f t a f' t' ↔
      x = .ok a ∧ f = f' ∧ t = t' := by
  show (((x, f), t) : (Except Error α × φ) × τ) = ((.ok a, f'), t') ↔ _
  simp [and_assoc]

theorem returns₂_modify {g : φ → φ} {f f' : φ} {t t' : τ} {u : PUnit} :
    Returns₂ (modify g : ExceptT Error (StateT φ (StateM τ)) PUnit) f t u f' t' ↔
      g f = f' ∧ t = t' := by
  show (((.ok PUnit.unit, g f), t) : (Except Error PUnit × φ) × τ) = ((.ok u, f'), t') ↔ _
  simp

/-- Each answer comes with a first state that the one before is related to. -/
def Leads₂ (R : φ → φ → Prop) (m : ExceptT Error (StateT φ (StateM τ)) α) : Prop :=
  ∀ f t a f' t', Returns₂ m f t a f' t' → R f f'

variable {R : φ → φ → Prop}

theorem Leads₂.pure [Std.Refl R] (a : α) :
    Leads₂ R (Pure.pure a : ExceptT Error (StateT φ (StateM τ)) α) := by
  intro f t b f' t' h
  obtain ⟨-, rfl, -⟩ := returns₂_pure.1 h
  exact Std.Refl.refl f

theorem Leads₂.throw (e : Error) :
    Leads₂ R (MonadExcept.throw e : ExceptT Error (StateT φ (StateM τ)) α) :=
  fun _ _ _ _ _ h => absurd h returns₂_throw

theorem Leads₂.lift [Std.Refl R] (x : Except Error α) :
    Leads₂ R (liftM x : ExceptT Error (StateT φ (StateM τ)) α) := by
  intro f t b f' t' h
  obtain ⟨-, rfl, -⟩ := returns₂_lift.1 h
  exact Std.Refl.refl f

theorem Leads₂.modify {g : φ → φ} (hg : ∀ f, R f (g f)) :
    Leads₂ R (modify g : ExceptT Error (StateT φ (StateM τ)) PUnit) := by
  intro f t u f' t' h
  obtain ⟨rfl, -⟩ := returns₂_modify.1 h
  exact hg f

theorem Leads₂.bind [IsTrans φ R] {m : ExceptT Error (StateT φ (StateM τ)) α}
    {g : α → ExceptT Error (StateT φ (StateM τ)) β} (hm : Leads₂ R m)
    (hg : ∀ a, Leads₂ R (g a)) : Leads₂ R (m >>= g) := by
  intro f t b f' t' h
  obtain ⟨a, f₁, t₁, ha, hb⟩ := returns₂_bind.1 h
  exact IsTrans.trans _ _ _ (hm _ _ _ _ _ ha) (hg a _ _ _ _ _ hb)

theorem Leads₂.mono {R' : φ → φ → Prop} {m : ExceptT Error (StateT φ (StateM τ)) α}
    (hm : Leads₂ R m) (hR : ∀ f f', R f f' → R' f f') : Leads₂ R' m :=
  fun f t a f' t' h => hR f f' (hm f t a f' t' h)

end Two

/-! ## 3. No state -/

/-- One computation after another one gives an answer if both do. -/
theorem bind_eq_ok_iff {ε α β : Type} {x : Except ε α} {f : α → Except ε β} {b : β} :
    (x >>= f) = .ok b ↔ ∃ a, x = .ok a ∧ f a = .ok b := by
  cases x with
  | error e => exact ⟨fun h => (nomatch h), fun ⟨_, h, _⟩ => (nomatch h)⟩
  | ok a => exact ⟨fun h => ⟨a, rfl, h⟩, fun ⟨_, h, hb⟩ => Except.ok.inj h ▸ hb⟩

/-- One computation after another one fails if either does. -/
theorem bind_eq_error_iff {ε α β : Type} {x : Except ε α} {f : α → Except ε β} {e : ε} :
    (x >>= f) = .error e ↔ x = .error e ∨ ∃ a, x = .ok a ∧ f a = .error e := by
  cases x with
  | error e' =>
    refine ⟨fun h => .inl ?_, fun h => h.elim (fun h => ?_) fun ⟨_, h, _⟩ => nomatch h⟩
    · cases h
      rfl
    · cases h
      rfl
  | ok a =>
    refine ⟨fun h => .inr ⟨a, rfl, h⟩, fun h => h.elim (fun h => nomatch h) ?_⟩
    rintro ⟨a', ha, h⟩
    cases ha
    exact h

/-- What goes through a list fails at one of its entries. -/
theorem of_foldlM_eq_error {ε α β : Type} {f : β → α → Except ε β} {l : List α} {b : β} {e : ε}
    (h : l.foldlM f b = .error e) : ∃ a ∈ l, ∃ b', f b' a = .error e := by
  induction l generalizing b with
  | nil => exact nomatch h
  | cons a l ih =>
    rw [List.foldlM_cons] at h
    rcases bind_eq_error_iff.1 h with h | ⟨b', -, h⟩
    · exact ⟨a, List.mem_cons_self, b, h⟩
    · obtain ⟨a', ha', hfails⟩ := ih h
      exact ⟨a', List.mem_cons_of_mem _ ha', hfails⟩

/-- What is done for each entry of a list fails for one of them. -/
theorem of_mapM_eq_error {ε α β : Type} {f : α → Except ε β} {l : List α} {e : ε}
    (h : l.mapM f = .error e) : ∃ a ∈ l, f a = .error e := by
  induction l with
  | nil => exact nomatch h
  | cons a l ih =>
    rw [List.mapM_cons] at h
    rcases bind_eq_error_iff.1 h with h | ⟨b, -, h⟩
    · exact ⟨a, List.mem_cons_self, h⟩
    · rcases bind_eq_error_iff.1 h with h | ⟨bs, -, h⟩
      · obtain ⟨a', ha', hfails⟩ := ih h
        exact ⟨a', List.mem_cons_of_mem _ ha', hfails⟩
      · exact nomatch h

/-- What is done for each entry of a list gives an answer for each. -/
theorem of_mapM_eq_ok {ε α β : Type} {f : α → Except ε β} {l : List α} {bs : List β}
    (h : l.mapM f = .ok bs) : ∀ a ∈ l, ∃ b, f a = .ok b := by
  induction l generalizing bs with
  | nil => exact fun _ ha => absurd ha List.not_mem_nil
  | cons a l ih =>
    rw [List.mapM_cons] at h
    obtain ⟨b, hb, h⟩ := bind_eq_ok_iff.1 h
    obtain ⟨bs', hbs', -⟩ := bind_eq_ok_iff.1 h
    exact List.forall_mem_cons.2 ⟨⟨b, hb⟩, ih hbs'⟩

/-- What is done for each entry of a list has the answers that each of them has. -/
theorem mapM_eq_ok_map {ε α β : Type} {f : α → Except ε β} {g : α → β} {l : List α}
    (h : ∀ a ∈ l, f a = .ok (g a)) : l.mapM f = .ok (l.map g) := by
  induction l with
  | nil => rfl
  | cons a l ih =>
    obtain ⟨ha, hl⟩ := List.forall_mem_cons.1 h
    rw [List.mapM_cons, ha, ih hl]
    rfl

theorem length_of_mapM_eq_ok {ε α β : Type} {f : α → Except ε β} {l : List α} {bs : List β}
    (h : l.mapM f = .ok bs) : bs.length = l.length := by
  induction l generalizing bs with
  | nil =>
    cases h
    rfl
  | cons a l ih =>
    rw [List.mapM_cons] at h
    obtain ⟨b, -, h⟩ := bind_eq_ok_iff.1 h
    obtain ⟨bs', hbs', h⟩ := bind_eq_ok_iff.1 h
    cases h
    exact congrArg Nat.succ (ih hbs')

/-- What is related to two lists, one behind the other, comes in two parts. -/
theorem of_forall₂_append {α β : Type} {R : α → β → Prop} {as as' : List α} {bs : List β}
    (h : List.Forall₂ R (as ++ as') bs) :
    ∃ cs cs', bs = cs ++ cs' ∧ List.Forall₂ R as cs ∧ List.Forall₂ R as' cs' :=
  ⟨_, _, (List.take_append_drop as.length bs).symm, (List.forall₂_take_append bs as as' h.flip).flip,
    (List.forall₂_drop_append bs as as' h.flip).flip⟩

/-- What is related to a list comes from one of its elements. -/
theorem exists_of_forall₂ {α β : Type} {R : α → β → Prop} {as : List α} {bs : List β}
    (h : List.Forall₂ R as bs) {b : β} (hb : b ∈ bs) : ∃ a ∈ as, R a b := by
  obtain ⟨i, hi, rfl⟩ := List.getElem_of_mem hb
  exact ⟨_, List.get_mem as ⟨i, h.length_eq ▸ hi⟩, h.get (h.length_eq ▸ hi) hi⟩

theorem map_eq_ok_iff {ε α β : Type} {m : Except ε α} {f : α → β} {b : β} :
    m.map f = .ok b ↔ ∃ a, m = .ok a ∧ f a = b := by
  cases m <;> simp [Except.map]

/-! ## 4. A state of its own above a shared one -/

section Above

variable {φ σ α β : Type} {f f' : φ} {s s' : σ} {a : α}

theorem returns_bind_above {m : StateT φ (ExceptT Error (StateM σ)) α}
    {k : α → StateT φ (ExceptT Error (StateM σ)) β} {b : β} :
    Returns ((m >>= k) f) s (b, f') s' ↔
      ∃ a f₁ s₁, Returns (m f) s (a, f₁) s₁ ∧ Returns (k a f₁) s₁ (b, f') s' := by
  show Returns (m f >>= fun (a, f₁) => k a f₁) s (b, f') s' ↔ _
  rw [returns_bind]
  constructor
  · rintro ⟨⟨a, f₁⟩, s₁, hm, hk⟩
    exact ⟨a, f₁, s₁, hm, hk⟩
  · rintro ⟨a, f₁, s₁, hm, hk⟩
    exact ⟨(a, f₁), s₁, hm, hk⟩

theorem returns_pure_above {b : α} :
    Returns ((pure a : StateT φ (ExceptT Error (StateM σ)) α) f) s (b, f') s' ↔
      a = b ∧ f = f' ∧ s = s' := by
  show Returns (pure (a, f)) s (b, f') s' ↔ _
  rw [returns_pure, Prod.mk.injEq, and_assoc]

theorem returns_lift_above {m : ExceptT Error (StateM σ) α} :
    Returns ((liftM m : StateT φ (ExceptT Error (StateM σ)) α) f) s (a, f') s' ↔
      Returns m s a s' ∧ f = f' := by
  show Returns (m >>= fun a => pure (a, f)) s (a, f') s' ↔ _
  rw [returns_bind]
  constructor
  · rintro ⟨b, s₁, hm, hb⟩
    obtain ⟨heq, rfl⟩ := returns_pure.1 hb
    obtain ⟨rfl, rfl⟩ := Prod.mk.injEq .. ▸ heq
    exact ⟨hm, rfl⟩
  · rintro ⟨hm, rfl⟩
    exact ⟨a, s', hm, returns_pure.2 ⟨rfl, rfl⟩⟩

/-- A failure far below. -/
theorem returns_except_above {e : Except Error α} :
    Returns ((liftM e : StateT φ (ExceptT Error (StateM σ)) α) f) s (a, f') s' ↔
      e = .ok a ∧ f = f' ∧ s = s' := by
  refine returns_lift_above.trans ?_
  rw [and_comm (a := e = _), and_assoc, and_comm]
  exact and_congr_right fun _ => returns_lift.trans and_comm

theorem returns_get_above {g : φ} :
    Returns ((get : StateT φ (ExceptT Error (StateM σ)) φ) f) s (g, f') s' ↔
      f = g ∧ f = f' ∧ s = s' := by
  show Returns (pure (f, f)) s (g, f') s' ↔ _
  rw [returns_pure, Prod.mk.injEq, and_assoc]

theorem returns_modify_above {k : φ → φ} {u : PUnit} :
    Returns ((modify k : StateT φ (ExceptT Error (StateM σ)) PUnit) f) s (u, f') s' ↔
      k f = f' ∧ s = s' := by
  show Returns (pure (PUnit.unit, k f)) s (u, f') s' ↔ _
  rw [returns_pure, Prod.mk.injEq]
  exact ⟨fun h => ⟨h.1.2, h.2⟩, fun h => ⟨⟨rfl, h.1⟩, h.2⟩⟩

variable {R : σ → σ → Prop}

theorem Leads.bind_above [IsTrans σ R] {m : StateT φ (ExceptT Error (StateM σ)) α}
    {k : α → StateT φ (ExceptT Error (StateM σ)) β} (hm : Leads R (m f))
    (hk : ∀ a f, Leads R (k a f)) : Leads R ((m >>= k) f) :=
  Leads.bind hm fun p => hk p.1 p.2

theorem Leads.lift_above [IsPreorder σ R] {m : ExceptT Error (StateM σ) α} (hm : Leads R m) :
    Leads R ((liftM m : StateT φ (ExceptT Error (StateM σ)) α) f) :=
  hm.bind fun _ => .pure _

theorem Leads.modify_above [Std.Refl R] (k : φ → φ) :
    Leads R ((modify k : StateT φ (ExceptT Error (StateM σ)) PUnit) f) := Leads.pure _

theorem Leads.get_above [Std.Refl R] :
    Leads R ((MonadState.get : StateT φ (ExceptT Error (StateM σ)) φ) f) := Leads.pure _

end Above

/-! ## 5. Errors -/

section Errors

variable {σ φ α β : Type} {s s' : σ} {a : α} {e : Error}

/-- The operation gives this error, and this is the state afterwards. -/
def Fails (m : ExceptT Error (StateM σ) α) (s : σ) (e : Error) (s' : σ) : Prop :=
  m s = (.error e, s')

theorem returns_or_fails (m : ExceptT Error (StateM σ) α) (s : σ) :
    (∃ a s', Returns m s a s') ∨ ∃ e s', Fails m s e s' := by
  rcases h : (m s : Except Error α × σ) with ⟨e | a, s'⟩
  · exact .inr ⟨e, s', h⟩
  · exact .inl ⟨a, s', h⟩

theorem fails_bind {m : ExceptT Error (StateM σ) α} {f : α → ExceptT Error (StateM σ) β} :
    Fails (m >>= f) s e s' ↔ Fails m s e s' ∨ ∃ a s₁, Returns m s a s₁ ∧ Fails (f a) s₁ e s' := by
  unfold Fails Returns
  rw [bind_apply]
  rcases h : (m s : Except Error α × σ) with ⟨e' | a, s₁⟩
  · refine ⟨fun he => .inl ?_, fun he => he.elim (fun he => ?_) fun ⟨_, _, ha, _⟩ => nomatch ha⟩
    · cases he
      rfl
    · cases he
      rfl
  · refine ⟨fun he => .inr ⟨a, s₁, rfl, he⟩, fun he => he.elim (fun he => nomatch he) ?_⟩
    rintro ⟨_, _, ha, he⟩
    cases ha
    exact he

theorem fails_lift {x : Except Error α} :
    Fails (liftM x : ExceptT Error (StateM σ) α) s e s' ↔ x = .error e ∧ s = s' := by
  show ((x, s) : Except Error α × σ) = (.error e, s') ↔ _
  simp

theorem fails_bind_above {f : φ} {m : StateT φ (ExceptT Error (StateM σ)) α}
    {k : α → StateT φ (ExceptT Error (StateM σ)) β} :
    Fails ((m >>= k) f) s e s' ↔ Fails (m f) s e s' ∨
      ∃ a f₁ s₁, Returns (m f) s (a, f₁) s₁ ∧ Fails (k a f₁) s₁ e s' := by
  show Fails (m f >>= fun (a, f₁) => k a f₁) s e s' ↔ _
  rw [fails_bind]
  refine or_congr_right ⟨?_, ?_⟩
  · rintro ⟨⟨a, f₁⟩, s₁, hm, hk⟩
    exact ⟨a, f₁, s₁, hm, hk⟩
  · rintro ⟨a, f₁, s₁, hm, hk⟩
    exact ⟨(a, f₁), s₁, hm, hk⟩

theorem fails_lift_above {f : φ} {m : ExceptT Error (StateM σ) α} :
    Fails ((liftM m : StateT φ (ExceptT Error (StateM σ)) α) f) s e s' ↔ Fails m s e s' := by
  show Fails (m >>= fun a => pure (a, f)) s e s' ↔ _
  refine fails_bind.trans ⟨fun h => h.resolve_right ?_, .inl⟩
  rintro ⟨a, s₁, -, h⟩
  cases h

/-- A failure far below. -/
theorem fails_except_above {f : φ} {x : Except Error α} :
    Fails ((liftM x : StateT φ (ExceptT Error (StateM σ)) α) f) s e s' ↔ x = .error e ∧ s = s' :=
  fails_lift_above.trans fails_lift

/-- From this state, each error that the operation gives is one of these. -/
def RaisesAt (E : Error → Prop) (m : ExceptT Error (StateM σ) α) (s : σ) : Prop :=
  ∀ e s', Fails m s e s' → E e

/-- Each error that the operation gives is one of these. -/
def Raises (E : Error → Prop) (m : ExceptT Error (StateM σ) α) : Prop := ∀ s, RaisesAt E m s

variable {E : Error → Prop} {m : ExceptT Error (StateM σ) α} {k : α → ExceptT Error (StateM σ) β}

/-- An operation gives one error. -/
theorem Fails.raisesAt (h : Fails m s e s') (he : E e) : RaisesAt E m s := by
  intro e' s'' h'
  cases h.symm.trans h'
  exact he

/-- An operation that gives an answer gives no error. -/
theorem Returns.raisesAt (h : Returns m s a s') : RaisesAt E m s :=
  fun _ _ h' => nomatch h.symm.trans h'

theorem RaisesAt.bind (hm : RaisesAt E m s)
    (hk : ∀ a s', Returns m s a s' → RaisesAt E (k a) s') : RaisesAt E (m >>= k) s := by
  intro e s' h
  rcases fails_bind.1 h with h | ⟨a, s₁, ha, h⟩
  · exact hm e s' h
  · exact hk a s₁ ha e s' h

theorem Raises.pure (a : α) : Raises E (Pure.pure a : ExceptT Error (StateM σ) α) :=
  fun _ _ _ h => nomatch (Prod.ext_iff.1 h).1

theorem Raises.throw (he : E e) : Raises E (throw e : ExceptT Error (StateM σ) α) := by
  intro s e' s' h
  cases h
  exact he

theorem Raises.lift {x : Except Error α} (hx : ∀ e, x = .error e → E e) :
    Raises E (liftM x : ExceptT Error (StateM σ) α) :=
  fun _ e _ h => hx e (fails_lift.1 h).1

theorem Raises.get : Raises E (get : ExceptT Error (StateM σ) σ) :=
  fun _ _ _ h => nomatch (Prod.ext_iff.1 h).1

theorem Raises.modifyGet (f : σ → α × σ) :
    Raises E (modifyGet f : ExceptT Error (StateM σ) α) :=
  fun _ _ _ h => nomatch (Prod.ext_iff.1 h).1

theorem Raises.bind (hm : Raises E m) (hk : ∀ a, Raises E (k a)) : Raises E (m >>= k) :=
  fun s => (hm s).bind fun a s' _ => hk a s'

theorem Raises.mapM {f : α → ExceptT Error (StateM σ) β} {l : List α}
    (hf : ∀ a ∈ l, Raises E (f a)) : Raises E (l.mapM f) := by
  induction l with
  | nil => exact .pure _
  | cons a l ih =>
    rw [List.mapM_cons]
    exact (hf a List.mem_cons_self).bind fun _ =>
      (ih fun x hx => hf x (List.mem_cons_of_mem _ hx)).bind fun _ => .pure _

theorem Raises.foldlM {f : β → α → ExceptT Error (StateM σ) β} (hf : ∀ b a, Raises E (f b a))
    (l : List α) (b : β) : Raises E (l.foldlM f b) := by
  induction l generalizing b with
  | nil => exact .pure b
  | cons a l ih =>
    rw [List.foldlM_cons]
    exact (hf b a).bind ih

theorem Raises.bind_above {f : φ} {m : StateT φ (ExceptT Error (StateM σ)) α}
    {k : α → StateT φ (ExceptT Error (StateM σ)) β} (hm : Raises E (m f))
    (hk : ∀ a f, Raises E (k a f)) : Raises E ((m >>= k) f) :=
  Raises.bind hm fun p => hk p.1 p.2

theorem Raises.pure_above {f : φ} (a : α) :
    Raises E ((Pure.pure a : StateT φ (ExceptT Error (StateM σ)) α) f) := Raises.pure (a, f)

theorem Raises.lift_above {f : φ} (hm : Raises E m) :
    Raises E ((liftM m : StateT φ (ExceptT Error (StateM σ)) α) f) :=
  Raises.bind hm fun _ => .pure _

theorem Raises.modify_above {f : φ} (k : φ → φ) :
    Raises E ((modify k : StateT φ (ExceptT Error (StateM σ)) PUnit) f) := Raises.pure _

end Errors

end ClassFile
