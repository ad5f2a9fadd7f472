/-
# The rest of a block that is cut

An instruction that gives an answer in a block gives one in the rest of the block, and the frame of the
rest follows the frame of the block (`Cut.Along`).  This is closed under sequencing, so that it is shown
for each part of an instruction on its own, as for `Frame.Keeps`.

The table of types is another one in the rest of the block, and can give other numbers to what
instructions ask it for; what they get designates the same (`TypeTable.Twin`).

Two instructions ask for more.  What `new` makes is not to be taken for what a constructor has run on
before the cut (`Cut.Unmade`), and the entries of an array are known only if they are references
(`Cut.Follows.loadEntry`).
-/
import ClassFile.Proofs.Frame.Cut

namespace ClassFile

/-! ## 1. Operations on two tables -/

/-- Where an operation gives an answer on one table, it gives one on another table as well. -/
def TypeTable.Twin {α : Type} (h : Hierarchy) (m : TypeM α)
    (Q : α → α → TypeTable → TypeTable → Prop) : Prop :=
  ∀ A B a A', A.Sound h → B.Sound h → Returns m A a A' → ∃ b B', Returns m B b B' ∧
    A'.Sound h ∧ A ≤ A' ∧ B'.Sound h ∧ B ≤ B' ∧ Q a b A' B'

namespace TypeTable

variable {h : Hierarchy} {α β : Type}

/-- Tables differ in what they contain, but each takes another entry. -/
theorem twin_intern (e : TypeEntry) :
    Twin h (intern e) fun i j A B => A.entries[i]? = some e ∧ B.entries[j]? = some e := by
  intro A B i A' hA hB hret
  obtain ⟨i', A₁, hret', hs, hle, hi⟩ := hA.intern e
  obtain ⟨j, B', hretj, hs', hle', hj⟩ := hB.intern e
  cases hret.symm.trans hret'
  exact ⟨j, B', hretj, hs, hle, hs', hle', hi, hj⟩

end TypeTable

namespace SlotType

variable {h : Hierarchy}

/-- What designates the same in two tables, and is nothing that a constructor is to run on. -/
structure Equals (A B : TypeTable) (t u : SlotType) : Prop where
  left : t.Valid A
  right : u.Valid B
  same : t.designated A = u.designated B
  finished : t.kind.Finished

theorem equals_object {A B : TypeTable} {i j : TypeIndex} {name : String}
    (hi : A.entries[i]? = some (.initialized name)) (hj : B.entries[j]? = some (.initialized name))
    {d : Int} (hd : 0 ≤ d) (hmost : d ≤ 127) : Equals A B ⟨d, .object i⟩ ⟨d, .object j⟩ :=
  ⟨⟨hd, hmost, name, hi⟩, ⟨hd, hmost, name, hj⟩, by simp only [designated, hi, hj], trivial⟩

/-- Arrays of base types designate the same in all tables. -/
theorem equals_base {A B : TypeTable} (b : BaseType) {d : Int} (hd : 0 ≤ d) (hmost : d ≤ 127) :
    Equals A B ⟨d, .base b⟩ ⟨d, .base b⟩ :=
  ⟨⟨hd, hmost⟩, ⟨hd, hmost⟩, rfl, trivial⟩

theorem Equals.isWide_eq {A B : TypeTable} {t u : SlotType} (h : Equals A B t u) :
    t.isWide = u.isWide := by
  rw [← isWide_designated A, h.same, isWide_designated]

theorem Equals.alike {k : Cut} {offsets : Nat → Prop} {depth : Nat} {A B : TypeTable}
    {t u : SlotType} (h : Equals A B t u) : Alike k offsets depth A B t u :=
  .of_designated h.left h.right h.same h.finished

theorem twin_object (name : String) : TypeTable.Twin h (object name) fun t u A B => ∃ i j,
    t = scalar (.object i) ∧ u = scalar (.object j) ∧
      A.entries[i]? = some (.initialized name) ∧ B.entries[j]? = some (.initialized name) := by
  intro A B t A' hA hB hret
  obtain ⟨i, A₁, hintern, hpure⟩ := returns_bind.1 hret
  obtain ⟨rfl, rfl⟩ := returns_pure.1 hpure
  obtain ⟨j, B', hret', hs, hle, hs', hle', hi, hj⟩ :=
    TypeTable.twin_intern (.initialized name) A B i _ hA hB hintern
  exact ⟨_, B', returns_bind.2 ⟨j, B', hret', returns_pure.2 ⟨rfl, rfl⟩⟩, hs, hle, hs', hle',
    i, j, rfl, rfl, hi, hj⟩

theorem twin_ofFieldType (type : FieldType) : TypeTable.Twin h (ofFieldType type)
    fun t u A B => Equals A B t u := by
  -- so many dimensions of a kind, if there can be so many
  have hcheck : ∀ (kind : SlotKind) (T T' : TypeTable) (t : SlotType), Returns (do
      if 127 < type.dimensions then throw (.malformedDescriptor type.text)
      return ⟨type.dimensions, kind⟩ : TypeM SlotType) T t T' ↔
        ¬ 127 < type.dimensions ∧ t = ⟨type.dimensions, kind⟩ ∧ T = T' := by
    intro kind T T' t
    split
    · rename_i hdims
      constructor
      · intro hret
        obtain ⟨_, _, hthrow, -⟩ := returns_bind.1 hret
        exact absurd hthrow returns_throw
      · exact fun hall => absurd hdims hall.1
    · rename_i hdims
      rw [returns_pure, eq_comm]
      simp [hdims]
  intro A B t A' hA hB hret
  unfold ofFieldType at hret ⊢
  split at hret
  · obtain ⟨rfl, rfl⟩ := returns_pure.1 hret
    rename_i base _
    refine ⟨_, B, returns_pure.2 ⟨rfl, rfl⟩, hA, TypeTable.le_refl A, hB, TypeTable.le_refl B, ?_⟩
    cases base <;> exact equals_base _ (by decide) (by decide)
  · dsimp only at hret ⊢
    split at hret
    · rename_i base _
      obtain ⟨_, _, hpure, hret⟩ := returns_bind.1 hret
      obtain ⟨rfl, rfl⟩ := returns_pure.1 hpure
      obtain ⟨hdims, rfl, rfl⟩ := (hcheck _ _ _ _).1 hret
      exact ⟨_, B, returns_bind.2 ⟨_, B, returns_pure.2 ⟨rfl, rfl⟩, (hcheck _ _ _ _).2 ⟨hdims, rfl, rfl⟩⟩,
        hA, TypeTable.le_refl A, hB, TypeTable.le_refl B, equals_base base (by omega) (by omega)⟩
    · rename_i name _
      obtain ⟨i, A₁, hintern, hret⟩ := returns_bind.1 hret
      obtain ⟨_, _, hpure, hret⟩ := returns_bind.1 hret
      obtain ⟨rfl, rfl⟩ := returns_pure.1 hpure
      obtain ⟨hdims, rfl, rfl⟩ := (hcheck _ _ _ _).1 hret
      obtain ⟨j, B', hret', hs, hle, hs', hle', hi, hj⟩ :=
        TypeTable.twin_intern (.initialized name) A B i _ hA hB hintern
      exact ⟨_, B', returns_bind.2 ⟨j, B', hret', returns_bind.2 ⟨_, B', returns_pure.2 ⟨rfl, rfl⟩,
        (hcheck _ _ _ _).2 ⟨hdims, rfl, rfl⟩⟩⟩, hs, hle, hs', hle',
        equals_object hi hj (by omega) (by omega)⟩

/-- The types of a descriptor, if it has a value. -/
theorem twin_ofDescriptor (descriptor : String) : TypeTable.Twin h (ofDescriptor descriptor)
    fun t u A B => t = none ∧ u = none ∨ ∃ x y, t = some x ∧ u = some y ∧ Equals A B x y := by
  have hvalue : ∀ type, TypeTable.Twin h (do return some (← ofFieldType type) : TypeM _)
      fun t u A B => t = none ∧ u = none ∨ ∃ x y, t = some x ∧ u = some y ∧ Equals A B x y := by
    intro type A B t A' hA hB hret
    obtain ⟨x, A₁, hx, hpure⟩ := returns_bind.1 hret
    obtain ⟨rfl, rfl⟩ := returns_pure.1 hpure
    obtain ⟨y, B', hy, hs, hle, hs', hle', hxy⟩ := twin_ofFieldType type A B x _ hA hB hx
    exact ⟨_, B', returns_bind.2 ⟨y, B', hy, returns_pure.2 ⟨rfl, rfl⟩⟩, hs, hle, hs', hle',
      .inr ⟨x, y, rfl, rfl, hxy⟩⟩
  have hnone : TypeTable.Twin h (return none : TypeM (Option SlotType))
      fun t u A B => t = none ∧ u = none ∨ ∃ x y, t = some x ∧ u = some y ∧ Equals A B x y := by
    intro A B t A' hA hB hret
    obtain ⟨rfl, rfl⟩ := returns_pure.1 hret
    exact ⟨none, B, returns_pure.2 ⟨rfl, rfl⟩, hA, TypeTable.le_refl _, hB, TypeTable.le_refl _,
      .inl ⟨rfl, rfl⟩⟩
  have hlift : ∀ {α β : Type} {Q : β → β → TypeTable → TypeTable → Prop} (e : Except Error α)
      {f : α → TypeM β}, (∀ a, TypeTable.Twin h (f a) Q) →
      TypeTable.Twin h (do f (← (liftM e : TypeM α))) Q := by
    intro α β Q e f hf A B b A' hA hB hret
    obtain ⟨a, _, he, hrest⟩ := returns_bind.1 hret
    obtain ⟨rfl, rfl⟩ := returns_lift.1 he
    obtain ⟨b', B', hret', hall⟩ := hf a A B b A' hA hB hrest
    exact ⟨b', B', returns_bind.2 ⟨a, B, returns_lift.2 ⟨rfl, rfl⟩, hret'⟩, hall⟩
  unfold ofDescriptor
  split
  · refine hlift _ fun type => ?_
    split
    · exact hvalue _
    · exact hnone
  · split
    · exact hnone
    · exact hlift _ fun type => hvalue _

end SlotType

/-! ## 2. Operations on both frames -/

namespace Cut

open ClassFile.Frame

variable {h : Hierarchy} {k : Cut} {offsets : Nat → Prop} {depth : Nat} {α β : Type}
  {P : TypeTable → TypeTable → Prop}

/-- **Where an operation gives an answer in a block, one gives an answer in the rest of the block**, and
the frame of the rest follows that of the block. -/
def Along (h : Hierarchy) (k : Cut) (offsets : Nat → Prop) (depth : Nat)
    (P : TypeTable → TypeTable → Prop) (m m' : FrameM α) (Q : α → α → TypeTable → TypeTable → Prop) :
    Prop :=
  ∀ f A g B a f' A', k.Follows h offsets depth f A g B → P A B → Returns₂ m f A a f' A' →
    ∃ b g' B', Returns₂ m' g B b g' B' ∧ k.Follows h offsets depth f' A' g' B' ∧ Q a b A' B'

theorem Along.bind {m m' : FrameM α} {next next' : α → FrameM β}
    {R : α → α → TypeTable → TypeTable → Prop} {Q : β → β → TypeTable → TypeTable → Prop}
    (hm : Along h k offsets depth P m m' R)
    (hnext : ∀ a b, Along h k offsets depth (R a b) (next a) (next' b) Q) :
    Along h k offsets depth P (m >>= next) (m' >>= next') Q := by
  intro f A g B c f' A' hk hP hret
  obtain ⟨a, f₁, A₁, hret₁, hret₂⟩ := returns₂_bind.1 hret
  obtain ⟨b, g₁, B₁, hret₁', hk₁, hR⟩ := hm f A g B a f₁ A₁ hk hP hret₁
  obtain ⟨d, g', B', hret₂', hk', hQ⟩ := hnext a b f₁ A₁ g₁ B₁ c f' A' hk₁ hR hret₂
  exact ⟨d, g', B', returns₂_bind.2 ⟨b, g₁, B₁, hret₁', hret₂'⟩, hk', hQ⟩

/-- A change that keeps two frames related. -/
theorem along_modify {change change' : Frame → Frame}
    (hchange : ∀ f A g B, P A B → k.Follows h offsets depth f A g B →
      k.Follows h offsets depth (change f) A (change' g) B) :
    Along h k offsets depth P (modify change) (modify change') fun _ _ _ _ => True := by
  intro f A g B u f' A' hk hP hret
  obtain ⟨rfl, rfl⟩ := returns₂_modify.1 hret
  exact ⟨⟨⟩, change' g, B, returns₂_modify.2 ⟨rfl, rfl⟩, hchange f A g B hP hk, trivial⟩

theorem along_throw {m : FrameM α} {Q : α → α → TypeTable → TypeTable → Prop} (e : Error) :
    Along h k offsets depth P (throw e) m Q :=
  fun _ _ _ _ _ _ _ _ _ hret => absurd hret returns₂_throw

theorem along_return (a : α) : Along h k offsets depth P (pure a) (pure a) fun _ _ _ _ => True := by
  intro f A g B b f' A' hk hP hret
  obtain ⟨rfl, rfl, rfl⟩ := returns₂_pure.1 hret
  exact ⟨a, g, B, returns₂_pure.2 ⟨rfl, rfl, rfl⟩, hk, trivial⟩

/-- What looks at neither frame gives the same on both sides. -/
theorem along_lift (x : Except Error α) {next : α → FrameM β}
    {Q : β → β → TypeTable → TypeTable → Prop}
    (hnext : ∀ a, Along h k offsets depth P (next a) (next a) Q) :
    Along h k offsets depth P (liftM x >>= next) (liftM x >>= next) Q := by
  intro f A g B c f' A' hk hP hret
  obtain ⟨a, f₁, A₁, hret₁, hret₂⟩ := returns₂_bind.1 hret
  obtain ⟨rfl, rfl, rfl⟩ := returns₂_lift.1 hret₁
  obtain ⟨d, g', B', hret₂', hall⟩ := hnext a f A g B c f' A' hk hP hret₂
  exact ⟨d, g', B', returns₂_bind.2 ⟨a, g, B, returns₂_lift.2 ⟨rfl, rfl, rfl⟩, hret₂'⟩, hall⟩

theorem along_onTypes {m : TypeM α} {Q : α → α → TypeTable → TypeTable → Prop}
    (hm : TypeTable.Twin h m Q) : Along h k offsets depth P (onTypes m) (onTypes m) Q := by
  intro f A g B a f' A' hk hP hret
  have hrun : ∀ {f f' : Frame} {T T' : TypeTable} {a : α},
      Returns₂ (onTypes m) f T a f' T' ↔ Returns m T a T' ∧ f = f' := by
    intro f f' T T' a
    show ((((m T : Except Error α × TypeTable).1, f), (m T : Except Error α × TypeTable).2) :
        (Except Error α × Frame) × TypeTable) = ((.ok a, f'), T') ↔
      (m T : Except Error α × TypeTable) = (.ok a, T') ∧ f = f'
    rcases (m T : Except Error α × TypeTable) with ⟨r, T₁⟩
    constructor
    · intro hall
      cases hall
      exact ⟨rfl, rfl⟩
    · rintro ⟨hall, rfl⟩
      cases hall
      rfl
  obtain ⟨htypes, rfl⟩ := hrun.1 hret
  obtain ⟨b, B', hret', hs, hle, hs', hle', hQ⟩ := hm A B a A' hk.sound_left hk.sound_right htypes
  exact ⟨b, g, B', hrun.2 ⟨hret', rfl⟩, hk.later hs hs' hle hle', hQ⟩

/-! ## 3. Instructions -/

/-- An offset at which nothing has been made that a constructor has run on before the cut. -/
structure Unmade (k : Cut) (offsets : Nat → Prop) (offset : Nat) : Prop where
  offsets : offsets offset
  made : k.first.taken ≤ k.outer.stack.size → k.first.taken ≤ 65535 →
    k.outer.stack.size + k.first.peak < 2 ^ 31 - 1 → ∀ d ∈ k.made, d.From (· ≠ offset)

/-- The same number of slots is taken from both; what one side is short of is taken below it. -/
theorem along_drop (count : Nat) :
    Along h k offsets depth P (modify (drop count)) (modify (drop count)) fun _ _ _ _ => True :=
  along_modify fun _ _ _ _ _ hk => hk.drop count

theorem along_pushValue {t u : SlotType} (htu : ∀ A B, P A B → SlotType.Equals A B t u) :
    Along h k offsets depth P (modify (Frame.pushValue t)) (modify (Frame.pushValue u))
      fun _ _ _ _ => True :=
  along_modify fun _ _ _ _ hP hk => hk.pushValue (htu _ _ hP).isWide_eq fun _ => (htu _ _ hP).alike

theorem along_push {t u : SlotType} (htu : ∀ A B, P A B → SlotType.Equals A B t u) :
    Along h k offsets depth P (modify (Frame.push t)) (modify (Frame.push u)) fun _ _ _ _ => True :=
  along_modify fun _ _ _ _ hP hk => hk.push fun _ => (htu _ _ hP).alike

theorem along_pushBase (b : BaseType) : Along h k offsets depth P
    (modify (Frame.pushValue (.scalar (.base b)))) (modify (Frame.pushValue (.scalar (.base b))))
      fun _ _ _ _ => True :=
  along_pushValue fun _ _ _ => SlotType.equals_base b (by decide) (by decide)

theorem along_plain {op : Opcode} (hop : op ≠ Opcode.aaload) :
    Along h k offsets depth P (plain op) (plain op) fun _ _ _ _ => True := by
  unfold plain
  split
  · rename_i change hchange
    refine along_modify fun f A g B _ hk => ?_
    unfold plain? at hchange
    split at hchange
    · rename_i he
      cases hchange
      exact hk.applyEffect he
    · cases hchange
      exact hk.applyShuffle _ _
    · rw [if_neg hop] at hchange
      exact nomatch hchange
  · split <;> exact along_throw _

theorem along_number (op : Opcode) (operand : Int32) :
    Along h k offsets depth P (number op operand) (number op operand) fun _ _ _ _ => True := by
  unfold number
  split
  · exact along_push fun _ _ _ => SlotType.equals_base .int (by decide) (by decide)
  split
  · exact along_modify fun _ _ _ _ _ hk => (hk.drop 1).push fun _ =>
      (SlotType.equals_base _ Int.one_nonneg (by decide : (1 : Int) ≤ 127)).alike
  · exact along_throw _

/-- Locals are read and written at the same place on both sides. -/
theorem along_localOperand {index : UInt16} (op : Opcode)
    (hindex : index.toNat < k.outer.locals.size) :
    Along h k offsets depth P (localOperand op index) (localOperand op index) fun _ _ _ _ => True := by
  unfold localOperand
  split
  · exact along_pushBase _
  split
  · exact along_pushBase _
  split
  · exact along_pushBase _
  split
  · exact along_pushBase _
  split
  · exact along_modify fun _ _ _ _ _ hk => hk.push fun hw => hk.localAt hindex hw
  split
  · exact along_modify fun _ _ _ _ _ hk => hk.store hindex
  split
  · exact along_modify fun _ _ _ _ _ hk => hk.storeWide hindex
  · split <;> exact along_throw _

theorem along_increment (index : UInt16) :
    Along h k offsets depth P (increment index) (increment index) fun _ _ _ _ => True :=
  along_modify fun _ _ _ _ _ hk => hk.setLocal index fun _ => .base .int

theorem along_pushDescriptor (descriptor : String) : Along h k offsets depth P
    (pushDescriptor descriptor) (pushDescriptor descriptor) fun _ _ _ _ => True := by
  refine (along_onTypes (SlotType.twin_ofDescriptor descriptor)).bind fun a b => ?_
  intro f A g B u f' A' hk hab
  rcases hab with ⟨rfl, rfl⟩ | ⟨x, y, rfl, rfl, hxy⟩
  · exact along_return (P := fun _ _ => True) ⟨⟩ f A g B u f' A' hk trivial
  · exact along_pushValue (P := fun A B => SlotType.Equals A B x y) (fun _ _ => id) f A g B u f' A' hk hxy

theorem along_popDescriptor (descriptor : String) : Along h k offsets depth P
    (popDescriptor descriptor) (popDescriptor descriptor) fun _ _ _ _ => True := by
  unfold popDescriptor
  split
  · exact along_lift _ fun _ => along_drop _
  · exact along_lift _ fun _ => along_drop _

theorem along_pushObject (name : String) : Along h k offsets depth P
    (do
      let t ← onTypes (SlotType.object name)
      modify (Frame.push t))
    (do
      let t ← onTypes (SlotType.object name)
      modify (Frame.push t)) fun _ _ _ _ => True := by
  refine (along_onTypes (SlotType.twin_object name)).bind fun a b => along_push fun A B hab => ?_
  obtain ⟨i, j, rfl, rfl, hi, hj⟩ := hab
  exact SlotType.equals_object hi hj (by decide) (by decide)

theorem along_typeOperand {op : Opcode} (hop : op ≠ Opcode.new) (offset : Nat) (name : String) :
    Along h k offsets depth P (typeOperand op offset name) (typeOperand op offset name)
      fun _ _ _ _ => True := by
  unfold typeOperand
  rw [if_neg hop]
  split
  · refine (along_drop 1).bind fun _ _ => ?_
    split
    · exact along_pushDescriptor _
    · refine (along_onTypes (SlotType.twin_object name)).bind fun a b => along_push fun A B hab => ?_
      obtain ⟨i, j, rfl, rfl, hi, hj⟩ := hab
      exact SlotType.equals_object hi hj Int.one_nonneg (by decide : (1 : Int) ≤ 127)
  split
  · refine (along_drop 1).bind fun _ _ => ?_
    split
    · exact along_pushDescriptor _
    · exact along_pushObject name
  split
  · exact along_modify fun _ _ _ _ _ hk => (hk.drop 1).push fun _ => .base .int
  · exact along_throw _

/-- What a `new` instruction makes is nothing that constructors have run on before the cut. -/
theorem along_new {offset : Nat} (name : String) (hnew : k.Unmade offsets offset) :
    Along h k offsets depth P (typeOperand Opcode.new offset name)
      (typeOperand Opcode.new offset name) fun _ _ _ _ => True := by
  unfold typeOperand
  rw [if_pos rfl]
  refine (along_onTypes (TypeTable.twin_intern (.uninitialized name offset))).bind fun i j =>
    along_modify fun f A g B hij hk => hk.push fun hw => ?_
  have hd : SlotType.designated A (.scalar (.uninitialized i)) =
      ⟨0, .uninitialized 0, some (.uninitialized name offset)⟩ := by
    simp only [SlotType.designated, SlotType.scalar, hij.1]
  have hd' : SlotType.designated B (.scalar (.uninitialized j)) =
      ⟨0, .uninitialized 0, some (.uninitialized name offset)⟩ := by
    simp only [SlotType.designated, SlotType.scalar, hij.2]
  have hfirst : k.first.taken ≤ f.taken := by
    have := hk.taken
    omega
  refine ⟨.inl ⟨rfl, name, offset, hij.1⟩, .inl ⟨rfl, name, offset, hij.2⟩, by rintro ⟨⟩, by rintro ⟨⟩, ?_, ?_⟩
  · show Designation.From offsets (SlotType.designated A (.scalar (.uninitialized i)))
    rw [hd]
    rintro _ _ _ - he
    cases he
    exact hnew.offsets
  · show Designation.finished k.className k.made (SlotType.designated A (.scalar (.uninitialized i))) =
      SlotType.designated B (.scalar (.uninitialized j))
    rw [hd, hd']
    have hroom : k.outer.stack.size + k.first.peak < 2 ^ 31 - 1 := by
      have := (hk.agree hw).peak
      have := hw.room
      omega
    exact if_neg fun hmem => hnew.made (Nat.le_trans hfirst hw.left) (Nat.le_trans hfirst hw.left_most)
      hroom _ hmem _ _ _ rfl rfl rfl

/-- Members take and give what their descriptor says, the same on both sides. -/
theorem along_member (op : Opcode) (name descriptor : String) : Along h k offsets depth P
    (member op name descriptor) (member op name descriptor) fun _ _ _ _ => True := by
  unfold member
  split
  · exact along_pushDescriptor _
  split
  · exact along_popDescriptor _
  split
  · exact (along_drop 1).bind fun _ _ => along_pushDescriptor _
  split
  · exact (along_popDescriptor _).bind fun _ _ => along_drop 1
  split
  · exact (along_popDescriptor _).bind fun _ _ => along_pushDescriptor _
  split
  · exact (along_popDescriptor _).bind fun _ _ =>
      (along_modify fun _ _ _ _ _ hk => hk.takeReceiver _).bind fun _ _ => along_pushDescriptor _
  · exact along_throw _

theorem along_dynamicCall (descriptor : String) : Along h k offsets depth P
    (dynamicCall descriptor) (dynamicCall descriptor) fun _ _ _ _ => True :=
  (along_popDescriptor _).bind fun _ _ => along_pushDescriptor _

theorem along_constant (value : Loadable) : Along h k offsets depth P
    (constant value) (constant value) fun _ _ _ _ => True := by
  cases value
  case integer | float | long | double => exact along_pushBase _
  case string | type | methodType | handle => exact along_pushObject _
  case dynamic => exact along_pushDescriptor _

theorem along_multiArray (descriptor : String) (dimensions : UInt8) : Along h k offsets depth P
    (multiArray descriptor dimensions) (multiArray descriptor dimensions) fun _ _ _ _ => True :=
  (along_drop _).bind fun _ _ => along_pushDescriptor _

end Cut

end ClassFile
