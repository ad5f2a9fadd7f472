/-
# Writing types and frames

What the type of a slot says (`SlotType.mapType?`) depends on the table of types, and what a written
type says on the constant pool.  The two agree when a type is written (`says_verificationType`), and
stay the same in later tables and pools, so a stack map is written with rows that say what was
inferred (`stackMap_rows`).

On entry of a method the locals say what its descriptor does (`says_implicitLocals`).
-/
import ClassFile.Proofs.ConstantPool
import ClassFile.Proofs.Frame.Effect
import ClassFile.Proofs.StackMap.Decode

namespace ClassFile

/-! ## 1. What types say -/

/-- The field type of a class, or of an array that is given by its descriptor. -/
def FieldType.ofClassName? (name : String) : Option FieldType :=
  if Descriptor.isArrayName name then (Descriptor.fieldType name).toOption else some (.object name)

/-- What a value of a type is in a stack map: what is smaller than an `int` has become one, and an
array is given by its descriptor. -/
def FieldType.mapType? (t : FieldType) : Option MapType :=
  match t.dimensions, t.element with
  | 0, .base .float => some .float
  | 0, .base .long => some .long
  | 0, .base .double => some .double
  | 0, .base _ => some .integer
  | 0, .object name => some (.object name)
  | dimensions, .base type => some (.object ((FieldType.base type).withDimensions dimensions).text)
  | dimensions, .object name =>
    (ofClassName? name).map fun element => .object (element.withDimensions dimensions).text

/-- What the type of a slot is in a stack map. -/
def SlotType.mapType? (T : TypeTable) (t : SlotType) : Option MapType :=
  let dimensions := t.dimensions.toNat
  match dimensions, t.kind with
  | _, .base type => FieldType.mapType? ⟨dimensions, .base type⟩
  | _, .object index =>
    (T.entries[index]?).bind fun e => FieldType.mapType? ⟨dimensions, .object e.name⟩
  | 0, .null => some .null
  | 0, .uninitializedThis => some .uninitializedThis
  | 0, .uninitialized index =>
    match T.entries[index]? with
    | some (.uninitialized _ offset) => some (.uninitialized (UInt16.ofNat offset))
    | _ => none
  | _, _ => some .top

/-- An operation on each entry of a list succeeds if it does on every one. -/
theorem mapM_eq_some_iff {α β : Type} {f : α → Option β} {l : List α} {bs : List β} :
    l.mapM f = some bs ↔ List.Forall₂ (fun a b => f a = some b) l bs := by
  induction l generalizing bs with
  | nil =>
    rw [List.mapM_nil, List.forall₂_nil_left_iff]
    exact ⟨fun h => (Option.some.inj h).symm, fun h => h ▸ rfl⟩
  | cons a l ih =>
    rw [List.mapM_cons, List.forall₂_cons_left_iff, Option.bind_eq_bind, Option.bind_eq_some_iff]
    constructor
    · rintro ⟨b, hb, h⟩
      obtain ⟨bs', hbs, h⟩ := Option.bind_eq_some_iff.1 h
      exact ⟨b, bs', hb, ih.1 hbs, (Option.some.inj h).symm⟩
    · rintro ⟨b, bs', hb, hbs, rfl⟩
      exact ⟨b, hb, Option.bind_eq_some_iff.2 ⟨bs', ih.2 hbs, rfl⟩⟩

theorem mapM_congr_forall₂ {α β γ : Type} {f : α → Option γ} {g : β → Option γ} {l : List α}
    {l' : List β} (h : List.Forall₂ (fun a b => f a = g b) l l') : l.mapM f = l'.mapM g := by
  induction h with
  | nil => rfl
  | cons hab _ ih => rw [List.mapM_cons, List.mapM_cons, hab, ih]

variable {h : Hierarchy} {T T' : TypeTable} {p p' : ConstantPool}

theorem SlotType.mapType?_later (hle : T ≤ T') {t : SlotType} {m : MapType}
    (hm : t.mapType? T = some m) : t.mapType? T' = some m := by
  unfold SlotType.mapType? at hm ⊢
  dsimp only at hm ⊢
  split at hm
  case h_2 index _ =>
    obtain ⟨e, he, hm⟩ := Option.bind_eq_some_iff.1 hm
    exact Option.bind_eq_some_iff.2 ⟨e, hle _ _ he, hm⟩
  case h_5 index _ _ =>
    split at hm
    · rename_i he
      rw [hle _ _ he]
      exact hm
    · cases hm
  all_goals exact hm

theorem VerificationType.mapType?_later (hle : p ≤ p') {v : VerificationType} {m : MapType}
    (hm : v.mapType? p.className? = some m) : v.mapType? p'.className? = some m := by
  cases v
  case object i =>
    obtain ⟨name, hname, rfl⟩ := Option.map_eq_some_iff.1 hm
    exact Option.map_eq_some_iff.2 ⟨name, ConstantPool.className?_later hle hname, rfl⟩
  all_goals exact hm

theorem Says.later (hle : p ≤ p') {vs : List VerificationType} {ts : List MapType}
    (hs : Says p.className? vs ts) : Says p'.className? vs ts :=
  List.Forall₂.imp (fun _ _ hv => VerificationType.mapType?_later hle hv) hs

/-! ## 2. Writing a type -/

namespace SlotType

theorem returns_arrayWritten (hp : p.Sound h) {dimensions : Nat} {element : FieldType}
    {v : VerificationType} (hret : Returns (arrayWritten dimensions element) p v p') :
    p'.Sound h ∧ p ≤ p' ∧
      v.mapType? p'.className? = some (.object (element.withDimensions dimensions).text) := by
  obtain ⟨i, p₁, hi, hret⟩ := returns_bind.1 hret
  obtain ⟨hs, hle, hname⟩ := hp.classRef hi
  obtain ⟨rfl, rfl⟩ := returns_pure.1 hret
  exact ⟨hs, hle, Option.map_eq_some_iff.2 ⟨_, hname, rfl⟩⟩

/-- Reading an entry of the table of types. -/
theorem returns_typeEntry {i : TypeIndex} {e : TypeEntry}
    (hret : Returns (ConstantPool.onTypes (TypeTable.entry i)) p e p') :
    p = p' ∧ p.types.entries[i]? = some e := by
  obtain ⟨T, hentry, rfl⟩ := ConstantPool.returns_onTypes.1 hret
  obtain ⟨he, rfl⟩ := TypeTable.returns_entry.1 hentry
  exact ⟨rfl, he⟩

/-- How a type without dimensions is written. -/
theorem says_scalarWritten (hp : p.Sound h) {d : Int} (hd : d.toNat = 0) {kind : SlotKind}
    {v : VerificationType} (hret : Returns (scalarWritten kind) p v p') :
    p'.Sound h ∧ p ≤ p' ∧ ∃ m, mapType? p'.types ⟨d, kind⟩ = some m ∧
      v.mapType? p'.className? = some m := by
  unfold mapType?
  rw [show (⟨d, kind⟩ : SlotType).dimensions.toNat = 0 from hd]
  unfold scalarWritten at hret
  split at hret
  case h_1 type =>
    obtain ⟨rfl, rfl⟩ := returns_pure.1 hret
    cases type <;> exact ⟨hp, ConstantPool.le_refl p, _, rfl, rfl⟩
  case h_4 index =>
    obtain ⟨e, p₁, hread, hret⟩ := returns_bind.1 hret
    obtain ⟨rfl, he⟩ := returns_typeEntry hread
    obtain ⟨i, p₂, hi, hret⟩ := returns_bind.1 hret
    obtain ⟨hs, hle, hname⟩ := hp.classRef hi
    obtain ⟨rfl, rfl⟩ := returns_pure.1 hret
    refine ⟨hs, hle, .object e.name, ?_, Option.map_eq_some_iff.2 ⟨_, hname, rfl⟩⟩
    exact Option.bind_eq_some_iff.2 ⟨e, hle.types _ _ he, rfl⟩
  case h_5 index =>
    obtain ⟨e, p₁, hread, hret⟩ := returns_bind.1 hret
    obtain ⟨rfl, he⟩ := returns_typeEntry hread
    split at hret
    · obtain ⟨rfl, rfl⟩ := returns_pure.1 hret
      exact ⟨hp, ConstantPool.le_refl _, _, by simp only [he], rfl⟩
    · exact absurd hret returns_throw
  all_goals
    obtain ⟨rfl, rfl⟩ := returns_pure.1 hret
    exact ⟨hp, ConstantPool.le_refl p, _, rfl, rfl⟩

/-- **A written type says what the type of the slot does.** -/
theorem says_verificationType (hp : p.Sound h) {t : SlotType} {v : VerificationType}
    (hret : Returns (verificationType t) p v p') :
    p'.Sound h ∧ p ≤ p' ∧ ∃ m, t.mapType? p'.types = some m ∧
      v.mapType? p'.className? = some m := by
  obtain ⟨d, kind⟩ := t
  unfold verificationType at hret
  dsimp only at hret
  split at hret
  · rename_i hpos
    obtain ⟨n, rfl⟩ : ∃ n : Nat, d = ((n + 1 : Nat) : Int) := ⟨d.toNat - 1, by omega⟩
    rw [Int.toNat_natCast] at hret
    unfold mapType?
    dsimp only
    rw [Int.toNat_natCast]
    split at hret
    case h_1 index =>
      obtain ⟨e, p₁, hread, hret⟩ := returns_bind.1 hret
      obtain ⟨rfl, he⟩ := returns_typeEntry hread
      have hwritten : ∀ element, FieldType.ofClassName? e.name = some element →
          Returns (arrayWritten (n + 1) element) p v p' →
          p'.Sound h ∧ p ≤ p' ∧ ∃ m, ((p'.types.entries[index]?).bind fun e =>
            FieldType.mapType? ⟨n + 1, .object e.name⟩) = some m ∧
            v.mapType? p'.className? = some m := by
        intro element helement hret
        obtain ⟨hs, hle, hv⟩ := returns_arrayWritten hp hret
        refine ⟨hs, hle, _, Option.bind_eq_some_iff.2 ⟨e, hle.types _ _ he, ?_⟩, hv⟩
        simp only [FieldType.mapType?, helement, Option.map_some]
      unfold FieldType.ofClassName? at hwritten
      split at hret
      · rename_i harray
        obtain ⟨element, p₁, hparse, hret⟩ := returns_bind.1 hret
        obtain ⟨helement, rfl⟩ := returns_lift.1 hparse
        refine hwritten element ?_ hret
        rw [if_pos harray, helement]
        rfl
      · rename_i hname
        exact hwritten _ (if_neg hname) hret
    case h_2 type =>
      obtain ⟨hs, hle, hv⟩ := returns_arrayWritten hp hret
      exact ⟨hs, hle, _, rfl, hv⟩
    case h_3 hobject hbase =>
      obtain ⟨rfl, rfl⟩ := returns_pure.1 hret
      refine ⟨hp, ConstantPool.le_refl p, .top, ?_, rfl⟩
      split
      · exact absurd rfl (hbase _)
      · exact absurd rfl (hobject _)
      all_goals first | contradiction | rfl
  · exact says_scalarWritten hp (by omega) hret

/-- What types say stays the same in later tables. -/
theorem mapTypes_later (hle : T ≤ T') {ts : List SlotType} {ms : List MapType}
    (hms : ts.mapM (mapType? T) = some ms) : ts.mapM (mapType? T') = some ms := by
  rw [mapM_eq_some_iff] at hms ⊢
  exact hms.imp fun _ _ ht => mapType?_later hle ht

/-- Written types say what the types of the slots do, one by one. -/
theorem verificationTypes_say (hp : p.Sound h) {ts : List SlotType} {vs : List VerificationType}
    (hret : Returns (ts.mapM verificationType) p vs p') :
    p'.Sound h ∧ p ≤ p' ∧ ∃ ms, ts.mapM (mapType? p'.types) = some ms ∧
      Says p'.className? vs ms := by
  induction ts generalizing p vs with
  | nil =>
    rw [List.mapM_nil] at hret
    obtain ⟨rfl, rfl⟩ := returns_pure.1 hret
    exact ⟨hp, ConstantPool.le_refl p, [], rfl, .nil⟩
  | cons t ts ih =>
    rw [List.mapM_cons] at hret
    obtain ⟨v, p₁, hv, hret⟩ := returns_bind.1 hret
    obtain ⟨vs', p₂, hvs, hret⟩ := returns_bind.1 hret
    obtain ⟨rfl, rfl⟩ := returns_pure.1 hret
    obtain ⟨hs₁, hle₁, m, hm, hvm⟩ := says_verificationType hp hv
    obtain ⟨hs₂, hle₂, ms, hms, hspelled⟩ := ih hs₁ hvs
    refine ⟨hs₂, ConstantPool.le_trans hle₁ hle₂, m :: ms, ?_,
      .cons (VerificationType.mapType?_later hle₂ hvm) hspelled⟩
    rw [List.mapM_cons, mapType?_later hle₂.types hm, hms]
    rfl

end SlotType

/-! ## 3. Writing frames -/

/-- What a frame says about its entry, at a position. -/
def Frame.mapEntryOf? (T : TypeTable) (position : Nat) (f : Frame) : Option MapEntry := do
  let locals ← f.writtenLocals.mapM (SlotType.mapType? T)
  let stack ← f.writtenStack.mapM (SlotType.mapType? T)
  return ⟨position, locals, stack⟩

theorem Frame.mapEntryOf?_eq_some_iff {position : Nat} {f : Frame} {e : MapEntry} :
    f.mapEntryOf? T position = some e ↔ position = e.position ∧
      f.writtenLocals.mapM (SlotType.mapType? T) = some e.locals ∧
      f.writtenStack.mapM (SlotType.mapType? T) = some e.stack := by
  obtain ⟨place, locals, stack⟩ := e
  simp only [mapEntryOf?, Option.bind_eq_bind, Option.bind_eq_some_iff, Option.pure_def,
    Option.some.injEq, MapEntry.mk.injEq]
  constructor
  · rintro ⟨ls, hls, ss, hss, rfl, rfl, rfl⟩
    exact ⟨rfl, hls, hss⟩
  · rintro ⟨rfl, hls, hss⟩
    exact ⟨locals, hls, stack, hss, rfl, rfl, rfl⟩

theorem Frame.mapEntryOf?_later (hle : T ≤ T') {position : Nat} {f : Frame} {e : MapEntry}
    (he : f.mapEntryOf? T position = some e) : f.mapEntryOf? T' position = some e := by
  rw [Frame.mapEntryOf?_eq_some_iff] at he ⊢
  exact ⟨he.1, SlotType.mapTypes_later hle he.2.1, SlotType.mapTypes_later hle he.2.2⟩

theorem MapRow.Says.later (hle : p ≤ p') {r : MapRow} {e : MapEntry}
    (hs : r.Says p.className? e) : r.Says p'.className? e :=
  ⟨hs.position, hs.locals.later hle, hs.stack.later hle⟩

namespace BlockGraph

/-- Frames are written as rows that say what the frames do. -/
theorem writeFrames_rows (hp : p.Sound h) {previous : List VerificationType}
    {position : Option Nat} {done : List MapFrame} {list : List (Nat × Frame)}
    {frames : List MapFrame}
    (hret : Returns (writeFrames previous position done list) p frames p') :
    p'.Sound h ∧ p ≤ p' ∧ ∃ rows entries,
      frames = done.reverse ++ MapFrame.relative previous position rows ∧
      List.Forall₂ (MapRow.Says p'.className?) rows entries ∧
      List.Forall₂ (fun r e => r.2.mapEntryOf? p'.types r.1 = some e) list entries := by
  induction list generalizing p previous position done with
  | nil =>
    rw [writeFrames] at hret
    obtain ⟨rfl, rfl⟩ := returns_pure.1 hret
    exact ⟨hp, ConstantPool.le_refl p, [], [], (List.append_nil _).symm, .nil, .nil⟩
  | cons r list ih =>
    obtain ⟨place, f⟩ := r
    rw [writeFrames] at hret
    obtain ⟨locals, p₁, hlocals, hret⟩ := returns_bind.1 hret
    obtain ⟨stack, p₂, hstack, hret⟩ := returns_bind.1 hret
    obtain ⟨hs₁, hle₁, ls, hls, hsaysl⟩ := SlotType.verificationTypes_say hp hlocals
    obtain ⟨hs₂, hle₂, ss, hss, hsayss⟩ := SlotType.verificationTypes_say hs₁ hstack
    obtain ⟨hs₃, hle₃, rows, entries, hframes, hrows, hentries⟩ := ih hs₂ hret
    refine ⟨hs₃, ConstantPool.le_trans hle₁ (ConstantPool.le_trans hle₂ hle₃),
      ⟨place, locals, stack⟩ :: rows, ⟨place, ls, ss⟩ :: entries, ?_, .cons ?_ hrows,
      .cons ?_ hentries⟩
    · rw [hframes, List.reverse_cons, List.append_assoc]
      rfl
    · exact ⟨rfl, hsaysl.later (ConstantPool.le_trans hle₂ hle₃), hsayss.later hle₃⟩
    · exact Frame.mapEntryOf?_eq_some_iff.2 ⟨rfl,
        SlotType.mapTypes_later (ConstantPool.le_trans hle₂ hle₃).types hls,
        SlotType.mapTypes_later hle₃.types hss⟩

/-- **A stack map is written with rows that say what was inferred**, behind the locals on entry of
the method. -/
theorem stackMap_rows (hp : p.Sound h) {g : BlockGraph} {entry : List SlotType}
    {frames : List MapFrame} (hret : Returns (g.stackMap entry) p frames p') :
    p'.Sound h ∧ p ≤ p' ∧ ∃ ps previous rows entries,
      entry.mapM (SlotType.mapType? p'.types) = some previous ∧ Says p'.className? ps previous ∧
      frames = MapFrame.relative ps none rows ∧
      List.Forall₂ (MapRow.Says p'.className?) rows entries ∧
      List.Forall₂ (fun r e => r.2.mapEntryOf? p'.types r.1 = some e) g.writtenFrames entries := by
  obtain ⟨ps, p₁, hps, hret⟩ := returns_bind.1 hret
  obtain ⟨hs₁, hle₁, previous, hprevious, hspelled⟩ := SlotType.verificationTypes_say hp hps
  obtain ⟨hs₂, hle₂, rows, entries, hframes, hrows, hentries⟩ := writeFrames_rows hs₁ hret
  exact ⟨hs₂, ConstantPool.le_trans hle₁ hle₂, ps, previous, rows, entries,
    SlotType.mapTypes_later hle₂.types hprevious, hspelled.later hle₂, hframes, hrows, hentries⟩

end BlockGraph

/-! ## 4. The locals on entry of a method -/

/-- The receiver on entry of a method, which is uninitialized in a constructor. -/
def implicitReceiver (className : String) (access : UInt16) (name : String) : List MapType :=
  if AccessFlags.isStatic access then []
  else if name = "<init>" then [.uninitializedThis]
  else [.object className]

/-- The locals of the frame that is never written: the receiver and the arguments. -/
def implicitLocals? (className : String) (access : UInt16) (name descriptor : String) :
    Option (List MapType) := do
  let type ← (Descriptor.methodType descriptor).toOption
  let arguments ← type.parameters.mapM FieldType.mapType?
  return implicitReceiver className access name ++ arguments

namespace Frame

/-- Values in slots, of which the second ones are passed over. -/
theorem foldl_gatherStep_spread (ts : List SlotType) (done : List SlotType) :
    (spread ts).foldl gatherStep (false, done) = (false, ts.reverse ++ done) := by
  induction ts generalizing done with
  | nil => rfl
  | cons t ts ih =>
    have hstep : spread (t :: ts) = (if t.isWide then [t, .top] else [t]) ++ spread ts := rfl
    have hvalue : (if t.isWide then [t, .top] else [t]).foldl gatherStep (false, done) =
        (false, t :: done) := by
      cases ht : t.isWide <;> simp [gatherStep, ht]
    rw [hstep, List.foldl_append, hvalue, ih, List.reverse_cons, List.append_assoc]
    rfl

theorem foldl_gatherStep_top (n : Nat) (done : List SlotType) :
    (List.replicate n SlotType.top).foldl gatherStep (false, done) =
      (false, List.replicate n SlotType.top ++ done) := by
  induction n generalizing done with
  | zero => rfl
  | succ n ih =>
    rw [List.replicate_succ, List.foldl_cons]
    refine (ih (.top :: done)).trans ?_
    rw [← List.replicate_succ, List.replicate_succ', List.append_assoc]
    rfl

/-- **What has been put into the locals is what is written**, if it can be used. -/
theorem writtenLocals_enteredWith (f : Frame) {ts : List SlotType} (n : Nat) {stack : Array SlotType}
    (hts : ∀ t ∈ ts, t.isTop = false) :
    (f.enteredWith ⟨(spread ts ++ List.replicate n SlotType.top).toArray, stack⟩).writtenLocals =
      ts := by
  have hgather : gatherReversed (spread ts ++ List.replicate n SlotType.top).toArray =
      List.replicate n SlotType.top ++ ts.reverse := by
    unfold gatherReversed
    rw [List.foldl_toArray', List.foldl_append, foldl_gatherStep_spread, foldl_gatherStep_top,
      List.append_nil]
    rfl
  have hdrop : (List.replicate n SlotType.top ++ ts.reverse).dropWhile SlotType.isTop =
      ts.reverse := by
    rw [List.dropWhile_append_of_pos fun t ht => by rw [List.eq_of_mem_replicate ht]; rfl]
    cases hrev : ts.reverse with
    | nil => rfl
    | cons t rest =>
      rw [List.dropWhile_cons_of_neg]
      simp [hts t (List.mem_reverse.1 (hrev ▸ List.mem_cons_self))]
  show ((gatherReversed _).dropWhile SlotType.isTop).reverse = ts
  exact (congrArg (fun l => (l.dropWhile SlotType.isTop).reverse) hgather).trans
    (by rw [hdrop, List.reverse_reverse])

end Frame

/-- The type of a slot that is now, and in every later table, what a field type says. -/
def SlotType.Stands (T : TypeTable) (s : SlotType) (t : Option MapType) : Prop :=
  s.isTop = false ∧ ∀ T', T ≤ T' → s.mapType? T' = t

theorem SlotType.Stands.later {s : SlotType} {t : Option MapType} (hs : s.Stands T t)
    (hle : T ≤ T') : s.Stands T' t :=
  ⟨hs.1, fun T'' hle' => hs.2 T'' (TypeTable.le_trans hle hle')⟩

theorem SlotType.object_stands (hT : T.Sound h) {name : String} {s : SlotType}
    (hret : Returns (SlotType.object name) T s T') :
    T'.Sound h ∧ T ≤ T' ∧ s.Stands T' (some (.object name)) := by
  obtain ⟨hs, hle, ⟨i, rfl, hi⟩, -⟩ := (tame_object name).of_returns hT trivial hret
  refine ⟨hs, hle, rfl, fun T'' hle' => ?_⟩
  exact Option.bind_eq_some_iff.2 ⟨_, hle' _ _ hi, rfl⟩

theorem SlotType.ofFieldType_stands (hT : T.Sound h) {t : FieldType} {s : SlotType}
    (hret : Returns (SlotType.ofFieldType t) T s T') :
    T'.Sound h ∧ T ≤ T' ∧ s.Stands T' t.mapType? := by
  obtain ⟨hs, hle, -, -⟩ := (tame_ofFieldType t).of_returns hT trivial hret
  refine ⟨hs, hle, ?_⟩
  obtain ⟨dimensions, element⟩ := t
  have hdims : ∀ {kind : SlotKind} {T₁ : TypeTable},
      Returns (do
        if 127 < dimensions then throw (.malformedDescriptor (FieldType.mk dimensions element).text)
        return ⟨dimensions, kind⟩ : TypeM SlotType) T₁ s T' → T₁ = T' ∧ s = ⟨dimensions, kind⟩ := by
    intro kind T₁ hret
    split at hret
    · obtain ⟨_, _, hthrow, -⟩ := returns_bind.1 hret
      exact absurd hthrow returns_throw
    · obtain ⟨rfl, rfl⟩ := returns_pure.1 hret
      exact ⟨rfl, rfl⟩
  unfold ofFieldType at hret
  split at hret
  · rename_i base hbase
    obtain ⟨rfl, rfl⟩ := returns_pure.1 hret
    unfold FieldType.base? at hbase
    split at hbase
    · rename_i b hd he
      cases hbase
      obtain rfl : dimensions = 0 := hd
      obtain rfl : element = .base base := he
      refine ⟨?_, fun T' _ => ?_⟩ <;> cases base <;> rfl
    · cases hbase
  · cases element with
    | base type =>
      obtain ⟨_, _, hkind, hret⟩ := returns_bind.1 hret
      obtain ⟨rfl, rfl⟩ := returns_pure.1 hkind
      obtain ⟨rfl, rfl⟩ := hdims hret
      exact ⟨rfl, fun T'' _ => rfl⟩
    | object name =>
      obtain ⟨i, T₁, hintern, hret⟩ := returns_bind.1 hret
      obtain ⟨-, -, hi, -⟩ := (TypeTable.tame_intern _).of_returns hT trivial hintern
      obtain ⟨_, _, hkind, hret⟩ := returns_bind.1 hret
      obtain ⟨rfl, rfl⟩ := returns_pure.1 hkind
      obtain ⟨rfl, rfl⟩ := hdims hret
      refine ⟨rfl, fun T'' hle' => ?_⟩
      show (T''.entries[i]?).bind (fun e => FieldType.mapType? ⟨dimensions, .object e.name⟩) = _
      rw [hle' _ _ hi]
      rfl

theorem SlotType.ofFieldTypes_stand (hT : T.Sound h) {ts : List FieldType} {ss : List SlotType}
    (hret : Returns (ts.mapM SlotType.ofFieldType) T ss T') :
    T'.Sound h ∧ T ≤ T' ∧ List.Forall₂ (fun s t => s.Stands T' (FieldType.mapType? t)) ss ts := by
  induction ts generalizing T ss with
  | nil =>
    rw [List.mapM_nil] at hret
    obtain ⟨rfl, rfl⟩ := returns_pure.1 hret
    exact ⟨hT, TypeTable.le_refl T, .nil⟩
  | cons t ts ih =>
    rw [List.mapM_cons] at hret
    obtain ⟨s, T₁, hs, hret⟩ := returns_bind.1 hret
    obtain ⟨ss', T₂, hss, hret⟩ := returns_bind.1 hret
    obtain ⟨rfl, rfl⟩ := returns_pure.1 hret
    obtain ⟨hT₁, hle₁, hstands⟩ := ofFieldType_stands hT hs
    obtain ⟨hT₂, hle₂, hstand⟩ := ih hT₁ hss
    exact ⟨hT₂, TypeTable.le_trans hle₁ hle₂, .cons (hstands.later hle₂) hstand⟩

theorem receiver_stands (hT : T.Sound h) {className name : String} {access : UInt16}
    {receiver : List SlotType}
    (hret : Returns (if AccessFlags.isStatic access then pure []
      else if name = "<init>" then pure [SlotType.uninitializedThis]
      else do pure [← SlotType.object className] : TypeM (List SlotType)) T receiver T') :
    T'.Sound h ∧ T ≤ T' ∧ Frame.spread receiver = receiver ∧
      List.Forall₂ (fun s m => s.Stands T' (some m)) receiver
        (implicitReceiver className access name) := by
  unfold implicitReceiver
  split_ifs at hret ⊢
  · obtain ⟨rfl, rfl⟩ := returns_pure.1 hret
    exact ⟨hT, TypeTable.le_refl T, rfl, .nil⟩
  · obtain ⟨rfl, rfl⟩ := returns_pure.1 hret
    exact ⟨hT, TypeTable.le_refl T, rfl, .cons ⟨rfl, fun T' _ => rfl⟩ .nil⟩
  · obtain ⟨s, T₁, hs, hret⟩ := returns_bind.1 hret
    obtain ⟨rfl, rfl⟩ := returns_pure.1 hret
    obtain ⟨hs', hle, hstands⟩ := SlotType.object_stands hT hs
    refine ⟨hs', hle, ?_, .cons hstands .nil⟩
    obtain ⟨-, -, ⟨i, rfl, -⟩, -⟩ := (SlotType.tame_object className).of_returns hT trivial hs
    rfl

/-- **The locals on entry of a method are written as its descriptor says.** -/
theorem says_implicitLocals (hT : T.Sound h) {className name descriptor : String} {access : UInt16}
    {maxLocals : UInt16} {locals : Array SlotType}
    (hret : Returns (Frame.methodLocals className access name descriptor maxLocals) T locals T')
    (f : Frame) {T'' : TypeTable} (hle : T' ≤ T'') :
    (f.enteredWith ⟨locals, #[]⟩).writtenLocals.mapM (SlotType.mapType? T'') =
      implicitLocals? className access name descriptor := by
  obtain ⟨receiver, T₁, hreceiver, hret⟩ : ∃ receiver T₁,
      Returns (if AccessFlags.isStatic access then pure []
        else if name = "<init>" then pure [SlotType.uninitializedThis]
        else do pure [← SlotType.object className] : TypeM (List SlotType)) T receiver T₁ ∧
      Returns (do
        let arguments ← (← Descriptor.methodType descriptor).parameters.mapM SlotType.ofFieldType
        let locals := receiver ++ Frame.spread arguments
        return (locals ++ List.replicate (maxLocals.toNat - locals.length) SlotType.top).toArray)
        T₁ locals T' := by
    unfold Frame.methodLocals at hret
    dsimp only at hret
    split_ifs at hret ⊢ <;> exact returns_bind.1 hret
  obtain ⟨hT₁, hle₁, hspread, hreceiver⟩ := receiver_stands hT hreceiver
  obtain ⟨type, T₂, hparse, hret⟩ := returns_bind.1 hret
  obtain ⟨htype, rfl⟩ := returns_lift.1 hparse
  obtain ⟨arguments, T₃, harguments, hret⟩ := returns_bind.1 hret
  obtain ⟨rfl, rfl⟩ := returns_pure.1 hret
  obtain ⟨hT₃, hle₃, harguments⟩ := SlotType.ofFieldTypes_stand hT₁ harguments
  have hspreads : receiver ++ Frame.spread arguments = Frame.spread (receiver ++ arguments) := by
    rw [show Frame.spread (receiver ++ arguments) = Frame.spread receiver ++ Frame.spread arguments
      from List.flatMap_append, hspread]
  obtain ⟨htopr, hreceiver⟩ := (List.forall₂_and_left _ _).1 hreceiver
  obtain ⟨htopa, harguments⟩ := (List.forall₂_and_left _ _).1 harguments
  have hspelled : receiver.mapM (SlotType.mapType? T'') =
      some (implicitReceiver className access name) :=
    mapM_eq_some_iff.2 (hreceiver.imp fun _ _ hs => hs T'' (TypeTable.le_trans hle₃ hle))
  rw [hspreads, Frame.writtenLocals_enteredWith f _ fun t ht =>
    (List.mem_append.1 ht).elim (htopr t) (htopa t), List.mapM_append, hspelled,
    mapM_congr_forall₂ (harguments.imp fun _ _ hs => hs T'' hle)]
  unfold implicitLocals?
  rw [htype]
  rfl

end ClassFile
