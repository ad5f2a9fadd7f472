/-
# Reading a stack map

What a stack map table says: at some positions in the code, which types the locals and the stack
have.  Only the differences are written, so reading starts from the locals on entry of the method
and goes from frame to frame (`StackMap.frames`).

A table that holds the differences between given entries (`MapFrame.relative`) says those entries
again, just if each of its counts fits the two bytes that are there for it
(`decode_relative_iff`).  Nothing else can go wrong: a short form is taken only where it says the
same as the full one (`reads_between`).
-/
import ClassFile.Attribute
import ClassFile.BlockGraph.Frames
import Mathlib.Data.List.Forall2

namespace ClassFile

/-! ## 1. What a stack map says -/

/-- The type of a local or of a stack entry, with classes by their names. -/
inductive MapType where
  | top
  | integer
  | float
  | double
  | long
  | null
  | uninitializedThis
  /-- An object of a class, or an array by its descriptor. -/
  | object (name : String)
  /-- What the `new` instruction at an offset has made. -/
  | uninitialized (offset : UInt16)
  deriving DecidableEq, Repr

/-- What is known at a position in the code. -/
structure MapEntry where
  position : Nat
  locals : List MapType
  stack : List MapType
  deriving DecidableEq, Repr

/-- Can two bytes count its locals, and its stack? -/
def MapEntry.Fits (e : MapEntry) : Prop :=
  e.locals.length ≤ 65535 ∧ e.stack.length ≤ 65535

namespace StackMap

/-- Reading from the front of a list of bytes. -/
abbrev ReadM := StateT (List UInt8) Option

/-- A byte. -/
def byte : ReadM UInt8 := fun
  | [] => none
  | b :: rest => some (b, rest)

/-- A number of two bytes. -/
def word : ReadM Nat := do
  let high ← byte
  let low ← byte
  return 256 * high.toNat + low.toNat

section Reading

variable (classes : ConstantIndex → Option String)

/-- A type: a tag, and for objects the index of a class. -/
def type : ReadM MapType := do
  match (← byte).toNat with
  | 0 => return .top
  | 1 => return .integer
  | 2 => return .float
  | 3 => return .double
  | 4 => return .long
  | 5 => return .null
  | 6 => return .uninitializedThis
  | 7 =>
    match classes (UInt16.ofNat (← word)) with
    | some name => return .object name
    | none => failure
  | 8 => return .uninitialized (UInt16.ofNat (← word))
  | _ => failure

/-- So many types. -/
def types : Nat → ReadM (List MapType)
  | 0 => return []
  | count + 1 => do
    let t ← type classes
    let ts ← types count
    return t :: ts

/-- What follows a tag, in a frame behind one with these locals: the distance, the locals and the
stack.  Tags from 128 to 246 are reserved. -/
def frameOf (previous : List MapType) (tag : Nat) :
    ReadM (Nat × List MapType × List MapType) := do
  if tag < 64 then return (tag, previous, [])
  else if tag < 128 then return (tag - 64, previous, [← type classes])
  else if tag < 247 then failure
  else if tag = 247 then
    let delta ← word
    return (delta, previous, [← type classes])
  else if tag < 251 then
    let delta ← word
    if previous.length < 251 - tag then failure
    else return (delta, previous.take (previous.length - (251 - tag)), [])
  else if tag = 251 then return (← word, previous, [])
  else if tag < 255 then
    let delta ← word
    return (delta, previous ++ (← types classes (tag - 251)), [])
  else
    let delta ← word
    let locals ← types classes (← word)
    let stack ← types classes (← word)
    return (delta, locals, stack)

/-- A frame behind one with these locals. -/
def frame (previous : List MapType) : ReadM (Nat × List MapType × List MapType) := do
  frameOf classes previous (← byte).toNat

/-- The position of a frame at a distance from the one before it. -/
def placeAfter (position : Option Nat) (delta : Nat) : Nat :=
  match position with
  | none => delta
  | some p => p + delta + 1

/-- So many frames, behind one with these locals at that position. -/
def frames : Nat → List MapType → Option Nat → ReadM (List MapEntry)
  | 0, _, _ => return []
  | count + 1, previous, position => do
    let (delta, locals, stack) ← frame classes previous
    let entries ← frames count locals (some (placeAfter position delta))
    return ⟨placeAfter position delta, locals, stack⟩ :: entries

/-- What a table says about a method that is entered with these locals, if it uses up its bytes. -/
def decode (entry : List MapType) (payload : Bytes) : Option (List MapEntry) :=
  let table : ReadM (List MapEntry) := do frames classes (← word) entry none
  match table.run payload.toList with
  | some (entries, []) => some entries
  | _ => none

end Reading

/-! ## 2. What is read back -/

variable {α β : Type}

/-- Bytes that are read as a value, whatever comes behind them. -/
def Reads (m : ReadM α) (bytes : List UInt8) (a : α) : Prop :=
  ∀ rest, m.run (bytes ++ rest) = some (a, rest)

theorem run_bind (m : ReadM α) (f : α → ReadM β) (bytes : List UInt8) :
    (m >>= f).run bytes = (m.run bytes).bind fun r => (f r.1).run r.2 := rfl

theorem Reads.pure (a : α) : Reads (pure a) [] a := fun _ => rfl

theorem Reads.bind {m : ReadM α} {f : α → ReadM β} {bytes bytes' : List UInt8} {a : α} {b : β}
    (hm : Reads m bytes a) (hf : Reads (f a) bytes' b) : Reads (m >>= f) (bytes ++ bytes') b := by
  intro rest
  rw [run_bind, List.append_assoc, hm]
  exact hf rest

/-- Reading on behind what has been read. -/
theorem Reads.run_bind {m : ReadM α} {bytes : List UInt8} {a : α} (hm : Reads m bytes a)
    (f : α → ReadM β) (rest : List UInt8) : (m >>= f).run (bytes ++ rest) = (f a).run rest := by
  rw [StackMap.run_bind, hm]
  rfl

theorem Reads.map {m : ReadM α} {bytes : List UInt8} {a : α} (hm : Reads m bytes a) (f : α → β) :
    Reads (m >>= fun a => Pure.pure (f a)) bytes (f a) := by
  intro rest
  rw [hm.run_bind]
  rfl

theorem reads_byte (b : UInt8) : Reads byte [b] b := fun _ => rfl

theorem reads_word {n : Nat} (hn : n < 65536) : Reads word (wordBytes 2 n) n := by
  have hvalue : 256 * (UInt8.ofNat (n / 256)).toNat + (UInt8.ofNat n).toNat = n := by
    rw [UInt8.toNat_ofNat', UInt8.toNat_ofNat']
    omega
  intro rest
  show some (256 * (UInt8.ofNat (n / 256)).toNat + (UInt8.ofNat n).toNat, rest) = some (n, rest)
  rw [hvalue]

/-- A count of two bytes has lost what did not fit. -/
theorem reads_count (n : Nat) : Reads word (wordBytes 2 (UInt16.ofNat n).toNat) (n % 65536) := by
  have h := reads_word (UInt16.ofNat n).toNat_lt
  rwa [UInt16.toNat_ofNat'] at h ⊢

end StackMap

/-! ## 3. Types -/

namespace VerificationType

/-- The bytes of a type. -/
def bytes (t : VerificationType) : List UInt8 := (t.put .empty).toList

theorem toList_put (b : Bytes) (t : VerificationType) :
    (t.put b).toList = b.toList ++ t.bytes := by
  cases t <;> simp [put, bytes, Bytes.put12, Bytes.empty]

theorem toList_foldl_put (b : Bytes) (ts : List VerificationType) :
    (ts.foldl put b).toList = b.toList ++ ts.flatMap bytes := by
  induction ts generalizing b with
  | nil => simp
  | cons t ts ih => rw [List.foldl_cons, ih, toList_put, List.flatMap_cons, List.append_assoc]

/-- What a type says, where `classes` gives the classes by their indices. -/
def mapType? (classes : ConstantIndex → Option String) : VerificationType → Option MapType
  | top => some .top
  | integer => some .integer
  | float => some .float
  | double => some .double
  | long => some .long
  | null => some .null
  | uninitializedThis => some .uninitializedThis
  | object classRef => (classes classRef).map .object
  | uninitialized offset => some (.uninitialized offset)

end VerificationType

/-- What types say, one by one. -/
def Says (classes : ConstantIndex → Option String) (vs : List VerificationType)
    (ts : List MapType) : Prop :=
  List.Forall₂ (fun v t => v.mapType? classes = some t) vs ts

namespace StackMap

variable {classes : ConstantIndex → Option String}

theorem reads_type {v : VerificationType} {t : MapType} (h : v.mapType? classes = some t) :
    Reads (type classes) v.bytes t := by
  cases v
  case object i =>
    obtain ⟨name, hname, rfl⟩ := Option.map_eq_some_iff.1 h
    intro rest
    have hi := (reads_word i.toNat_lt).run_bind (fun i => match classes (UInt16.ofNat i) with
      | some name => Pure.pure (MapType.object name)
      | none => failure) rest
    rw [UInt16.ofNat_toNat, hname] at hi
    exact hi
  case uninitialized offset =>
    cases h
    intro rest
    have ho := (reads_word offset.toNat_lt).run_bind
      (fun offset => Pure.pure (MapType.uninitialized (UInt16.ofNat offset))) rest
    rw [UInt16.ofNat_toNat] at ho
    exact ho
  all_goals
    cases h
    exact fun rest => rfl

theorem reads_types {vs : List VerificationType} {ts : List MapType} (h : Says classes vs ts) :
    Reads (types classes vs.length) (vs.flatMap VerificationType.bytes) ts := by
  induction h with
  | nil => exact Reads.pure []
  | cons hv _ ih =>
    rw [List.flatMap_cons]
    exact (reads_type hv).bind (ih.map _)

/-- As many types are read as were asked for. -/
theorem length_of_types {count : Nat} {bytes rest : List UInt8} {ts : List MapType}
    (h : (types classes count).run bytes = some (ts, rest)) : ts.length = count := by
  induction count generalizing bytes ts rest with
  | zero =>
    cases h
    rfl
  | succ count ih =>
    unfold types at h
    rw [run_bind] at h
    obtain ⟨⟨t, bytes₁⟩, -, h⟩ := Option.bind_eq_some_iff.1 h
    rw [run_bind] at h
    obtain ⟨⟨ts', bytes₂⟩, hts, h⟩ := Option.bind_eq_some_iff.1 h
    cases h
    rw [List.length_cons, ih hts]

end StackMap

/-! ## 4. Frames -/

namespace MapFrame

/-- The bytes of a frame. -/
def bytes (f : MapFrame) : List UInt8 := (f.put .empty).toList

theorem toList_putTypes (b : Bytes) (ts : List VerificationType) :
    (putTypes b ts).toList = b.toList ++ wordBytes 2 (UInt16.ofNat ts.length).toNat ++
      ts.flatMap VerificationType.bytes := by
  rw [putTypes, VerificationType.toList_foldl_put, Bytes.toList_putU16]

theorem toList_put (b : Bytes) (f : MapFrame) : (f.put b).toList = b.toList ++ f.bytes := by
  cases f <;> simp only [bytes, put]
  case same delta => split <;> simp [Bytes.put12, Bytes.empty]
  case sameOneStack delta stack =>
    rw [VerificationType.toList_put, VerificationType.toList_put]
    split <;> simp [Bytes.put12, Bytes.empty]
  case chop delta count => simp [Bytes.put12, Bytes.empty]
  case append delta locals =>
    simp [VerificationType.toList_foldl_put, Bytes.put12, Bytes.empty]
  case full delta locals stack => simp [toList_putTypes, Bytes.put12, Bytes.empty]

theorem bytes_same (delta : UInt16) : (same delta).bytes =
    if delta ≤ 63 then [delta.toUInt8] else 251 :: wordBytes 2 delta.toNat := by
  simp only [bytes, put]
  split <;> rfl

theorem bytes_sameOneStack (delta : UInt16) (stack : VerificationType) :
    (sameOneStack delta stack).bytes =
      if delta ≤ 63 then (delta.toUInt8 + 64) :: stack.bytes
      else 247 :: (wordBytes 2 delta.toNat ++ stack.bytes) := by
  simp only [bytes, put]
  rw [VerificationType.toList_put]
  split <;> rfl

theorem bytes_append (delta : UInt16) (locals : List VerificationType) :
    (append delta locals).bytes = (251 + UInt8.ofNat locals.length) :: (wordBytes 2 delta.toNat ++
      locals.flatMap VerificationType.bytes) := by
  simp only [bytes, put]
  rw [VerificationType.toList_foldl_put]
  rfl

theorem bytes_full (delta : UInt16) (locals stack : List VerificationType) :
    (full delta locals stack).bytes = 255 :: (wordBytes 2 delta.toNat ++
      (wordBytes 2 (UInt16.ofNat locals.length).toNat ++
        (locals.flatMap VerificationType.bytes ++
          (wordBytes 2 (UInt16.ofNat stack.length).toNat ++
            stack.flatMap VerificationType.bytes)))) := by
  simp only [bytes, put]
  simp [toList_putTypes, Bytes.put12, Bytes.empty]

/-- Do the numbers of types fit the two bytes that are there for them? -/
def Fits : MapFrame → Prop
  | full _ locals stack => locals.length ≤ 65535 ∧ stack.length ≤ 65535
  | _ => True

end MapFrame

namespace StackMap

variable {classes : ConstantIndex → Option String} {previous : List MapType}

theorem reads_frame (tag : UInt8) {bytes : List UInt8}
    {r : Nat × List MapType × List MapType}
    (h : Reads (frameOf classes previous tag.toNat) bytes r) :
    Reads (frame classes previous) (tag :: bytes) r := by
  intro rest
  exact ((reads_byte tag).run_bind _ (bytes ++ rest)).trans (h rest)

theorem toNat_toUInt8 {delta : UInt16} (h : delta ≤ 63) : delta.toUInt8.toNat = delta.toNat := by
  have : delta.toNat ≤ 63 := h
  rw [UInt16.toNat_toUInt8]
  omega

theorem reads_same (delta : UInt16) :
    Reads (frame classes previous) (MapFrame.same delta).bytes (delta.toNat, previous, []) := by
  rw [MapFrame.bytes_same]
  split
  · rename_i hshort
    have hlt : delta.toNat < 64 := Nat.lt_succ_of_le hshort
    refine reads_frame _ ?_
    rw [toNat_toUInt8 hshort, frameOf, if_pos hlt]
    exact Reads.pure _
  · exact reads_frame 251
      ((reads_word delta.toNat_lt).map fun d => (d, previous, []))

theorem reads_sameOneStack (delta : UInt16) {v : VerificationType} {t : MapType}
    (h : v.mapType? classes = some t) :
    Reads (frame classes previous) (MapFrame.sameOneStack delta v).bytes
      (delta.toNat, previous, [t]) := by
  rw [MapFrame.bytes_sameOneStack]
  split
  · rename_i hshort
    have hlt : delta.toNat < 64 := Nat.lt_succ_of_le hshort
    have htag : (delta.toUInt8 + 64).toNat = delta.toNat + 64 := by
      rw [UInt8.toNat_add, toNat_toUInt8 hshort]
      exact Nat.mod_eq_of_lt (show delta.toNat + 64 < 256 by omega)
    refine reads_frame _ ?_
    rw [htag, frameOf, if_neg (by omega), if_pos (by omega), Nat.add_sub_cancel]
    exact (reads_type h).map fun t => (delta.toNat, previous, [t])
  · have hrest : Reads (word >>= fun d => type classes >>= fun t => pure (d, previous, [t]))
        (wordBytes 2 delta.toNat ++ v.bytes) (delta.toNat, previous, [t]) :=
      Reads.bind (reads_word delta.toNat_lt) ((reads_type h).map fun t => (delta.toNat, previous, [t]))
    exact reads_frame 247 hrest

theorem reads_chop (delta : UInt16) {count : Nat} (hpos : 0 < count) (hle : count ≤ 3)
    (hprevious : count ≤ previous.length) :
    Reads (frame classes previous) (MapFrame.chop delta (UInt8.ofNat count)).bytes
      (delta.toNat, previous.take (previous.length - count), []) := by
  have htag : (251 - UInt8.ofNat count).toNat = 251 - count := by
    obtain rfl | rfl | rfl : count = 1 ∨ count = 2 ∨ count = 3 := by omega
    all_goals rfl
  refine reads_frame (251 - UInt8.ofNat count) ?_
  rw [htag, frameOf, if_neg (by omega), if_neg (by omega), if_neg (by omega), if_neg (by omega),
    if_pos (by omega)]
  have hcount : 251 - (251 - count) = count := by omega
  simp only [hcount, if_neg (Nat.not_lt_of_le hprevious)]
  exact (reads_word delta.toNat_lt).map fun d => (d, previous.take (previous.length - count), [])

theorem reads_append (delta : UInt16) {vs : List VerificationType} {ts : List MapType}
    (h : Says classes vs ts) (hpos : 0 < vs.length) (hle : vs.length ≤ 3) :
    Reads (frame classes previous) (MapFrame.append delta vs).bytes
      (delta.toNat, previous ++ ts, []) := by
  have htag : (251 + UInt8.ofNat vs.length).toNat = 251 + vs.length := by
    obtain hn | hn | hn : vs.length = 1 ∨ vs.length = 2 ∨ vs.length = 3 := by omega
    all_goals
      rw [hn]
      rfl
  rw [MapFrame.bytes_append]
  refine reads_frame _ ?_
  rw [htag, frameOf, if_neg (by omega), if_neg (by omega), if_neg (by omega), if_neg (by omega),
    if_neg (by omega), if_neg (by omega), if_pos (by omega), Nat.add_sub_cancel_left]
  exact (reads_word delta.toNat_lt).bind
    ((reads_types h).map fun ts => (delta.toNat, previous ++ ts, []))

theorem reads_full (delta : UInt16) {vs ws : List VerificationType} {ts us : List MapType}
    (hlocals : Says classes vs ts) (hstack : Says classes ws us)
    (hfits : (MapFrame.full delta vs ws).Fits) :
    Reads (frame classes previous) (MapFrame.full delta vs ws).bytes (delta.toNat, ts, us) := by
  have hcount : ∀ {n : Nat}, n ≤ 65535 → Reads word (wordBytes 2 (UInt16.ofNat n).toNat) n := by
    intro n hn
    have h := reads_count n
    rwa [Nat.mod_eq_of_lt (Nat.lt_succ_of_le hn)] at h
  rw [MapFrame.bytes_full]
  have hstack' : Reads (word >>= fun n => types classes n >>= fun s => pure (delta.toNat, ts, s))
      (wordBytes 2 (UInt16.ofNat ws.length).toNat ++ ws.flatMap VerificationType.bytes)
      (delta.toNat, ts, us) :=
    Reads.bind (hcount hfits.2) ((reads_types hstack).map fun s => (delta.toNat, ts, s))
  have hlocals' : Reads (word >>= fun n => types classes n >>= fun l => word >>= fun m =>
        types classes m >>= fun s => pure (delta.toNat, l, s)) _ (delta.toNat, ts, us) :=
    Reads.bind (hcount hfits.1) (Reads.bind (reads_types hlocals) hstack')
  have hall : Reads (word >>= fun d => word >>= fun n => types classes n >>= fun l =>
        word >>= fun m => types classes m >>= fun s => pure (d, l, s)) _ (delta.toNat, ts, us) :=
    Reads.bind (reads_word delta.toNat_lt) hlocals'
  exact reads_frame 255 hall

theorem word_lt {n : Nat} {bytes rest : List UInt8} (h : word.run bytes = some (n, rest)) :
    n < 65536 := by
  match bytes, h with
  | b :: c :: bytes, h =>
    cases h
    have := b.toNat_lt
    have := c.toNat_lt
    omega

/-- The numbers of types that a full frame can have. -/
theorem lengths_of_full {bytes rest : List UInt8} {d : Nat} {ts us : List MapType}
    (h : (frame classes previous).run (255 :: bytes) = some ((d, ts, us), rest)) :
    ts.length ≤ 65535 ∧ us.length ≤ 65535 := by
  have h' : (word >>= fun d => word >>= fun n => types classes n >>= fun l =>
      word >>= fun m => types classes m >>= fun s => pure (d, l, s) : ReadM _).run bytes =
      some ((d, ts, us), rest) := h
  rw [run_bind] at h'
  obtain ⟨⟨d', bytes₁⟩, -, h'⟩ := Option.bind_eq_some_iff.1 h'
  rw [run_bind] at h'
  obtain ⟨⟨n, bytes₂⟩, hn, h'⟩ := Option.bind_eq_some_iff.1 h'
  rw [run_bind] at h'
  obtain ⟨⟨l, bytes₃⟩, hl, h'⟩ := Option.bind_eq_some_iff.1 h'
  rw [run_bind] at h'
  obtain ⟨⟨m, bytes₄⟩, hm, h'⟩ := Option.bind_eq_some_iff.1 h'
  rw [run_bind] at h'
  obtain ⟨⟨s, bytes₅⟩, hs, h'⟩ := Option.bind_eq_some_iff.1 h'
  cases h'
  exact ⟨Nat.le_of_lt_succ (length_of_types hl ▸ word_lt hn),
    Nat.le_of_lt_succ (length_of_types hs ▸ word_lt hm)⟩

/-! ## 5. The shortest frame -/

theorem says_unique {vs : List VerificationType} {ts us : List MapType} (h : Says classes vs ts)
    (h' : Says classes vs us) : ts = us :=
  List.right_unique_forall₂' (fun _ _ _ h h' => Option.some.inj (h.symm.trans h')) h h'

/-- **The shortest frame says what it was made from**, if its numbers of types fit. -/
theorem reads_between (delta : UInt16) {ps vs ws : List VerificationType} {ts us : List MapType}
    (hprevious : Says classes ps previous) (hlocals : Says classes vs ts)
    (hstack : Says classes ws us) (hfits : (MapFrame.between ps vs ws delta).Fits) :
    Reads (frame classes previous) (MapFrame.between ps vs ws delta).bytes
      (delta.toNat, ts, us) := by
  have hlength := hprevious.length_eq
  unfold MapFrame.between at hfits ⊢
  dsimp only at hfits ⊢
  split at hfits
  · cases hstack
    split_ifs at hfits ⊢ with hsame hchop happend
    · subst hsame
      rw [says_unique hlocals hprevious]
      exact reads_same delta
    · obtain ⟨hlt, hle, hprefix⟩ := hchop
      obtain ⟨rest, rfl⟩ := List.isPrefixOf_iff_prefix.1 hprefix
      have htake := List.forall₂_take vs.length hprevious
      rw [List.take_left] at htake
      rw [says_unique hlocals htake]
      have hread : Reads (frame classes previous) _ _ :=
        reads_chop delta (Nat.sub_pos_of_lt hlt) hle (by omega)
      rwa [show previous.length - ((vs ++ rest).length - vs.length) = vs.length by omega] at hread
    · obtain ⟨hlt, hle, hprefix⟩ := happend
      obtain ⟨rest, rfl⟩ := List.isPrefixOf_iff_prefix.1 hprefix
      have htake := List.forall₂_take ps.length hlocals
      have hdrop := List.forall₂_drop ps.length hlocals
      rw [List.take_left] at htake
      rw [List.length_append] at hlt hle
      have hts : ts = previous ++ ts.drop ps.length := by
        rw [says_unique hprevious htake, List.take_append_drop]
      have happend : Reads (frame classes previous) _ _ := reads_append delta hdrop ?_ ?_
      · rwa [← hts] at happend
      · rw [List.drop_left]
        omega
      · rw [List.drop_left]
        omega
    · exact reads_full delta hlocals .nil hfits
  · rename_i w
    obtain ⟨t, hw, rfl⟩ : ∃ t, w.mapType? classes = some t ∧ us = [t] := by
      cases hstack with
      | cons hw hrest =>
        cases hrest
        exact ⟨_, hw, rfl⟩
    split_ifs at hfits ⊢ with hsame
    · subst hsame
      rw [says_unique hlocals hprevious]
      exact reads_sameOneStack delta hw
    · exact reads_full delta hlocals hstack hfits
  · exact reads_full delta hlocals hstack hfits

/-- Numbers that do not fit are in a full frame. -/
theorem between_cases (delta : UInt16) (ps vs ws : List VerificationType) :
    MapFrame.between ps vs ws delta = .full delta vs ws ∨
      (MapFrame.between ps vs ws delta).Fits := by
  unfold MapFrame.between
  dsimp only
  split
  · split_ifs
    · exact .inr trivial
    · exact .inr trivial
    · exact .inr trivial
    · exact .inl rfl
  · split_ifs
    · exact .inr trivial
    · exact .inl rfl
  · exact .inl rfl

/-- A frame that says what it was made from fits. -/
theorem fits_of_between {delta : UInt16} {ps vs ws : List VerificationType} {ts us : List MapType}
    (hlocals : Says classes vs ts) (hstack : Says classes ws us) {rest rest' : List UInt8} {d : Nat}
    (h : (frame classes previous).run ((MapFrame.between ps vs ws delta).bytes ++ rest) =
      some ((d, ts, us), rest')) : (MapFrame.between ps vs ws delta).Fits := by
  rcases between_cases delta ps vs ws with hfull | hfits
  · rw [hfull, MapFrame.bytes_full] at h
    rw [hfull]
    obtain ⟨hts, hus⟩ := lengths_of_full h
    exact ⟨hlocals.length_eq ▸ hts, hstack.length_eq ▸ hus⟩
  · exact hfits

end StackMap

/-! ## 6. The whole table -/

/-- An entry before it is written: its position and its types. -/
structure MapRow where
  position : Nat
  locals : List VerificationType
  stack : List VerificationType

/-- Each row relative to the one before it, behind a frame with these locals at that position. -/
def MapFrame.relative (previous : List VerificationType) (position : Option Nat) :
    List MapRow → List MapFrame
  | [] => []
  | r :: rows =>
    between previous r.locals r.stack (BlockGraph.offsetDelta position r.position) ::
      relative r.locals (some r.position) rows

/-- What a row says. -/
structure MapRow.Says (classes : ConstantIndex → Option String) (r : MapRow) (e : MapEntry) :
    Prop where
  position : r.position = e.position
  locals : ClassFile.Says classes r.locals e.locals
  stack : ClassFile.Says classes r.stack e.stack

/-- Rows whose positions go up, behind that position, and fit two bytes. -/
def MapRow.Ascending : Option Nat → List MapRow → Prop
  | _, [] => True
  | position, r :: rows =>
    (∀ p, position = some p → p < r.position) ∧ r.position ≤ 65535 ∧
      Ascending (some r.position) rows

namespace StackMap

variable {classes : ConstantIndex → Option String} {previous : List MapType}

/-- **No distance underflows**: it leads from the one position to the other. -/
theorem place_offsetDelta {position : Option Nat} {place : Nat} (hle : place ≤ 65535)
    (hlt : ∀ p, position = some p → p < place) :
    placeAfter position (BlockGraph.offsetDelta position place).toNat = place := by
  have hplace : (UInt16.ofNat place).toNat = place :=
    UInt16.toNat_ofNat_of_lt' (Nat.lt_succ_of_le hle)
  cases position with
  | none => exact hplace
  | some p =>
    have hp := hlt p rfl
    have hp' : (UInt16.ofNat p).toNat = p :=
      UInt16.toNat_ofNat_of_lt' (Nat.lt_succ_of_le (Nat.le_trans (Nat.le_of_lt hp) hle))
    have hsub : (UInt16.ofNat place - UInt16.ofNat p).toNat = place - p := by
      rw [UInt16.toNat_sub_of_le _ _ (UInt16.le_iff_toNat_le.2 (by omega)), hplace, hp']
    have hone : (UInt16.ofNat place - UInt16.ofNat p - 1).toNat = place - p - 1 := by
      rw [UInt16.toNat_sub_of_le _ _ (UInt16.le_iff_toNat_le.2 (by
        rw [hsub]
        exact Nat.sub_pos_of_lt hp)), hsub]
      rfl
    show p + (UInt16.ofNat place - UInt16.ofNat p - 1).toNat + 1 = place
    rw [hone]
    omega

theorem frames_succ (classes : ConstantIndex → Option String) (count : Nat)
    (previous : List MapType) (position : Option Nat) :
    frames classes (count + 1) previous position = frame classes previous >>= fun r =>
      frames classes count r.2.1 (some (placeAfter position r.1)) >>= fun entries =>
        pure (⟨placeAfter position r.1, r.2.1, r.2.2⟩ :: entries) := rfl

/-- The frames of rows are read as what the rows say. -/
theorem reads_frames {ps : List VerificationType} {position : Option Nat} {rows : List MapRow}
    {entries : List MapEntry} (hprevious : Says classes ps previous)
    (hrows : List.Forall₂ (MapRow.Says classes) rows entries)
    (hup : MapRow.Ascending position rows)
    (hfits : ∀ f ∈ MapFrame.relative ps position rows, f.Fits) :
    Reads (frames classes rows.length previous position)
      ((MapFrame.relative ps position rows).flatMap MapFrame.bytes) entries := by
  induction hrows generalizing ps previous position with
  | nil => exact Reads.pure []
  | @cons r e rows entries hr _ ih =>
    obtain ⟨hlt, hle, hup⟩ := hup
    obtain ⟨place, locals, stack⟩ := e
    obtain ⟨rfl, hlocals, hstack⟩ := hr
    rw [MapFrame.relative, List.forall_mem_cons] at hfits
    have hframe := reads_between (BlockGraph.offsetDelta position r.position) hprevious hlocals
      hstack hfits.1
    rw [MapFrame.relative, List.flatMap_cons, List.length_cons, frames_succ]
    refine hframe.bind ?_
    rw [place_offsetDelta hle hlt]
    exact (ih hlocals hup hfits.2).map fun entries => ⟨r.position, locals, stack⟩ :: entries

/-- As many frames are read as were asked for. -/
theorem length_of_frames {count : Nat} {position : Option Nat} {bytes rest : List UInt8}
    {entries : List MapEntry}
    (h : (frames classes count previous position).run bytes = some (entries, rest)) :
    entries.length = count := by
  induction count generalizing previous position bytes entries rest with
  | zero =>
    cases h
    rfl
  | succ count ih =>
    rw [frames_succ, run_bind] at h
    obtain ⟨⟨r, bytes₁⟩, -, h⟩ := Option.bind_eq_some_iff.1 h
    rw [run_bind] at h
    obtain ⟨⟨entries', bytes₂⟩, hentries, h⟩ := Option.bind_eq_some_iff.1 h
    cases h
    rw [List.length_cons, ih hentries]

/-- Frames that are read as what the rows say fit. -/
theorem fits_of_frames {ps : List VerificationType} {position : Option Nat} {rows : List MapRow}
    {entries : List MapEntry} (hprevious : Says classes ps previous)
    (hrows : List.Forall₂ (MapRow.Says classes) rows entries)
    (hup : MapRow.Ascending position rows) {rest rest' : List UInt8}
    (h : (frames classes rows.length previous position).run
      ((MapFrame.relative ps position rows).flatMap MapFrame.bytes ++ rest) =
        some (entries, rest')) :
    ∀ f ∈ MapFrame.relative ps position rows, f.Fits := by
  induction hrows generalizing ps previous position with
  | nil => simp [MapFrame.relative]
  | @cons r e rows entries hr _ ih =>
    obtain ⟨hlt, hle, hup⟩ := hup
    obtain ⟨place, locals, stack⟩ := e
    obtain ⟨rfl, hlocals, hstack⟩ := hr
    rw [MapFrame.relative, List.flatMap_cons, List.length_cons, frames_succ, List.append_assoc,
      run_bind] at h
    obtain ⟨⟨⟨d, ts, us⟩, bytes₁⟩, hframe, h⟩ := Option.bind_eq_some_iff.1 h
    rw [run_bind] at h
    obtain ⟨⟨entries', bytes₂⟩, hentries, h⟩ := Option.bind_eq_some_iff.1 h
    obtain ⟨hentry, rfl⟩ := Prod.mk.inj (Option.some.inj h)
    obtain ⟨he, rfl⟩ := List.cons.inj hentry
    obtain ⟨-, rfl, rfl⟩ := MapEntry.mk.inj he
    have hfits := fits_of_between hlocals hstack hframe
    have hread := reads_between (BlockGraph.offsetDelta position r.position) hprevious hlocals
      hstack hfits _ |>.symm.trans hframe
    cases hread
    rw [place_offsetDelta hle hlt] at hentries
    rw [MapFrame.relative, List.forall_mem_cons]
    exact ⟨hfits, ih hlocals hup hentries⟩

theorem toList_foldl_put (b : Bytes) (fs : List MapFrame) :
    (fs.foldl MapFrame.put b).toList = b.toList ++ fs.flatMap MapFrame.bytes := by
  induction fs generalizing b with
  | nil => simp
  | cons f fs ih =>
    rw [List.foldl_cons, ih, MapFrame.toList_put, List.flatMap_cons, List.append_assoc]

/-- Frames fit if all the locals and the stacks that they say do. -/
theorem fits_relative {rows : List MapRow} {entries : List MapEntry}
    (hrows : List.Forall₂ (MapRow.Says classes) rows entries) (hfits : ∀ e ∈ entries, e.Fits)
    (ps : List VerificationType) (position : Option Nat) :
    ∀ f ∈ MapFrame.relative ps position rows, f.Fits := by
  induction hrows generalizing ps position with
  | nil => simp [MapFrame.relative]
  | @cons r e rows entries hr _ ih =>
    obtain ⟨hlocals, hstack⟩ := hfits e List.mem_cons_self
    rw [MapFrame.relative, List.forall_mem_cons]
    refine ⟨?_, ih (fun e he => hfits e (List.mem_cons_of_mem _ he)) _ _⟩
    rcases between_cases (BlockGraph.offsetDelta position r.position) ps r.locals r.stack with
      hfull | hshort
    · rw [hfull]
      exact ⟨hr.locals.length_eq ▸ hlocals, hr.stack.length_eq ▸ hstack⟩
    · exact hshort

theorem length_relative (ps : List VerificationType) (position : Option Nat) (rows : List MapRow) :
    (MapFrame.relative ps position rows).length = rows.length := by
  induction rows generalizing ps position with
  | nil => rfl
  | cons r rows ih => rw [MapFrame.relative, List.length_cons, ih, List.length_cons]

/-- **A table says the entries that it was made from**, just if all its counts fit two bytes. -/
theorem decode_relative_iff {ps : List VerificationType} {rows : List MapRow}
    {entries : List MapEntry} (hentry : Says classes ps previous)
    (hrows : List.Forall₂ (MapRow.Says classes) rows entries)
    (hup : MapRow.Ascending none rows) :
    decode classes previous (Attribute.stackMapTable (MapFrame.relative ps none rows)).payload =
        some entries ↔
      entries.length ≤ 65535 ∧ ∀ f ∈ MapFrame.relative ps none rows, f.Fits := by
  have hlength := hrows.length_eq
  have hbytes : (Attribute.stackMapTable (MapFrame.relative ps none rows)).payload.toList =
      wordBytes 2 (UInt16.ofNat entries.length).toNat ++
        (MapFrame.relative ps none rows).flatMap MapFrame.bytes := by
    rw [Attribute.payload, Attribute.putTable, toList_foldl_put, Bytes.toList_putU16,
      length_relative, hlength]
    rfl
  have hrun := (reads_count entries.length).run_bind
    (fun count => frames classes count previous none)
    ((MapFrame.relative ps none rows).flatMap MapFrame.bytes)
  unfold decode
  rw [hbytes]
  dsimp only
  rw [hrun]
  constructor
  · intro h
    split at h
    · rename_i entries' hframes
      cases h
      have hcount := length_of_frames hframes
      rw [← hcount, ← hlength, ← List.append_nil (List.flatMap _ _)] at hframes
      exact ⟨by omega, fits_of_frames hentry hrows hup hframes⟩
    · cases h
  · rintro ⟨hle, hfits⟩
    have hread := reads_frames hentry hrows hup hfits []
    rw [List.append_nil] at hread
    rw [Nat.mod_eq_of_lt (Nat.lt_succ_of_le hle), ← hlength, hread]

end StackMap

end ClassFile
