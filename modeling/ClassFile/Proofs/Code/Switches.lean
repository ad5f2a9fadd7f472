/-
# Switches read back

A switch is written with what it says itself, its opcode, its bounds or its keys, and with operands that
hold the distances to its targets.  What it says itself is overwritten by no label (`Assembler.Fixed`), since
labels fill in operands only, and the operands hold the right distances once the method has ended
(`Laying.holds`).  So a switch of a method that has been written is decoded where it was written, and
decoding goes on where the next instruction was written (`switches_readBack`), if the number of targets of a
`tableswitch` is that of its keys.  Writing does not check this, and where it is not so, targets are read as
instructions.

The padding in front of the operands is not looked at by either side.
-/
import ClassFile.Proofs.ClassBytes.Loadable
import ClassFile.Proofs.Code.Body
import ClassFile.Proofs.Code.Linking

namespace ClassFile

/-- Bytes that stand inside of others. -/
theorem Bytes.Has.within {b code : Bytes} {offset o : Nat} {l : List UInt8}
    (h : b.Has offset code.toList) (h' : code.Has o l) : b.Has (offset + o) l := by
  obtain ⟨before, after, hb, rfl⟩ := h
  obtain ⟨before', after', hcode, rfl⟩ := h'
  refine ⟨before ++ before', after' ++ after, ?_, List.length_append⟩
  rw [hb, hcode]
  simp only [List.append_assoc]

/-- A switch whose entries can be counted: a `tableswitch` has a target for each key from its lower bound up
to its upper one. -/
def Instruction.CountedSwitch {τ : Type} : Instruction τ → Prop
  | .tableSwitch low high _ targets =>
    targets ≠ [] ∧ (targets.length : Int) = high.toInt - low.toInt + 1
  | .lookupSwitch .. => True
  | _ => False

/-- All of them can be read. -/
theorem Bytes.Has.bytesAt_within {b code : Bytes} {start o n : Nat} (h : b.Has start code.toList)
    (ho : o + n ≤ start + code.size) : ∃ s, b.bytesAt o n = .ok s := by
  have hsize := h.le_size
  rw [Array.length_toList] at hsize
  unfold Bytes.bytesAt Bytes.slice?
  rw [if_pos (by omega)]
  exact ⟨_, rfl⟩

namespace Assembler

variable {a a' : Assembler} {offset : Nat} {bs : List UInt8} {new : List (Label × Reference)} {l : Label}

/-! ## 1. Bytes that labels leave alone -/

/-- Bytes of the code that no room for the distance to a label overlaps with. -/
structure Fixed (a : Assembler) (offset : Nat) (bs : List UInt8) : Prop where
  has : a.code.Has offset bs
  apart : ∀ l, ∀ r ∈ a.room l, r.stop ≤ offset ∨ offset + bs.length ≤ r.operand

/-- All room lies in the code. -/
def Roomy (a : Assembler) : Prop := ∀ l, ∀ r ∈ a.room l, r.stop ≤ a.code.size

theorem Laid.roomy {ops : List (Label × Reference)} (h : a.Laid ops) : a.Roomy := fun l r hr =>
  (h.inside _ (h.waiting l r hr).1).2

theorem Roomy.writes (h : a.Roomy) (hw : Writes new a a') : a'.Roomy := fun l r hr => by
  rcases (hw.room l r).1 hr with hr | ⟨hnew, -⟩
  · exact Nat.le_trans (h l r hr) hw.size_le
  · exact (hw.behind _ hnew).2

/-- What is written behind them leaves them alone. -/
theorem Fixed.writes (h : a.Fixed offset bs) (hw : Writes new a a') : a'.Fixed offset bs where
  has := h.has.appended hw.code
  apart l r hr := by
    rcases (hw.room l r).1 hr with hr | ⟨hnew, -⟩
    · exact h.apart l r hr
    · exact .inr (Nat.le_trans h.has.le_size (hw.behind _ hnew).1)

/-- What is put behind the code is fixed. -/
theorem fixed_put (h : a.Roomy) {f : Bytes → Bytes} (hf : (f a.code).toList = a.code.toList ++ bs) :
    (a.put f).Fixed a.code.size bs where
  has := ⟨a.code.toList, [], by rw [List.append_nil]; exact hf, Array.length_toList⟩
  apart l r hr := .inl (h l r hr)

theorem has_fillAll {place : Nat} {rs : List Reference} {code code' : Bytes}
    (hfill : rs.foldlM (fill place) code = .ok code') (hcode : code.Has offset bs)
    (hapart : ∀ r ∈ rs, r.stop ≤ offset ∨ offset + bs.length ≤ r.operand) : code'.Has offset bs := by
  induction rs generalizing code with
  | nil =>
    cases hfill
    exact hcode
  | cons r rs ih =>
    rw [List.foldlM_cons] at hfill
    obtain ⟨code₁, hr, hrs⟩ := bind_eq_ok_iff.1 hfill
    obtain ⟨-, rfl⟩ := fill_eq_ok_iff.1 hr
    refine ih hrs (hcode.setList_apart ?_) fun r' hr' => hapart r' (List.mem_cons_of_mem _ hr')
    rw [r.length_bytes]
    exact hapart r List.mem_cons_self

/-- **Placing a label** leaves them alone. -/
theorem Fixed.placeLabel (h : a.Fixed offset bs) (hplace : a.placeLabel l = .ok a') :
    a'.Fixed offset bs := by
  obtain ⟨code, places, waiting⟩ := a
  obtain ⟨code', hfill, hdone⟩ := bind_eq_ok_iff.1 hplace
  cases hdone
  refine ⟨has_fillAll hfill h.has fun r hr => h.apart l r (List.mem_reverse.1 hr), fun k r hr => ?_⟩
  rw [show Assembler.room ⟨code', places.insert l code.size, waiting.erase l⟩ k =
    if l == k then [] else waiting.getD k [] from Std.HashMap.getD_erase] at hr
  split at hr
  · exact absurd hr List.not_mem_nil
  · exact h.apart k r hr

/-! ## 2. What a switch says itself -/

/-- The opcode of a switch, once the distance of its default has been put behind it. -/
theorem fixed_switchHead (h : a.Roomy) (op : UInt8) (default : Label) :
    ((a.put fun b => (b.putU8 op).align4).putDistance a.code.size default).Fixed a.code.size [op] ∧
      ((a.put fun b => (b.putU8 op).align4).putDistance a.code.size default).Roomy := by
  have hop : (a.put fun b => b.putU8 op).Fixed a.code.size [op] :=
    fixed_put h (Bytes.toList_putU8 a.code op)
  have halign : Writes [] (a.put fun b => b.putU8 op) (a.put fun b => (b.putU8 op).align4) :=
    writes_put (a.put fun b => b.putU8 op) (Bytes.prefix_align4 _)
  have hdefault := (writes_putDistance a.code.size (a.put fun b => (b.putU8 op).align4) default).1
  exact ⟨(hop.writes halign).writes hdefault, h.writes (writes_switchHead op default a).1⟩

theorem fixed_putTableSwitch (h : a.Roomy) (low high : Int32) (default : Label) (targets : List Label) :
    (putTableSwitch low high default targets a).Fixed a.code.size [Opcode.tableswitch] ∧
      (putTableSwitch low high default targets a).Fixed (switchStart a.code.size + 4)
        (wordBytes 4 low.toUInt32.toNat ++ wordBytes 4 high.toUInt32.toNat) := by
  obtain ⟨hop, hroomy⟩ := fixed_switchHead h Opcode.tableswitch default
  have hsize := (writes_switchHead Opcode.tableswitch default a).2
  unfold putTableSwitch
  dsimp only
  generalize (a.put fun b => (b.putU8 Opcode.tableswitch).align4).putDistance a.code.size default
    = a₁ at hop hroomy hsize ⊢
  have hbounds : Writes [] a₁ (a₁.put fun b => (b.putI32 low).putI32 high) :=
    writes_put a₁ ((a₁.code.prefix_putI32 low).trans (Bytes.prefix_putI32 _ high))
  have hall := writes_putDistances a.code.size targets (a₁.put fun b => (b.putI32 low).putI32 high)
  have hfixed : (a₁.put fun b => (b.putI32 low).putI32 high).Fixed a₁.code.size
      (wordBytes 4 low.toUInt32.toNat ++ wordBytes 4 high.toUInt32.toNat) := fixed_put hroomy <| by
    rw [Bytes.putI32, Bytes.putI32, Bytes.toList_putU32, Bytes.toList_putU32, List.append_assoc]
  rw [hsize] at hfixed
  exact ⟨(hop.writes hbounds).writes hall, hfixed.writes hall⟩

/-- The keys of a `lookupswitch`. -/
theorem fixed_putPairs (source : Nat) (pairs : List (Int32 × Label)) (h : a.Roomy) {i : Nat}
    (hi : i < pairs.length) :
    (pairs.foldl (fun a (key, target) => (a.put fun b => b.putI32 key).putDistance source target)
      a).Fixed (a.code.size + 8 * i) (wordBytes 4 pairs[i].1.toUInt32.toNat) := by
  induction pairs generalizing a i with
  | nil => exact absurd hi (Nat.not_lt_zero i)
  | cons pair pairs ih =>
    have hkey : Writes [] a (a.put fun b => b.putI32 pair.1) := writes_put a (a.code.prefix_putI32 _)
    obtain ⟨hfirst, hsize⟩ := writes_putDistance source (a.put fun b => b.putI32 pair.1) pair.2
    have hput : (a.put fun b => b.putI32 pair.1).code.size = a.code.size + 4 :=
      Bytes.size_putI32 a.code pair.1
    cases i with
    | zero =>
      have hfixed : (a.put fun b => b.putI32 pair.1).Fixed a.code.size
          (wordBytes 4 pair.1.toUInt32.toNat) := fixed_put h (Bytes.toList_putWord a.code 4 _)
      exact (hfixed.writes hfirst).writes (writes_putPairs source pairs _)
    | succ i =>
      have hrest := ih ((h.writes hkey).writes hfirst) (Nat.lt_of_succ_lt_succ hi)
      rw [hsize, hput] at hrest
      have hoffset : a.code.size + 8 * (i + 1) = a.code.size + 4 + 4 + 8 * i := by omega
      rw [hoffset]
      exact hrest

theorem fixed_putLookupSwitch (h : a.Roomy) (default : Label) (pairs : List (Int32 × Label)) :
    (putLookupSwitch default pairs a).Fixed a.code.size [Opcode.lookupswitch] ∧
      (putLookupSwitch default pairs a).Fixed (switchStart a.code.size + 4)
        (wordBytes 4 (Int32.ofInt pairs.length).toUInt32.toNat) ∧
      ∀ i (hi : i < pairs.length), (putLookupSwitch default pairs a).Fixed
        (switchStart a.code.size + 8 + 8 * i) (wordBytes 4 pairs[i].1.toUInt32.toNat) := by
  obtain ⟨hop, hroomy⟩ := fixed_switchHead h Opcode.lookupswitch default
  have hsize := (writes_switchHead Opcode.lookupswitch default a).2
  unfold putLookupSwitch
  dsimp only
  generalize (a.put fun b => (b.putU8 Opcode.lookupswitch).align4).putDistance a.code.size default
    = a₁ at hop hroomy hsize ⊢
  have hcount : Writes [] a₁ (a₁.put fun b => b.putI32 (Int32.ofInt pairs.length)) :=
    writes_put a₁ (a₁.code.prefix_putI32 _)
  have hput : (a₁.put fun b => b.putI32 (Int32.ofInt pairs.length)).code.size =
      switchStart a.code.size + 8 := by
    rw [size_put, Bytes.size_putI32, hsize]
  have hall := writes_putPairs a.code.size pairs (a₁.put fun b => b.putI32 (Int32.ofInt pairs.length))
  have hfixed : (a₁.put fun b => b.putI32 (Int32.ofInt pairs.length)).Fixed a₁.code.size
      (wordBytes 4 (Int32.ofInt pairs.length).toUInt32.toNat) :=
    fixed_put hroomy (Bytes.toList_putWord a₁.code 4 _)
  rw [hsize] at hfixed
  refine ⟨(hop.writes hcount).writes hall, hfixed.writes hall, fun i hi => ?_⟩
  rw [← hput]
  exact fixed_putPairs a.code.size pairs (hroomy.writes hcount) hi

theorem size_putDistances (source : Nat) (ls : List Label) (a : Assembler) :
    (ls.foldl (putDistance source) a).code.size = a.code.size + 4 * ls.length := by
  induction ls generalizing a with
  | nil => rfl
  | cons l ls ih =>
    rw [List.foldl_cons, ih, (writes_putDistance source a l).2, List.length_cons]
    omega

theorem size_putPairs (source : Nat) (pairs : List (Int32 × Label)) (a : Assembler) :
    (pairs.foldl (fun a (key, target) => (a.put fun b => b.putI32 key).putDistance source target)
      a).code.size = a.code.size + 8 * pairs.length := by
  induction pairs generalizing a with
  | nil => rfl
  | cons pair pairs ih =>
    rw [List.foldl_cons, ih, (writes_putDistance source _ pair.2).2, size_put, Bytes.size_putI32,
      List.length_cons]
    omega

/-- What a switch says itself stands in the code, from an offset on, and no label changes it. -/
def Says (a : Assembler) (pc : Nat) : Instruction Label → Prop
  | .tableSwitch low high _ _ => a.Fixed pc [Opcode.tableswitch] ∧
    a.Fixed (switchStart pc + 4) (wordBytes 4 low.toUInt32.toNat ++ wordBytes 4 high.toUInt32.toNat)
  | .lookupSwitch _ keys targets => keys.length = targets.length ∧ a.Fixed pc [Opcode.lookupswitch] ∧
    a.Fixed (switchStart pc + 4) (wordBytes 4 (Int32.ofInt keys.length).toUInt32.toNat) ∧
    ∀ i (hi : i < keys.length),
      a.Fixed (switchStart pc + 8 + 8 * i) (wordBytes 4 keys[i].toUInt32.toNat)
  | _ => True

/-- The number of bytes of a switch behind its opcode. -/
def switchLength (pc : Nat) : Instruction Label → Nat
  | .tableSwitch _ _ _ targets => ClassBytes.switchPadding pc + 12 + 4 * targets.length
  | .lookupSwitch _ keys _ => ClassBytes.switchPadding pc + 8 + 8 * keys.length
  | _ => 0

/-- What is fixed in some code is fixed in a later one. -/
def Keeps (a a' : Assembler) : Prop := ∀ offset bs, a.Fixed offset bs → a'.Fixed offset bs

theorem Says.keeps {pc : Nat} {i : Instruction Label} (h : a.Says pc i) (hkeeps : a.Keeps a') :
    a'.Says pc i := by
  cases i with
  | tableSwitch => exact ⟨hkeeps _ _ h.1, hkeeps _ _ h.2⟩
  | lookupSwitch =>
    obtain ⟨hkeys, hop, hcount, hkey⟩ := h
    exact ⟨hkeys, hkeeps _ _ hop, hkeeps _ _ hcount, fun i hi => hkeeps _ _ (hkey i hi)⟩
  | _ => trivial

variable {p p' : ConstantPool} {around : Bool} {i : Instruction Label}

theorem size_putTableSwitch (low high : Int32) (default : Label) (targets : List Label) :
    (putTableSwitch low high default targets a).code.size =
      a.code.size + 1 + switchLength a.code.size (.tableSwitch low high default targets) := by
  unfold putTableSwitch
  dsimp only
  rw [size_putDistances, size_put, Bytes.size_putI32, Bytes.size_putI32, (writes_switchHead _ _ _).2,
    switchStart, switchLength, ClassBytes.switchPadding]
  omega

/-- **A switch is written with what it says itself**, and with no more than its operands besides. -/
theorem says_encode (h : a.Roomy) (hswitch : i.CountedSwitch)
    (hret : Returns (encode i a) p (around, a') p') :
    a'.Says a.code.size i ∧ a'.code.size = a.code.size + 1 + switchLength a.code.size i := by
  rcases encode_cases hret with ⟨htargets, -⟩ | ⟨op, goal, rfl, -⟩ |
    ⟨low, high, default, targets, rfl, rfl⟩ | ⟨default, keys, targets, rfl, hlength, rfl⟩
  · cases i
    case tableSwitch | lookupSwitch => exact nomatch htargets
    all_goals exact absurd hswitch id
  · exact absurd hswitch id
  · exact ⟨fixed_putTableSwitch h low high default targets, size_putTableSwitch low high default targets⟩
  · obtain ⟨hop, hcount, hkeys⟩ := fixed_putLookupSwitch h default (keys.zip targets)
    have hzip : (keys.zip targets).length = keys.length := by
      rw [List.length_zip, hlength, Nat.min_self]
    refine ⟨⟨hlength, hop, hzip ▸ hcount, fun i hi => ?_⟩, ?_⟩
    · have := hkeys i (hzip ▸ hi)
      rwa [List.getElem_zip] at this
    · unfold putLookupSwitch
      dsimp only
      rw [size_putPairs, size_put, Bytes.size_putI32, (writes_switchHead _ _ _).2, switchStart,
        switchLength, ClassBytes.switchPadding, hzip]
      omega

end Assembler

/-! ## 3. Events that come later -/

namespace MethodWriter

variable {c : ClassContext} {m m' : MethodWriter} {p p' : ConstantPool} {e : MethodEvent}
  {es : List MethodEvent}

/-- **What an event does to the code**: an instruction is encoded, a label is placed, and other events
have no part in it. -/
theorem assembler_event (he : e ≠ .finish) (hret : Returns (m.event c e) p m' p') :
    (∃ i around p₁, e = .instruction i ∧
      Returns (Assembler.encode i m.code.assembler) p (around, m'.code.assembler) p₁) ∨
    (∃ l, e = .label l ∧ m.code.assembler.placeLabel l = .ok m'.code.assembler) ∨
    (∀ i, e ≠ .instruction i) ∧ m'.code.assembler = m.code.assembler := by
  rcases returns_event_parts he hret with ⟨hsame, -, -, hother⟩ | ⟨_, _, _, _, rfl, hrun⟩ |
    ⟨i, rfl, hrun⟩ | ⟨l, rfl, hrun⟩
  · refine .inr (.inr ⟨?_, hsame⟩)
    rintro i rfl
    exact nomatch hother
  · obtain ⟨index, hcode, -⟩ := CodeWriter.returns_handler_parts hrun
    exact .inr (.inr ⟨nofun, by rw [hcode]⟩)
  · obtain ⟨around, a, p₁, -, -, hencode, -, -, rfl, -⟩ := CodeWriter.returns_instruction hrun
    exact .inl ⟨i, around, p₁, rfl, hencode⟩
  · obtain ⟨a, hplace, -, hcode⟩ := CodeWriter.returns_label hrun
    exact .inr (.inl ⟨l, rfl, by rw [hcode, hplace]⟩)

/-- **An event leaves alone what is fixed.** -/
theorem keeps_event (he : e ≠ .finish) (hret : Returns (m.event c e) p m' p') :
    m.code.assembler.Keeps m'.code.assembler := by
  intro offset bs hfixed
  rcases assembler_event he hret with ⟨i, around, p₁, -, hencode⟩ | ⟨l, -, hplace⟩ | ⟨-, heq⟩
  · exact hfixed.writes (Assembler.writes_encode hencode)
  · exact hfixed.placeLabel hplace
  · rwa [heq]

/-- Only instructions make code longer. -/
theorem size_event (he : e ≠ .finish) (hno : ∀ i, e ≠ .instruction i)
    (hret : Returns (m.event c e) p m' p') : m'.code.size = m.code.size := by
  rcases assembler_event he hret with ⟨i, -, -, rfl, -⟩ | ⟨l, -, hplace⟩ | ⟨-, heq⟩
  · exact absurd rfl (hno i)
  · exact (Assembler.placeLabel_ok hplace).1
  · exact congrArg (fun a => a.code.size) heq

/-- **What each event does to the code, all of them do**, one after the other. -/
theorem of_each_event {R : Assembler → Assembler → Prop} (hrefl : ∀ a, R a a)
    (htrans : ∀ {a a' a''}, R a a' → R a' a'' → R a a'')
    (hone : ∀ e ∈ es, ∀ {m m' : MethodWriter} {p p' : ConstantPool}, Returns (m.event c e) p m' p' →
      R m.code.assembler m'.code.assembler)
    (hret : Returns (m.events c es) p m' p') : R m.code.assembler m'.code.assembler := by
  induction es generalizing m p with
  | nil =>
    obtain ⟨rfl, -⟩ := returns_pure.1 hret
    exact hrefl _
  | cons e es ih =>
    obtain ⟨m₁, p₁, he, hes⟩ := returns_events_cons.1 hret
    exact htrans (hone e List.mem_cons_self he)
      (ih (fun e' he' => hone e' (List.mem_cons_of_mem e he')) hes)

theorem keeps_events (hopen : .finish ∉ es) (hret : Returns (m.events c es) p m' p') :
    m.code.assembler.Keeps m'.code.assembler :=
  of_each_event (fun _ _ _ h => h) (fun h h' o bs hfixed => h' o bs (h o bs hfixed))
    (fun _ he => keeps_event fun heq => hopen (heq ▸ he)) hret

theorem size_events (hopen : .finish ∉ es) (hno : ∀ i, .instruction i ∉ es)
    (hret : Returns (m.events c es) p m' p') : m'.code.size = m.code.size :=
  of_each_event (R := fun a a' => a'.code.size = a.code.size) (fun _ => rfl) (fun h h' => h'.trans h)
    (fun _ he => size_event (fun heq => hopen (heq ▸ he)) fun i heq => hno i (heq ▸ he)) hret

theorem size_events_le (hopen : .finish ∉ es) (hret : Returns (m.events c es) p m' p') :
    m.code.size ≤ m'.code.size := by
  refine of_each_event (R := fun a a' => a.code.size ≤ a'.code.size) (fun _ => Nat.le_refl _)
    (fun h h' => Nat.le_trans h h') (fun e he m m' p p' hret => ?_) hret
  rcases assembler_event (fun heq => hopen (heq ▸ he)) hret with
    ⟨i, around, p₁, -, hencode⟩ | ⟨l, -, hplace⟩ | ⟨-, heq⟩
  · exact Nat.le_of_lt (Assembler.encode_extends hencode).2
  · exact Nat.le_of_eq (Assembler.placeLabel_ok hplace).1.symm
  · exact Nat.le_of_eq (congrArg (fun a => a.code.size) heq).symm

end MethodWriter

/-! ## 4. Decoding a switch -/

namespace ClassBytes

variable {b : ClassBytes} {span : CodeSpan} {a : Assembler} {pc : Nat} {place : Label → Nat}

/-- An operand that holds the distance to its label is decoded as the place of the label. -/
theorem targetAt_of_holds (hcode : b.bytes.Has span.start a.code.toList) (hsmall : span.length ≤ 65535)
    (hpc : pc ≤ 65535) {r : Reference} {k o : Nat} (hlong : r.isLong = true) (hsource : r.source = pc)
    (hholds : r.Holds k a.code) (hk : k ≤ span.length) (ho : o = span.start + r.operand) :
    b.targetAt span pc o = .ok k := by
  obtain ⟨-, hhas⟩ := hholds
  unfold Reference.bytes at hhas
  rw [hlong, if_pos rfl] at hhas
  have hdistance : (Int32.ofInt (r.distance k)).toInt = r.distance k := by
    unfold Reference.distance
    rw [Int32.toInt_ofInt_of_le]
    · omega
    · omega
  refine bind_eq_ok_iff.2 ⟨_, ho ▸ (hcode.within hhas).i32At, ?_⟩
  have hplace : (pc : Int) + r.distance k = k := by
    unfold Reference.distance
    omega
  rw [hdistance, target, hplace, if_pos ⟨by omega, by omega⟩, Int.toNat_natCast]

/-- The operands of a switch hold the distances to their labels, which are places of the code. -/
def Held (a : Assembler) (length : Nat) (place : Label → Nat) (ops : List (Label × Reference)) : Prop :=
  ∀ x ∈ ops, x.2.Holds (place x.1) a.code ∧ place x.1 ≤ length

/-- The operands of the entries of a switch. -/
theorem Held.spread {length source stride offset : Nat} {ls : List Label}
    (h : Held a length place (Assembler.spread source stride offset ls)) {i : Nat}
    (hi : i < ls.length) :
    Reference.Holds ⟨source, offset + stride * i, true⟩ (place ls[i]) a.code ∧
      place ls[i] ≤ length := by
  induction ls generalizing offset i with
  | nil => exact absurd hi (Nat.not_lt_zero i)
  | cons l ls ih =>
    obtain ⟨hhead, htail⟩ := List.forall_mem_cons.1 h
    cases i with
    | zero => exact hhead
    | succ i =>
      have hoffset : offset + stride * (i + 1) = offset + stride + stride * i := by
        rw [Nat.mul_add, Nat.mul_one]
        omega
      rw [hoffset]
      exact ih htail (Nat.lt_of_succ_lt_succ hi)

/-- Where the operands of a switch start in a class file. -/
theorem operands_eq (span : CodeSpan) (pc : Nat) :
    span.start + pc + 1 + switchPadding pc = span.start + Assembler.switchStart pc := by
  unfold Assembler.switchStart switchPadding
  omega

section Decode

variable (hcode : b.bytes.Has span.start a.code.toList) (hlength : a.code.size = span.length)
  (hsmall : span.length ≤ 65535) (hpc : pc ≤ 65535)
include hcode hlength hsmall hpc

theorem decodeTableSwitch_eq {low high : Int32} {default : Label} {targets : List Label}
    (hsaid : a.Says pc (.tableSwitch low high default targets))
    (hheld : Held a span.length place (Assembler.switchOperands pc 4 default targets))
    (hcount : (targets.length : Int) = high.toInt - low.toInt + 1) (hne : targets ≠ [])
    (hend : Assembler.switchStart pc + 12 + 4 * targets.length ≤ span.length) :
    b.decodeTableSwitch span pc = .ok (.tableSwitch low high (place default) (targets.map place),
      switchPadding pc + 12 + 4 * targets.length) := by
  obtain ⟨hdefault, hspread⟩ := List.forall_mem_cons.1 hheld
  have hbounds := hcode.within hsaid.2.has
  have hlow := hbounds.left.i32At
  have hhigh := hbounds.right.i32At
  have hpositive := List.length_pos_iff.2 hne
  have hn : (high.toInt - low.toInt + 1).toNat = (targets.map place).length := by
    rw [List.length_map]
    omega
  have hordered : ¬ high < low := by
    rw [Int32.lt_iff_toInt_lt]
    omega
  have hoperands := operands_eq span pc
  obtain ⟨s, hs⟩ := hcode.bytesAt_within
    (o := span.start + pc + 1 + switchPadding pc + 12) (n := 4 * (targets.map place).length)
    (by rw [List.length_map]; omega)
  unfold decodeTableSwitch
  dsimp only
  refine bind_eq_ok_iff.2 ⟨_, targetAt_of_holds hcode hsmall hpc rfl rfl hdefault.1 hdefault.2 hoperands,
    bind_eq_ok_iff.2 ⟨low, ?_, bind_eq_ok_iff.2 ⟨high, ?_, ?_⟩⟩⟩
  · rw [hoperands]
    exact hlow
  · rw [hoperands]
    exact hhigh
  · rw [if_neg hordered, hn]
    refine bind_eq_ok_iff.2 ⟨s, hs, bind_eq_ok_iff.2 ⟨targets.map place, ?_, by rw [List.length_map]; rfl⟩⟩
    refine mapM_range_eq_ok fun i hi => ?_
    rw [List.length_map] at hi
    obtain ⟨hholds, hle⟩ := Held.spread hspread hi
    rw [List.getElem_map]
    exact targetAt_of_holds hcode hsmall hpc rfl rfl hholds hle (by dsimp only; omega)

theorem decodeLookupSwitch_eq {default : Label} {keys : List Int32} {targets : List Label}
    (hsaid : a.Says pc (.lookupSwitch default keys targets))
    (hheld : Held a span.length place (Assembler.switchOperands pc 8 default targets))
    (hend : Assembler.switchStart pc + 8 + 8 * keys.length ≤ span.length) :
    b.decodeLookupSwitch span pc = .ok (.lookupSwitch (place default) keys (targets.map place),
      switchPadding pc + 8 + 8 * keys.length) := by
  obtain ⟨hdefault, hspread⟩ := List.forall_mem_cons.1 hheld
  obtain ⟨hkeys, -, hcount, hkey⟩ := hsaid
  have hcount := (hcode.within hcount.has).i32At
  have htoInt : (Int32.ofInt (keys.length : Int)).toInt = keys.length := by
    rw [Int32.toInt_ofInt_of_le] <;> omega
  have hpositive : ¬ Int32.ofInt (keys.length : Int) < 0 := by
    rw [Int32.lt_iff_toInt_lt, htoInt]
    show ¬ (keys.length : Int) < 0
    omega
  have hzip : (keys.zip (targets.map place)).length = keys.length := by
    rw [List.length_zip, List.length_map, hkeys, Nat.min_self]
  have hn : (Int32.ofInt (keys.length : Int)).toInt.toNat = (keys.zip (targets.map place)).length := by
    rw [htoInt, hzip, Int.toNat_natCast]
  have hoperands := operands_eq span pc
  obtain ⟨s, hs⟩ := hcode.bytesAt_within
    (o := span.start + pc + 1 + switchPadding pc + 8) (n := 8 * (keys.zip (targets.map place)).length)
    (by omega)
  unfold decodeLookupSwitch
  dsimp only
  refine bind_eq_ok_iff.2 ⟨_, targetAt_of_holds hcode hsmall hpc rfl rfl hdefault.1 hdefault.2 hoperands,
    bind_eq_ok_iff.2 ⟨Int32.ofInt keys.length, ?_, ?_⟩⟩
  · rw [hoperands]
    exact hcount
  · rw [if_neg hpositive, hn]
    refine bind_eq_ok_iff.2 ⟨s, hs, bind_eq_ok_iff.2 ⟨keys.zip (targets.map place), ?_, ?_⟩⟩
    · refine mapM_range_eq_ok fun i hi => ?_
      rw [hzip] at hi
      have hi' : i < targets.length := hkeys ▸ hi
      obtain ⟨hholds, hle⟩ := Held.spread hspread hi'
      have hread := (hcode.within (hkey i hi).has).i32At
      rw [List.getElem_zip, List.getElem_map]
      refine bind_eq_ok_iff.2 ⟨keys[i], ?_, bind_eq_ok_iff.2 ⟨place targets[i],
        targetAt_of_holds hcode hsmall hpc rfl rfl hholds hle (by dsimp only; omega), rfl⟩⟩
      rw [← hread]
      congr 1
      omega
    · rw [hzip, List.map_fst_zip (by rw [List.length_map, hkeys]),
        List.map_snd_zip (by rw [List.length_map, hkeys])]
      rfl

/-- **A switch is decoded where it stands.** -/
theorem decodeInstruction_of_switch {i : Instruction Label} (hswitch : i.CountedSwitch)
    (hsaid : a.Says pc i) {a₀ : Assembler} (ha₀ : a₀.code.size = pc)
    (hheld : Held a span.length place (a₀.operands i))
    (hend : pc + 1 + Assembler.switchLength pc i ≤ span.length) :
    b.decodeInstruction span pc = .ok (i.map place, Assembler.switchLength pc i) := by
  have hdone : ∀ op, a.Fixed pc [op] →
      b.decodeOperands span pc op = .ok (i.map place, Assembler.switchLength pc i) →
        b.decodeInstruction span pc = .ok (i.map place, Assembler.switchLength pc i) := by
    intro op hop hoperands
    refine bind_eq_ok_iff.2 ⟨op, (hcode.within hop.has).u8At, bind_eq_ok_iff.2 ⟨_, hoperands, ?_⟩⟩
    dsimp only
    rw [if_neg (Nat.not_lt.2 hend)]
    rfl
  cases i
  case tableSwitch low high default targets =>
    refine hdone Opcode.tableswitch hsaid.1 ?_
    rw [Assembler.operands, ha₀] at hheld
    exact decodeTableSwitch_eq hcode hlength hsmall hpc hsaid hheld hswitch.2 hswitch.1 (by
      rw [Assembler.switchLength, switchPadding] at hend
      rw [Assembler.switchStart]
      omega)
  case lookupSwitch default keys targets =>
    refine hdone Opcode.lookupswitch hsaid.2.1 ?_
    rw [Assembler.operands, ha₀] at hheld
    exact decodeLookupSwitch_eq hcode hlength hsmall hpc hsaid hheld (by
      rw [Assembler.switchLength, switchPadding] at hend
      rw [Assembler.switchStart]
      omega)
  all_goals exact absurd hswitch id

end Decode

end ClassBytes

/-! ## 5. Switches of a method -/

/-- No table has a row if none mentions a label. -/
theorem CodeWriter.bare_of_noted {w : CodeWriter} (hw : w.graph.mode = .maxStack) (hnoted : w.noted = []) :
    w.Bare := by
  obtain ⟨hhandlers, hrest⟩ := List.append_eq_nil_iff.1 hnoted
  obtain ⟨hlines, hlocals⟩ := List.append_eq_nil_iff.1 hrest
  have hnone : w.handlers = #[] := by
    rw [← Array.toList_eq_nil_iff, List.eq_nil_iff_forall_not_mem]
    intro r hr
    exact absurd (List.flatMap_eq_nil_iff.1 hhandlers r hr) (List.cons_ne_nil _ _)
  refine ⟨hw, ⟨(0, .empty), ?_⟩, ?_, ?_⟩
  · unfold handlerTable
    rw [hnone]
    rfl
  · exact Array.toList_eq_nil_iff.1 (List.map_eq_nil_iff.1 hlines)
  · rw [← Array.toList_eq_nil_iff, List.eq_nil_iff_forall_not_mem]
    intro r hr
    exact absurd (List.flatMap_eq_nil_iff.1 hlocals r hr) (List.cons_ne_nil _ _)

namespace MethodWriter

variable {m m' m₁ m₂ : MethodWriter} {c : ClassContext} {p p' p₀ p₁ p₂ : ConstantPool}
  {body before after : List MethodEvent} {i : Instruction Label}

/-- **A switch among the events** says in the end what it said when it was written, and what is behind it
starts where it ended. -/
theorem says_events {mode : ComputeMode} {slots : UInt16} (hm : m.code = .start mode slots)
    (hopen : .finish ∉ before ++ .instruction i :: after)
    (honce : ((before ++ .instruction i :: after).filterMap MethodEvent.placed?).Nodup)
    (hswitch : i.CountedSwitch) (hbefore : Returns (m.events c before) p m₁ p₁)
    (hret : Returns (m.events c (before ++ .instruction i :: after)) p m' p') :
    m'.code.assembler.Says m₁.code.size i ∧
      m₁.code.size + 1 + Assembler.switchLength m₁.code.size i ≤ m'.code.size ∧
      ((∀ j, .instruction j ∉ after) →
        m'.code.size = m₁.code.size + 1 + Assembler.switchLength m₁.code.size i) := by
  rw [List.mem_append, not_or, List.mem_cons, not_or] at hopen
  rw [List.filterMap_append] at honce
  obtain ⟨_, _, hbefore', hrest⟩ := returns_events_append.1 hret
  cases hbefore'.symm.trans hbefore
  obtain ⟨m₂, p₂, hevent, hafter⟩ := returns_events_cons.1 hrest
  obtain ⟨ops, hlaid, -⟩ := (laying_events hm hopen.1 (List.nodup_append.1 honce).1 hbefore).laid
  have hne : MethodEvent.instruction i ≠ .finish := nofun
  obtain ⟨i', around, p₃, hi, hencode⟩ | ⟨l, hl, -⟩ | ⟨hno, -⟩ := assembler_event hne hevent
  · cases hi
    obtain ⟨hsaid, hsize⟩ := Assembler.says_encode hlaid.roomy hswitch hencode
    have hend : m₂.code.size = m₁.code.size + 1 + Assembler.switchLength m₁.code.size i := hsize
    refine ⟨hsaid.keeps (keeps_events hopen.2.2 hafter), ?_, fun hno => ?_⟩
    · exact hend ▸ size_events_le hopen.2.2 hafter
    · rw [size_events hopen.2.2 hno hafter, hend]
  · exact nomatch hl
  · exact absurd rfl (hno i)

/-- The operands of a switch in code that has been written. -/
theorem Laying.held {w : CodeWriter} (h : Laying c m p (before ++ .instruction i :: after) w)
    (hret : Returns (m.events c (before ++ .instruction i :: after)) p m' p') (hcheck : w.check = .ok ())
    (hbefore : Returns (m.events c before) p m₁ p₁) :
    ClassBytes.Held w.assembler w.size (fun l => (w.assembler.place? l).getD 0)
      (m₁.code.assembler.operands i) := by
  intro x hx
  obtain ⟨place, hplace, hholds, -, hle, -⟩ :=
    h.holds hret hcheck ⟨before, _, after, m₁, p₁, rfl, hbefore, hx⟩
  dsimp only
  rw [hplace]
  exact ⟨hholds, hle⟩

/-- **Switches read back.**  Each switch of a method that has been written is decoded where it was written,
with its opcode, its bounds or keys, and the places of its labels, and decoding goes on where the next
instruction was written.  For a `tableswitch` the number of its targets has to be that of its keys, which
is not checked when it is written. -/
theorem switches_readBack {mode : ComputeMode} {info : MethodInfo} {table : MemberTable}
    (hstart : Returns (start mode info table) p₀ m p) (hcode : .code ∈ body) (hopen : .finish ∉ body)
    (honce : (body.filterMap MethodEvent.placed?).Nodup)
    (hret : Returns (m.events c (body ++ [.finish])) p m₂ p₂) :
    ∃ code others place,
      m₂.table = table.add info.access m.header.name m.header.descriptor (code :: others) ∧
      ∀ before i after m₁ p₁, body = before ++ .instruction i :: after → i.CountedSwitch →
        Returns (m.events c before) p m₁ p₁ →
        (∀ l ∈ i.targets, HasPlace c m p body l (place l)) ∧
        ∃ n, (∀ (b : ClassBytes) offset, b.bytes.Has offset code.payload.toList →
            ∃ length, b.bytes.u32At (offset + 4) = .ok length ∧
              b.decodeInstruction ⟨offset + 8, length.toNat⟩ m₁.code.size = .ok (i.map place, n)) ∧
          ∀ between rest m₃ p₃, after = between ++ rest → (∀ j, .instruction j ∉ between) →
            Returns (m.events c (before ++ .instruction i :: between)) p m₃ p₃ →
            m₃.code.size = m₁.code.size + 1 + n := by
  obtain ⟨slots, hm, hinfo, htable⟩ := returns_start hstart
  obtain ⟨mₑ, pₑ, hbody, hlast⟩ := returns_events_append.1 hret
  obtain ⟨_, _, hfinish, hnil⟩ := returns_events_cons.1 hlast
  obtain ⟨rfl, rfl⟩ := returns_pure.1 hnil
  obtain ⟨hheader, hsame, hhas⟩ := header_events hopen hbody
  obtain ⟨hcheck, code, others, hadded, hbytes⟩ := code_of_finish (hhas.2 (.inr hcode)) hfinish
  have hlaying := laying_events hm hopen honce hbody
  obtain ⟨-, hsmall⟩ := CodeWriter.check_eq_ok_iff.1 hcheck
  have hlength : (UInt32.ofNat mₑ.code.size).toNat = mₑ.code.size := by
    rw [UInt32.toNat_ofNat']
    omega
  refine ⟨code, others, fun l => (mₑ.code.assembler.place? l).getD 0, ?_, ?_⟩
  · rw [hadded, hsame, htable, hheader, hinfo]
  rintro before i after m₁ p₁ rfl hswitch hbefore
  obtain ⟨hsaid, hend, -⟩ := says_events hm hopen honce hswitch hbefore hbody
  refine ⟨fun l hl => ?_, Assembler.switchLength m₁.code.size i, fun b offset hb => ?_, ?_⟩
  · obtain ⟨r, hr⟩ := Assembler.exists_mem_operands hl m₁.code.assembler
    obtain ⟨place, hplace, -⟩ :=
      hlaying.holds hbody hcheck (x := (l, r)) ⟨before, _, after, m₁, p₁, rfl, hbefore, hr⟩
    dsimp only
    rw [hplace]
    exact (hlaying.place l place).1 hplace
  · have hpayload := hb.within hbytes
    refine ⟨UInt32.ofNat mₑ.code.size, hpayload.left.u32At, ?_⟩
    rw [hlength]
    have hstands := hpayload.right
    rw [length_wordBytes] at hstands
    exact ClassBytes.decodeInstruction_of_switch hstands rfl hsmall (by omega) hswitch hsaid rfl
      (hlaying.held hbody hcheck hbefore) hend
  · rintro between rest m₃ p₃ rfl hno hbetween
    rw [← List.cons_append, ← List.append_assoc] at hopen honce
    rw [List.filterMap_append] at honce
    exact (says_events hm (fun h => hopen (List.mem_append_left _ h)) (List.nodup_append.1 honce).1
      hswitch hbefore hbetween).2.2 hno

/-- A switch over one number. -/
def switchedBody : List MethodEvent :=
  [.code, .instruction (.simple Opcode.iconst0),
    .instruction (.tableSwitch 0 0 ⟨0, false⟩ [⟨0, false⟩]), .label ⟨0, false⟩,
    .instruction (.simple Opcode.return_)]

theorem events_switched (name descriptor : ConstantIndex) (c : ClassContext) (p : ConstantPool) :
    ∃ w, Returns (events c (staticWriter name descriptor false (.start .maxStack 0)) switchedBody) p
      (staticWriter name descriptor true w) p ∧ w.size = 21 := by
  obtain ⟨w₁, h₁, ha₁, -⟩ := CodeWriter.exists_instruction (w := .start .maxStack 0) (p := p)
    BlockGraph.frameless_start (i := .simple Opcode.iconst0) rfl
    (BlockGraph.step_simple_heights rfl (u := ⟨0, 1⟩) (by decide) _ _ _ _)
  have hf₁ := (CodeWriter.follows_instruction h₁).frameless BlockGraph.frameless_start
  obtain ⟨w₂, h₂, ha₂, -⟩ := CodeWriter.exists_instruction hf₁ (p := p)
    (i := .tableSwitch 0 0 ⟨0, false⟩ [⟨0, false⟩]) rfl
    (BlockGraph.step_tableSwitch_heights hf₁.mode _ _ _ _ _ _ _ _)
  have hf₂ := (CodeWriter.follows_instruction h₂).frameless hf₁
  have hfront : Returns (events c (staticWriter name descriptor false (.start .maxStack 0))
      (switchedBody.take 3)) p (staticWriter name descriptor true w₂) p :=
    returns_events_cons.2 ⟨staticWriter name descriptor true (.start .maxStack 0), p, rfl,
      returns_events_cons.2 ⟨_, p, onCode_static h₁, returns_events_singleton.2 (onCode_static h₂)⟩⟩
  have hsize₂ : w₂.size = 20 := by
    rw [CodeWriter.size, ha₂, Assembler.size_putTableSwitch, ha₁]
    rfl
  have hopen : .finish ∉ switchedBody.take 3 ++ .label ⟨0, false⟩ :: switchedBody.drop 4 := by
    simp [switchedBody]
  have hnear : w₂.size ≤ 32767 := hsize₂ ▸ by decide
  obtain ⟨w₃, hlabel, hsize₃, -⟩ := exists_label rfl hopen (List.nodup_singleton _) hfront hnear
  have hf₃ := (CodeWriter.follows_label hlabel).frameless hf₂
  obtain ⟨w₄, h₄, ha₄, -⟩ := CodeWriter.exists_instruction hf₃ (i := .simple Opcode.return_) rfl
    (BlockGraph.step_simple_heights hf₃.mode (u := ⟨0, 0⟩) (by decide) _ _ _ _)
  refine ⟨w₄, ?_, ?_⟩
  · have hback : Returns (events c (staticWriter name descriptor true w₂) (switchedBody.drop 3)) p
        (staticWriter name descriptor true w₄) p :=
      returns_events_cons.2 ⟨_, p, onCode_static hlabel, returns_events_singleton.2 (onCode_static h₄)⟩
    have hall := returns_events_append.2 ⟨_, p, hfront, hback⟩
    rwa [List.take_append_drop] at hall
  · rw [CodeWriter.size, ha₄, Assembler.size_put, Bytes.size_putU8]
    exact congrArg (· + 1) (hsize₃.trans hsize₂)

theorem returns_switched (hroom : p.records.nextOffset + 1 ≤ 65535) (name descriptor : ConstantIndex)
    (c : ClassContext) :
    ∃ m₂ p₂, Returns (events c (staticWriter name descriptor false (.start .maxStack 0))
      (switchedBody ++ [.finish])) p m₂ p₂ := by
  obtain ⟨w, hevents, hsize⟩ := events_switched name descriptor c p
  have hopen : .finish ∉ switchedBody := by simp [switchedBody]
  have honce : (switchedBody.filterMap MethodEvent.placed?).Nodup := List.nodup_singleton _
  have hlinked := linked_events rfl hopen honce hevents
  have hcheck : w.check = .ok () := by
    refine hlinked.check hevents (fun l hl => ?_) (hsize ▸ by decide)
    obtain ⟨⟨e, he, hmem⟩, hno⟩ := hl
    have hone : ∀ e ∈ switchedBody, ∀ l ∈ e.branches, l = ⟨0, false⟩ := by decide
    rw [hone e he l hmem] at hno
    simp [switchedBody] at hno
  have hnoted : w.noted = [] := by
    refine List.eq_nil_iff_forall_not_mem.2 fun l hl => ?_
    obtain ⟨e, he, hmem⟩ := (hlinked.noted l).1 hl
    have hnone : ∀ e ∈ switchedBody, e.noted = [] := by decide
    rw [hnone e he] at hmem
    exact List.not_mem_nil hmem
  obtain ⟨m₂, p₂, hfinish⟩ := (CodeWriter.bare_of_noted hlinked.frameless.mode hnoted).finish
    hcheck name descriptor c hroom
  exact ⟨m₂, p₂, returns_events_append.2 ⟨_, _, hevents, hfinish⟩⟩

theorem switches_readBack_one : ∃ m p m₁ p₁ m₂ p₂ code others n, ∃ place : Label → Nat,
    Returns (start .maxStack staticInfo .empty) .empty m p ∧ .code ∈ switchedBody ∧
      .finish ∉ switchedBody ∧ (switchedBody.filterMap MethodEvent.placed?).Nodup ∧
      Returns (m.events (ClassWriter.start ⟨.maxStack, .empty⟩).context (switchedBody ++ [.finish])) p
        m₂ p₂ ∧
      m₂.table = MemberTable.empty.add 8 m.header.name m.header.descriptor (code :: others) ∧
      Returns (m.events (ClassWriter.start ⟨.maxStack, .empty⟩).context (switchedBody.take 2)) p m₁ p₁ ∧
      ∀ (b : ClassBytes) offset, b.bytes.Has offset code.payload.toList →
        ∃ length, b.bytes.u32At (offset + 4) = .ok length ∧
          b.decodeInstruction ⟨offset + 8, length.toNat⟩ m₁.code.size =
            .ok (.tableSwitch 0 0 (place ⟨0, false⟩) [place ⟨0, false⟩], n) := by
  obtain ⟨name, descriptor, p, hstarts, hroom⟩ := starts_static ⟨.maxStack, .empty⟩
  obtain ⟨hstart, -⟩ := ClassWriter.returns_startMethod.1 hstarts
  have hcode : .code ∈ switchedBody := List.mem_cons_self
  have hopen : .finish ∉ switchedBody := by simp [switchedBody]
  have honce : (switchedBody.filterMap MethodEvent.placed?).Nodup := List.nodup_singleton _
  obtain ⟨m₂, p₂, hret⟩ := returns_switched hroom name descriptor
    (ClassWriter.start ⟨.maxStack, .empty⟩).context
  obtain ⟨code, others, place, htable, hswitches⟩ := switches_readBack hstart hcode hopen honce hret
  have hsplit : switchedBody ++ [.finish] = switchedBody.take 2 ++ (switchedBody.drop 2 ++ [.finish]) :=
    rfl
  rw [hsplit] at hret
  obtain ⟨m₁, p₁, hbefore, -⟩ := returns_events_append.1 hret
  obtain ⟨-, n, hdecode, -⟩ := hswitches (switchedBody.take 2) _ (switchedBody.drop 3) m₁ p₁ rfl
    ⟨List.cons_ne_nil _ _, by decide⟩ hbefore
  exact ⟨_, p, m₁, p₁, m₂, p₂, code, others, n, place, hstart, hcode, hopen, honce, hret, htable, hbefore,
    hdecode⟩

end MethodWriter

end ClassFile
