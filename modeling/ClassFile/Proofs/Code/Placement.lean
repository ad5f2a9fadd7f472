/-
# Labels and lines of code that is read

The events of code, offset by offset (`Body.spelled`): at an offset where an instruction starts, and at the
end of the code, there is the label of the offset if anything mentions it, then its lines in the order of
their tables, and then the instruction.  An offset in the middle of an instruction gets a label when it is
mentioned, but no event has it at its head.

The second pass comes to the same events with a list of lines in the order of their offsets, of which it
passes over what lies in the middle of instructions (`laidOut_eq`).  Sorting keeps the order of the lines of
one offset (`filter_mergeSort`).
-/
import ClassFile.Proofs.Code.Passes

namespace ClassFile

/-! ## 1. Lines in the order of their offsets -/

section Rows

variable {α : Type} {rows : List (Nat × α)} {place : Nat}

/-- The rows are in the order of their offsets. -/
abbrev InOrder (rows : List (Nat × α)) : Prop := rows.Pairwise fun x y => x.1 ≤ y.1

theorem inOrder_mergeSort (rows : List (Nat × α)) :
    InOrder (rows.mergeSort fun x y => x.1 ≤ y.1) := by
  have h : (rows.mergeSort fun x y => x.1 ≤ y.1).Pairwise fun x y => decide (x.1 ≤ y.1) = true :=
    List.pairwise_mergeSort (fun x y z hxy hyz => by simp only [decide_eq_true_eq] at *; omega)
      (fun x y => by simp only [Bool.or_eq_true, decide_eq_true_eq]; omega) rows
  exact h.imp of_decide_eq_true

/-- **Sorting keeps the order of the rows of one offset.** -/
theorem filter_mergeSort (rows : List (Nat × α)) (place : Nat) :
    (rows.mergeSort fun x y => x.1 ≤ y.1).filter (fun row => row.1 = place) =
      rows.filter fun row => row.1 = place := by
  have hpairwise : (rows.filter fun row => row.1 = place).Pairwise
      fun x y => decide (x.1 ≤ y.1) = true := by
    refine List.pairwise_of_forall_mem_list fun x hx y hy => ?_
    simp only [List.mem_filter, decide_eq_true_eq] at hx hy ⊢
    omega
  have hsublist := List.sublist_mergeSort
    (fun x y z hxy hyz => by simp only [decide_eq_true_eq] at *; omega)
    (fun x y => by simp only [Bool.or_eq_true, decide_eq_true_eq]; omega) hpairwise
    (List.filter_sublist (l := rows))
  have hfilter := hsublist.filter fun row => decide (row.1 = place)
  rw [List.filter_filter] at hfilter
  simp only [Bool.and_self] at hfilter
  have hlength := ((List.mergeSort_perm rows fun x y => decide (x.1 ≤ y.1)).filter
    fun row => decide (row.1 = place)).length_eq
  exact (hfilter.eq_of_length hlength.symm).symm

/-- Rows that are passed over are not those that are looked for. -/
theorem filter_dropWhile {p q : α → Bool} (h : ∀ x, p x → q x = false) (l : List α) :
    (l.dropWhile p).filter q = l.filter q := by
  induction l with
  | nil => rfl
  | cons x l ih =>
    rw [List.dropWhile_cons]
    split
    · rename_i hx
      rw [ih, List.filter_cons, if_neg (by simp [h x hx])]
    · rfl

/-- In order, the rows of one offset stand together, behind those of the offsets before it. -/
theorem takeWhile_dropWhile (h : InOrder rows) (place : Nat) :
    (rows.dropWhile fun row => row.1 < place).takeWhile (fun row => row.1 = place) =
      rows.filter fun row => row.1 = place := by
  induction rows with
  | nil => rfl
  | cons row rows ih =>
    obtain ⟨hrow, hrows⟩ := List.pairwise_cons.1 h
    rcases Nat.lt_trichotomy row.1 place with hlt | heq | hgt
    · have hne : row.1 ≠ place := Nat.ne_of_lt hlt
      simp only [List.dropWhile_cons, List.filter_cons, decide_eq_true hlt, if_true, hne, decide_false]
      exact ih hrows
    · have hdrop : rows.dropWhile (fun row => row.1 < place) = rows := by
        cases rows with
        | nil => rfl
        | cons next rows =>
          have := hrow next List.mem_cons_self
          rw [List.dropWhile_cons, if_neg (by simp; omega)]
      rw [List.dropWhile_cons, if_neg (by simp; omega), List.takeWhile_cons_of_pos (by simp [heq]),
        List.filter_cons_of_pos (by simp [heq]), ← ih hrows, hdrop]
    · have hnone : (row :: rows).filter (fun row => row.1 = place) = [] := by
        refine List.filter_eq_nil_iff.2 fun x hx => ?_
        rcases List.mem_cons.1 hx with rfl | hx
        · simp; omega
        · have := hrow x hx
          simp; omega
      rw [hnone, List.dropWhile_cons, if_neg (by simp; omega), List.takeWhile_cons,
        if_neg (by simp; omega)]

end Rows

/-- A label, or a line with it. -/
def MethodEvent.Heads (l : Label) : MethodEvent → Prop
  | label l' | line _ l' => l' = l
  | _ => False

/-- The instruction of an event. -/
def MethodEvent.instruction? : MethodEvent → Option (Instruction Label)
  | instruction i => some i
  | _ => none

namespace ClassBytes

/-! ## 2. The events of a body -/

/-- The offsets that anything mentions. -/
def Listing.mentioned (b : Listing) : List Nat := b.targets ++ b.debugTargets

namespace Body

variable (b : Body) (label : Nat → Label)

/-- The offsets where an instruction starts, and the end of the code. -/
def boundaries : List Nat := b.instructions.map Prod.fst ++ [b.length]

/-- What stands at an offset, in front of an instruction: its label if anything mentions it, and the lines that
start there. -/
def heading (place : Nat) : List MethodEvent :=
  if place ∈ b.mentioned then
    .label (label place) ::
      (b.lines.filter fun row => row.1 = place).map fun row => .line row.2 (label place)
  else []

/-- An instruction with what stands in front of it. -/
def headedInstruction (x : Nat × Instruction Nat) : List MethodEvent :=
  b.heading label x.1 ++ [.instruction (x.2.map label)]

/-- Instructions up to the end of the code. -/
def code (is : List (Nat × Instruction Nat)) : List MethodEvent :=
  is.flatMap (b.headedInstruction label) ++ b.heading label b.length

/-- The handlers. -/
def handlerEvents : List MethodEvent :=
  b.handlers.map fun h => .handler (label h.start) (label h.stop) (label h.handler) h.caught

/-- All events of the code, with those of local variables. -/
def spelled (locals : List MethodEvent) : List MethodEvent :=
  b.handlerEvents label ++ b.code label b.instructions ++ locals ++ [.sizes b.maxStack b.maxLocals]

end Body

variable {b : Body} {t : LabelTable} {lines : List (Nat × UInt16)} {pc : Nat}

/-- At an offset, the second pass finds the lines of the offset. -/
theorem headed_eq (ht : (t.label? pc).isSome ↔ pc ∈ b.mentioned) (hlines : InOrder lines)
    (hhere : lines.filter (fun row => row.1 = pc) = b.lines.filter fun row => row.1 = pc) :
    (headed t lines pc).1 = b.heading t.label pc := by
  unfold headed Body.heading
  cases h : t.label? pc with
  | none =>
    rw [h] at ht
    rw [if_neg fun hpc => by simpa using ht.2 hpc]
  | some l =>
    rw [h] at ht
    rw [if_pos (ht.1 rfl), LabelTable.label_of_label? h, ← hhere, ← takeWhile_dropWhile hlines]

/-- What the second pass has not come to yet is left. -/
theorem filter_headed {place : Nat} (hplace : pc < place) :
    (headed t lines pc).2.filter (fun row => row.1 = place) =
      lines.filter fun row => row.1 = place := by
  unfold headed
  cases t.label? pc with
  | none => rfl
  | some l =>
    dsimp only
    rw [filter_dropWhile (fun x hx => ?_), filter_dropWhile (fun x hx => ?_)]
    · simp only [decide_eq_true_eq, decide_eq_false_iff_not] at hx ⊢
      omega
    · simp only [decide_eq_true_eq, decide_eq_false_iff_not] at hx ⊢
      omega

theorem inOrder_headed (hlines : InOrder lines) : InOrder (headed t lines pc).2 := by
  unfold headed
  cases t.label? pc with
  | none => exact hlines
  | some l =>
    exact (hlines.sublist (List.dropWhile_sublist _)).sublist (List.dropWhile_sublist _)

/-- **The second pass spells out the code**, if the lines that are left are in order and hold those of
the offsets to come. -/
theorem laidOut_eq (ht : ∀ p, (t.label? p).isSome ↔ p ∈ b.mentioned)
    {is : List (Nat × Instruction Nat)} (hchain : Chain b.length pc is) (hlines : InOrder lines)
    (hleft : ∀ place, pc ≤ place →
      lines.filter (fun row => row.1 = place) = b.lines.filter fun row => row.1 = place) :
    laidOut t b.length lines is = b.code t.label is := by
  induction is generalizing pc lines with
  | nil =>
    obtain rfl : pc = b.length := hchain
    exact headed_eq (ht _) hlines (hleft _ (Nat.le_refl _))
  | cons x is ih =>
    obtain ⟨place, i⟩ := x
    obtain ⟨rfl, -, -, n, -, hrest⟩ := hchain
    have hhere := headed_eq (ht place) hlines (hleft place (Nat.le_refl _))
    have hlater : ∀ q, place + 1 + n ≤ q → (headed t lines place).2.filter (fun row => row.1 = q) =
        b.lines.filter fun row => row.1 = q := fun q hq => by
      rw [filter_headed (by omega), hleft q (by omega)]
    have hbehind := ih hrest (inOrder_headed hlines) hlater
    unfold laidOut Body.code
    rw [hhere, hbehind, List.flatMap_cons, Body.headedInstruction, List.append_assoc, List.append_assoc]
    rfl

/-! ## 3. Where labels stand -/

namespace Body

variable (b : Body) (label : Nat → Label)

/-- The label of an offset stands once in the events, with the lines of the offset behind it: after all
instructions before the offset, and before all others. -/
def PlacedAt (events : List MethodEvent) (place : Nat) : Prop :=
  ∃ before after, events = before ++ b.heading label place ++ after ∧
    (∀ e ∈ before, ¬ e.Heads (label place)) ∧ (∀ e ∈ after, ¬ e.Heads (label place)) ∧
    before.filterMap MethodEvent.instruction? =
      (b.instructions.filter fun x => x.1 < place).map (fun x => x.2.map label) ∧
    after.filterMap MethodEvent.instruction? =
      (b.instructions.filter fun x => place ≤ x.1).map fun x => x.2.map label

/-- The labels are those of the offsets that are mentioned. -/
structure Labelled : Prop where
  /-- Different offsets have different labels. -/
  distinct : ∀ p ∈ b.mentioned, ∀ q ∈ b.mentioned, label p = label q → p = q
  /-- A debug label is one that only lines and local variables mention. -/
  debug : ∀ p ∈ b.mentioned, (label p).debug = true ↔ p ∉ b.targets

variable {b label} {e : MethodEvent} {l : Label} {place : Nat} {is : List (Nat × Instruction Nat)}

/-- What stands at an offset has the label of the offset. -/
theorem of_heads_heading (he : e ∈ b.heading label place) (hl : e.Heads l) :
    place ∈ b.mentioned ∧ l = label place := by
  unfold heading at he
  split at he
  · rename_i hplace
    refine ⟨hplace, ?_⟩
    rcases List.mem_cons.1 he with rfl | he
    · exact hl.symm
    · obtain ⟨row, -, rfl⟩ := List.mem_map.1 he
      exact hl.symm
  · cases he

theorem of_heads_headedInstructions (he : e ∈ is.flatMap (b.headedInstruction label))
    (hl : e.Heads l) : ∃ x ∈ is, e ∈ b.heading label x.1 := by
  obtain ⟨x, hx, he⟩ := List.mem_flatMap.1 he
  rcases List.mem_append.1 he with he | he
  · exact ⟨x, hx, he⟩
  · cases List.mem_singleton.1 he ▸ hl

theorem of_heads_code (he : e ∈ b.code label is) (hl : e.Heads l) :
    ∃ p ∈ is.map Prod.fst ++ [b.length], e ∈ b.heading label p := by
  rcases List.mem_append.1 he with he | he
  · obtain ⟨x, hx, he⟩ := of_heads_headedInstructions he hl
    exact ⟨x.1, List.mem_append_left _ (List.mem_map_of_mem hx), he⟩
  · exact ⟨b.length, List.mem_append_right _ List.mem_cons_self, he⟩

theorem instructions_heading (place : Nat) :
    (b.heading label place).filterMap MethodEvent.instruction? = [] := by
  rw [List.filterMap_eq_nil_iff]
  intro e he
  unfold heading at he
  split at he
  · rcases List.mem_cons.1 he with rfl | he
    · rfl
    · obtain ⟨row, -, rfl⟩ := List.mem_map.1 he
      rfl
  · cases he

theorem instructions_headedInstructions (is : List (Nat × Instruction Nat)) :
    (is.flatMap (b.headedInstruction label)).filterMap MethodEvent.instruction? =
      is.map fun x => x.2.map label := by
  induction is with
  | nil => rfl
  | cons x is ih =>
    rw [List.flatMap_cons, List.filterMap_append, ih, headedInstruction, List.filterMap_append,
      instructions_heading]
    rfl

/-- What stands behind the lines of an offset, from its instruction on. -/
def behind (b : Body) (label : Nat → Label) : List (Nat × Instruction Nat) → List MethodEvent
  | [] => []
  | x :: is => .instruction (x.2.map label) :: b.code label is

theorem code_eq (hchain : Chain b.length place is) :
    b.code label is = b.heading label place ++ b.behind label is := by
  cases is with
  | nil =>
    obtain rfl : place = b.length := hchain
    rw [code, behind, List.flatMap_nil, List.nil_append, List.append_nil]
  | cons x is =>
    obtain ⟨rfl, -⟩ := hchain
    rw [code, behind, List.flatMap_cons, headedInstruction, List.append_assoc, List.append_assoc]
    rfl

theorem instructions_behind (is : List (Nat × Instruction Nat)) :
    (b.behind label is).filterMap MethodEvent.instruction? = is.map fun x => x.2.map label := by
  cases is with
  | nil => rfl
  | cons x is =>
    have hcode : (b.code label is).filterMap MethodEvent.instruction? =
        is.map fun x => x.2.map label := by
      rw [code, List.filterMap_append, instructions_headedInstructions, instructions_heading,
        List.append_nil]
    rw [behind, List.map_cons, ← hcode]
    rfl

end Body

/-- Instructions from an offset on have that offset or greater ones. -/
theorem Chain.le {length : Nat} {is : List (Nat × Instruction Nat)} (h : Chain length pc is) :
    ∀ p ∈ is.map Prod.fst ++ [length], pc ≤ p := by
  induction is generalizing pc with
  | nil =>
    obtain rfl : pc = length := h
    simp
  | cons x is ih =>
    obtain ⟨rfl, hlt, -, n, -, hrest⟩ := h
    intro p hp
    rcases List.mem_cons.1 hp with rfl | hp
    · exact Nat.le_refl _
    · have := ih hrest p hp
      omega

/-- The instructions before an offset, and those from it on. -/
theorem Chain.split {length place : Nat} {is : List (Nat × Instruction Nat)} (h : Chain length pc is)
    (hplace : place ∈ is.map Prod.fst ++ [length]) :
    ∃ before after, is = before ++ after ∧ (∀ x ∈ before, x.1 < place) ∧ Chain length place after := by
  induction is generalizing pc with
  | nil =>
    obtain rfl : place = length := List.mem_singleton.1 hplace
    exact ⟨[], [], rfl, fun x hx => (nomatch hx), rfl⟩
  | cons x is ih =>
    rcases List.mem_cons.1 hplace with rfl | hmem
    · obtain ⟨rfl, -⟩ := id h
      exact ⟨[], x :: is, rfl, fun x hx => (nomatch hx), h⟩
    · obtain ⟨rfl, -, -, n, -, hrest⟩ := h
      obtain ⟨before, after, rfl, hbefore, hafter⟩ := ih hrest hmem
      refine ⟨x :: before, after, rfl, fun y hy => ?_, hafter⟩
      have hlt := hrest.le place hmem
      rcases List.mem_cons.1 hy with rfl | hy
      · omega
      · exact hbefore y hy

namespace Body

variable {b : Body} {label : Nat → Label} {place : Nat} {locals : List MethodEvent}

/-- An event that is no label, no line, and no instruction. -/
def Plain (e : MethodEvent) : Prop := (∀ l, ¬ e.Heads l) ∧ e.instruction? = none

theorem instructions_of_plain {es : List MethodEvent} (h : ∀ e ∈ es, Plain e) :
    es.filterMap MethodEvent.instruction? = [] :=
  List.filterMap_eq_nil_iff.2 fun e he => (h e he).2

theorem plain_handlerEvents : ∀ e ∈ b.handlerEvents label, Plain e := fun e he => by
  obtain ⟨h, -, rfl⟩ := List.mem_map.1 he
  exact ⟨fun _ hl => hl, rfl⟩

theorem plain_sizes (maxStack maxLocals : UInt16) : Plain (.sizes maxStack maxLocals) :=
  ⟨fun _ hl => hl, rfl⟩

/-- Behind an offset there are only labels of greater offsets. -/
theorem of_heads_behind {is : List (Nat × Instruction Nat)} (h : Chain b.length place is)
    {e : MethodEvent} (he : e ∈ b.behind label is) {l : Label} (hl : e.Heads l) :
    ∃ p, place < p ∧ e ∈ b.heading label p := by
  cases is with
  | nil => cases he
  | cons x is =>
    obtain ⟨rfl, -, -, n, -, hrest⟩ := h
    rcases List.mem_cons.1 he with rfl | he
    · cases hl
    · obtain ⟨p, hp, he⟩ := of_heads_code he hl
      have := hrest.le p hp
      exact ⟨p, by omega, he⟩

/-- **Every label stands where its offset is.** -/
theorem placedAt_spelled (hb : Chain b.length 0 b.instructions) (hlabel : b.Labelled label)
    (hlocals : ∀ e ∈ locals, Plain e) (hplace : place ∈ b.boundaries) (hmention : place ∈ b.mentioned) :
    b.PlacedAt label (b.spelled label locals) place := by
  obtain ⟨before, after, his, hbefore, hafter⟩ := hb.split hplace
  have hunique : ∀ {e p}, e ∈ b.heading label p → e.Heads (label place) → p = place := fun he hl => by
    obtain ⟨hp, heq⟩ := of_heads_heading he hl
    exact hlabel.distinct _ hp _ hmention heq.symm
  have hplain : ∀ e ∈ locals ++ [MethodEvent.sizes b.maxStack b.maxLocals], Plain e := fun e he => by
    rcases List.mem_append.1 he with he | he
    · exact hlocals e he
    · exact List.mem_singleton.1 he ▸ plain_sizes ..
  have hfrom : ∀ x ∈ after, place ≤ x.1 := fun x hx =>
    hafter.le x.1 (List.mem_append_left _ (List.mem_map_of_mem hx))
  refine ⟨b.handlerEvents label ++ before.flatMap (b.headedInstruction label),
    b.behind label after ++ (locals ++ [.sizes b.maxStack b.maxLocals]), ?_, fun e he hl => ?_,
    fun e he hl => ?_, ?_, ?_⟩
  · have hcode : b.code label b.instructions = before.flatMap (b.headedInstruction label) ++
        (b.heading label place ++ b.behind label after) := by
      rw [← code_eq hafter, code, code, his, List.flatMap_append, List.append_assoc]
    rw [spelled, hcode]
    simp only [List.append_assoc]
  · rcases List.mem_append.1 he with he | he
    · exact (plain_handlerEvents e he).1 _ hl
    · obtain ⟨x, hx, he⟩ := of_heads_headedInstructions he hl
      exact absurd (hunique he hl) (Nat.ne_of_lt (hbefore x hx))
  · rcases List.mem_append.1 he with he | he
    · obtain ⟨p, hp, he⟩ := of_heads_behind hafter he hl
      exact absurd (hunique he hl) (Nat.ne_of_gt hp)
    · exact (hplain e he).1 _ hl
  · have hfilter : b.instructions.filter (fun x => x.1 < place) = before := by
      rw [his, List.filter_append, List.filter_eq_self.2 (by simpa using hbefore),
        List.filter_eq_nil_iff.2 (by simpa using hfrom), List.append_nil]
    rw [hfilter, List.filterMap_append, instructions_of_plain plain_handlerEvents, List.nil_append,
      instructions_headedInstructions]
  · have hnone : before.filter (fun x => place ≤ x.1) = [] :=
      List.filter_eq_nil_iff.2 (by simpa using hbefore)
    have hfilter : b.instructions.filter (fun x => place ≤ x.1) = after := by
      rw [his, List.filter_append, hnone, List.nil_append,
        List.filter_eq_self.2 (by simpa using hfrom)]
    rw [hfilter, List.filterMap_append, instructions_of_plain hplain, List.append_nil,
      instructions_behind]

/-- **No other label and no other line is emitted.** -/
theorem of_heads_spelled (hlocals : ∀ e ∈ locals, Plain e) {e : MethodEvent}
    (he : e ∈ b.spelled label locals) {l : Label} (hl : e.Heads l) :
    ∃ p ∈ b.boundaries, p ∈ b.mentioned ∧ l = label p ∧ e ∈ b.heading label p := by
  rcases List.mem_append.1 he with he | he
  · rcases List.mem_append.1 he with he | he
    · rcases List.mem_append.1 he with he | he
      · exact absurd hl ((plain_handlerEvents e he).1 l)
      · obtain ⟨p, hp, he⟩ := of_heads_code he hl
        obtain ⟨hmention, heq⟩ := of_heads_heading he hl
        exact ⟨p, hp, hmention, heq, he⟩
    · exact absurd hl ((hlocals e he).1 l)
  · exact absurd hl (List.mem_singleton.1 he ▸ (plain_sizes ..).1 l)

/-! ## 4. The labels of a body -/

/-- The labels that code is read with are those of the offsets that are mentioned. -/
theorem labelled_label (hb : b.toListing.InRange b.length) : b.Labelled b.label := by
  have hsome : ∀ p ∈ b.mentioned, (b.table.label? p).isSome := fun p hp =>
    hb.isSome_label?.2 (List.mem_append.1 hp)
  have htargets : ∀ p ∈ b.targets, p < (LabelTable.ofLength b.length).labels.size := fun p hp => by
    have := hb.targets_le p hp
    rw [LabelTable.size_ofLength]
    omega
  have hdebug : ∀ p ∈ b.debugTargets,
      p < ((LabelTable.ofLength b.length).markAll false b.targets).labels.size := fun p hp => by
    have := hb.attributes p hp
    rw [LabelTable.size_markAll, LabelTable.size_ofLength]
    omega
  refine ⟨fun p hp q hq h => ?_, fun p hp => ?_⟩
  · have hnumbered := ((LabelTable.numbered_ofLength b.length).markAll false b.targets).markAll true
      b.debugTargets
    exact hnumbered.label_inj (hsome p hp) (hsome q hq) h
  · by_cases htarget : p ∈ b.targets
    · have hkept : b.label p = ((LabelTable.ofLength b.length).markAll false b.targets).label p :=
        LabelTable.label_markAll_of_label? ((LabelTable.isSome_markAll htargets).2 (.inr htarget))
      have := LabelTable.debug_markAll (d := false) htargets (LabelTable.label?_ofLength _) htarget
      rw [hkept, this]
      simp [htarget]
    · have hnew : ((LabelTable.ofLength b.length).markAll false b.targets).label? p = none := by
        rw [← Option.not_isSome_iff_eq_none, LabelTable.isSome_markAll htargets]
        simp [htarget]
      have := LabelTable.debug_markAll (d := true) hdebug hnew
        ((List.mem_append.1 hp).resolve_left htarget)
      exact iff_of_true this htarget

/-- The events of a body are emitted just if all local variables can be named. -/
theorem returns_replay {c : ClassBytes} {events : Array MethodEvent} (hb : b.toListing.InRange b.length) :
    Returns (b.replay c) #[] () events ↔
      ∃ locals, (b.locals.map (LocalRow.map b.label)).mapM c.localVariable = .ok locals ∧
        events.toList = b.spelled b.label locals := by
  have hcode : laidOut b.table b.length b.sortedLines b.instructions = b.code b.label b.instructions :=
    laidOut_eq (fun p => hb.isSome_label?.trans List.mem_append.symm) hb.chain (inOrder_mergeSort _)
      fun place _ => filter_mergeSort _ _
  have hopening : Returns (Replay.emitAll b.opening) #[] () b.opening.toArray := by
    have := Replay.emitAll_apply b.opening #[]
    rwa [Array.empty_append] at this
  have hspelled : ∀ locals, ((b.opening.toArray ++ locals.toArray).push
      (.sizes b.maxStack b.maxLocals)).toList = b.spelled b.label locals := fun locals => by
    simp only [Array.toList_push, Array.toList_append, opening, hcode, spelled, handlerEvents]
  constructor
  · intro h
    obtain ⟨_, s₁, hopening', h⟩ := returns_bind.1 h
    obtain ⟨_, s₂, hnames, hsizes⟩ := returns_bind.1 h
    obtain rfl : b.opening.toArray = s₁ := congrArg Prod.snd (hopening.symm.trans hopening')
    obtain ⟨locals, hlocals, rfl⟩ := returns_nameLocals.1 hnames
    obtain rfl := returns_modify.1 hsizes
    exact ⟨locals, hlocals, hspelled locals⟩
  · rintro ⟨locals, hlocals, hevents⟩
    obtain rfl := Array.toList_inj.1 (hevents.trans (hspelled locals).symm)
    exact returns_bind.2 ⟨(), _, hopening, returns_bind.2 ⟨(), _,
      returns_nameLocals.2 ⟨locals, hlocals, rfl⟩, returns_modify.2 rfl⟩⟩

end Body

/-- The events of local variables are neither labels nor lines nor instructions. -/
theorem plain_localVariables {c : ClassBytes} {rows : List (LocalRow Label)} {es : List MethodEvent}
    (h : rows.mapM c.localVariable = .ok es) : ∀ e ∈ es, Body.Plain e := by
  induction rows generalizing es with
  | nil =>
    cases h
    exact fun e he => nomatch he
  | cons row rows ih =>
    rw [List.mapM_cons] at h
    obtain ⟨e, he, h⟩ := bind_eq_ok_iff.1 h
    obtain ⟨es', hes, h⟩ := bind_eq_ok_iff.1 h
    cases h
    obtain ⟨name, -, he⟩ := bind_eq_ok_iff.1 he
    obtain ⟨descriptor, -, he⟩ := bind_eq_ok_iff.1 he
    cases he
    intro e he
    rcases List.mem_cons.1 he with rfl | he
    · exact ⟨fun _ hl => hl, rfl⟩
    · exact ih hes e he

/-- **Reading code places every label once and at the right point.**  The events are those of the body,
offset by offset; the labels of different offsets differ, and are debug labels where only lines and local
variables mention the offset; each stands at its offset if that is one where an instruction starts or the end
of the code, with the lines of the offset behind it; and there are no other labels and no other lines. -/
theorem readCode_places {c : ClassBytes} {offset : Nat} {events : Array MethodEvent}
    (h : (c.readCode offset).all = (.ok (), events)) :
    ∃ (b : Body) (label : Nat → Label) (locals : List MethodEvent),
      c.decodeBody offset = .ok b ∧ b.Labelled label ∧
        (b.locals.map (LocalRow.map label)).mapM c.localVariable = .ok locals ∧
        events.toList = b.spelled label locals ∧
        (∀ place ∈ b.boundaries, place ∈ b.mentioned → b.PlacedAt label events.toList place) ∧
        ∀ e ∈ events, ∀ l, e.Heads l →
          ∃ place ∈ b.boundaries, place ∈ b.mentioned ∧ l = label place ∧ e ∈ b.heading label place := by
  rw [readCode_eq] at h
  obtain ⟨b, _, hlift, h⟩ := returns_bind.1 (show Returns _ #[] () events from h)
  obtain ⟨hb, rfl⟩ := returns_lift.1 hlift
  have hrange := (c.reading_decodeBody offset).answer b hb
  obtain ⟨locals, hlocals, hevents⟩ := (Body.returns_replay hrange).1 h
  have hplain := plain_localVariables hlocals
  have hlabel := Body.labelled_label hrange
  refine ⟨b, b.label, locals, hb, hlabel, hlocals, hevents, fun place hplace hmention => ?_,
    fun e he l hl => ?_⟩
  · rw [hevents]
    exact Body.placedAt_spelled hrange.chain hlabel hplain hplace hmention
  · rw [← Array.mem_toList_iff, hevents] at he
    exact Body.of_heads_spelled hplain he hl

/-- Code that jumps behind itself and returns, with three lines, two of them at the return and one in the
middle of the jump: the code and its tables, and behind them the one record that there is. -/
def jumpCode : ClassBytes where
  bytes :=
    #[0, 0, 0, 1, 0, 0, 0, 4, 167, 0, 3, 177, 0, 0, 0, 1, 0, 1, 0, 0, 0, 14, 0, 3, 0, 3, 0, 7, 0, 1, 0, 9,
      0, 3, 0, 8] ++ #[1, 0, 15, 76, 105, 110, 101, 78, 117, 109, 98, 101, 114, 84, 97, 98, 108, 101]
  itemOffsets := #[0, 36]
  header := 0
  classAttributes := 0
  bootstrapOffsets := #[]
  bootstrapTable := none

/-- What the code says. -/
def jumpBody : Body :=
  ⟨⟨[(0, .jump Opcode.goto 3), (3, .simple Opcode.return_)], [], [.lines [(3, 7), (1, 9), (3, 8)]]⟩,
    0, 1, 4⟩

theorem sortedLines_jumpBody : jumpBody.sortedLines = [(1, 9), (3, 7), (3, 8)] := by
  simp [Listing.sortedLines, Listing.lines, jumpBody, CodeAttribute.lineRows, List.mergeSort,
    List.MergeSort.Internal.splitInTwo]

theorem decodeFrom_jumpCode : jumpCode.decodeFrom ⟨8, 4⟩ 0 = .ok jumpBody.instructions := by
  rw [decodeFrom, if_pos (by decide)]
  refine bind_eq_ok_iff.2 ⟨(.jump Opcode.goto 3, 2), rfl,
    bind_eq_ok_iff.2 ⟨[(3, .simple Opcode.return_)], ?_, rfl⟩⟩
  rw [decodeFrom, if_pos (by decide)]
  refine bind_eq_ok_iff.2 ⟨(.simple Opcode.return_, 0), rfl, bind_eq_ok_iff.2 ⟨[], ?_, rfl⟩⟩
  rw [decodeFrom, if_neg (by decide)]
  rfl

theorem decodeBody_jumpCode : jumpCode.decodeBody 0 = .ok jumpBody := by
  have hname : jumpCode.utf8At 16 = .ok "LineNumberTable" := rfl
  have htable : jumpCode.decodeTable 4 (jumpCode.decodeLine ⟨8, 4⟩) 22 = .ok [(3, 7), (1, 9), (3, 8)] := rfl
  have hattribute : jumpCode.decodeCodeAttribute ⟨8, 4⟩ 16 = .ok (.lines [(3, 7), (1, 9), (3, 8)], 36) := by
    refine bind_eq_ok_iff.2 ⟨_, hname, ?_⟩
    rw [if_pos rfl]
    exact bind_eq_ok_iff.2 ⟨_, congrArg (Except.map CodeAttribute.lines) htable, rfl⟩
  have hattributes : jumpCode.decodeAttributes ⟨8, 4⟩ 1 16 = .ok jumpBody.attributes :=
    bind_eq_ok_iff.2 ⟨_, hattribute, rfl⟩
  have hlisting : jumpCode.decodeListing ⟨8, 4⟩ = .ok jumpBody.toListing :=
    bind_eq_ok_iff.2 ⟨jumpBody.instructions, decodeFrom_jumpCode, bind_eq_ok_iff.2 ⟨[], rfl,
      bind_eq_ok_iff.2 ⟨1, rfl, bind_eq_ok_iff.2 ⟨_, hattributes, rfl⟩⟩⟩⟩
  exact bind_eq_ok_iff.2 ⟨0, rfl, bind_eq_ok_iff.2 ⟨1, rfl, bind_eq_ok_iff.2 ⟨4, rfl,
    bind_eq_ok_iff.2 ⟨#[167, 0, 3, 177], rfl, bind_eq_ok_iff.2 ⟨_, hlisting, rfl⟩⟩⟩⟩⟩

theorem readCode_jumpCode : (jumpCode.readCode 0).all =
    (.ok (), #[.instruction (.jump Opcode.goto ⟨0, false⟩), .label ⟨0, false⟩, .line 7 ⟨0, false⟩,
      .line 8 ⟨0, false⟩, .instruction (.simple Opcode.return_), .sizes 0 1]) := by
  rw [readCode_eq, decodeBody_jumpCode]
  show (jumpBody.replay jumpCode).all = _
  rw [Body.replay, Body.opening, sortedLines_jumpBody]
  rfl

/-- The label of the return stands between the two instructions, with both lines of its offset. -/
theorem readCode_places_jump : ∃ label, jumpBody.Labelled label ∧
    jumpBody.PlacedAt label [.instruction (.jump Opcode.goto ⟨0, false⟩), .label ⟨0, false⟩,
      .line 7 ⟨0, false⟩, .line 8 ⟨0, false⟩, .instruction (.simple Opcode.return_), .sizes 0 1] 3 := by
  obtain ⟨b, label, locals, hb, hlabel, -, -, hplaced, -⟩ := readCode_places readCode_jumpCode
  obtain rfl : b = jumpBody := Except.ok.inj (hb.symm.trans decodeBody_jumpCode)
  exact ⟨label, hlabel, hplaced 3 (by decide) (by decide)⟩

end ClassBytes

end ClassFile
