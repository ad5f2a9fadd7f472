/-
# Reading code is decoding it first

Reading goes over code twice, and only the second pass emits events.  What reading does before the first
event is what decoding in one go does (`prepare_replays`): the first pass fails where an instruction cannot
be decoded, and labels the targets otherwise (`scan_replays`), and the tables behind the code are labelled
as they are read.  Every offset that the second pass comes upon has a label by then, so it fails nowhere,
makes no label, and emits the instructions with the labels and lines in front of them (`deliver_eq`).

So the events follow from the body (`readCode_eq`).
-/
import ClassFile.Proofs.Code.Body
import ClassFile.Proofs.Code.Labels

namespace ClassFile

/-! ## 1. Computations that do what a reading does first -/

section Replays

variable {ε α β γ δ : Type}

/-- The computation ends as `x` does if that fails, without any event; otherwise it goes on with the
answer as `f` does. -/
def Replays (r : Replay ε α) (x : Except Error β) (f : β → Replay ε α) : Prop :=
  r = (liftM x : Replay ε β) >>= f

namespace Replays

variable {r : Replay ε γ} {x : Except Error β} {g : β → Except Error δ} {f : δ → Replay ε α}

theorem lift : Replays (liftM x : Replay ε β) x pure := (bind_pure _).symm

theorem pure {q : Replay ε α} {b : δ} (h : q = f b) : Replays q (Pure.pure b) f := h

theorem error (e : Error) : Replays (throw e) (.error e) f := rfl

theorem bind {k : β → γ} {h : γ → Replay ε α} (hr : Replays r x fun b => Pure.pure (k b))
    (hh : ∀ b, x = .ok b → Replays (h (k b)) (g b) f) : Replays (r >>= h) (x >>= g) f := by
  unfold Replays at hr ⊢
  cases x with
  | error e => rw [hr]; rfl
  | ok b =>
    rw [hr]
    exact hh b rfl

theorem congr {q : Replay ε α} {y : Except Error δ} {f' : δ → Replay ε α} (hq : Replays q y f)
    (hf : ∀ b, f b = f' b) : Replays q y f' := funext hf ▸ hq

/-- What is done with the answer in the end. -/
theorem map {k : β → δ} {q : Replay ε α} (hr : Replays q x fun b => f (k b)) :
    Replays q (x >>= fun b => Pure.pure (k b)) f := by
  unfold Replays at hr ⊢
  rw [hr]
  cases x <;> rfl

end Replays

end Replays

/-! ## 2. Labelling what is read -/

section Above

variable {α β γ δ : Type} {t t' : LabelTable} {m : CodeReader γ} {k : γ → CodeReader α}
  {x : Except Error β} {g : β → Except Error δ} {f : δ → Replay MethodEvent (α × LabelTable)}

namespace Replays

theorem lift_above : Replays ((liftM x : CodeReader β) t) x fun b => Pure.pure (b, t) := by
  cases x <;> rfl

theorem bind_above {l : β → γ × LabelTable} (hm : Replays (m t) x fun b => Pure.pure (l b))
    (hk : ∀ b, x = .ok b → Replays (k (l b).1 (l b).2) (g b) f) :
    Replays ((m >>= k) t) (x >>= g) f :=
  Replays.bind hm hk

end Replays

theorem lift_ok_above (b : β) : (liftM (.ok b : Except Error β) : CodeReader β) t = pure (b, t) := rfl

theorem emitAll_above (es : List MethodEvent) :
    (liftM (Replay.emitAll es) : CodeReader Unit) t =
      Replay.emitAll es >>= fun _ => pure ((), t) := rfl

theorem bind_above_of_pure {a : γ} (hm : m t = pure (a, t')) : (m >>= k) t = k a t' := by
  show (m t >>= fun x => k x.1 x.2) = _
  rw [hm, pure_bind]

end Above

section Emitted

variable {ε : Type}

theorem Replay.emitAll_append (xs ys : List ε) :
    Replay.emitAll (xs ++ ys) = Replay.emitAll xs >>= fun _ => Replay.emitAll ys := by
  unfold emitAll
  induction xs with
  | nil => rfl
  | cons x xs ih =>
    show (emit x >>= fun _ => List.forM (xs ++ ys) emit) = (emit x >>= fun _ => List.forM xs emit) >>= _
    rw [ih, bind_assoc]

theorem Replay.emitAll_singleton (x : ε) : Replay.emitAll [x] = Replay.emit x := rfl

/-- Emitting in one go and one after the other. -/
theorem Replay.emitAll_apply (events : List ε) (s : Array ε) :
    Replay.emitAll events s = (.ok (), s ++ events.toArray) := by
  induction events generalizing s with
  | nil => rw [Array.append_empty]; rfl
  | cons e events ih =>
    show emitAll events (s.push e) = _
    rw [ih]
    simp

end Emitted

namespace ClassBytes

/-- The same row with other places. -/
def HandlerRow.map {σ τ : Type} (f : σ → τ) (r : HandlerRow σ) : HandlerRow τ :=
  ⟨f r.start, f r.stop, f r.handler, r.caught⟩

/-- The same row with other places. -/
def LocalRow.map {σ τ : Type} (f : σ → τ) (r : LocalRow σ) : LocalRow τ :=
  ⟨f r.start, f r.stop, r.names, r.index⟩

theorem labelling_handler (d : Bool) (r : HandlerRow Nat) :
    Labelling d (r.mapM (labelFor d)) r.places fun label => r.map label :=
  (labelling_labelFor d r.start).bind
    (fun label l => HandlerRow.mk l (label r.stop) (label r.handler) r.caught) fun l =>
      (labelling_labelFor d r.stop).bind
        (fun label l' => HandlerRow.mk l l' (label r.handler) r.caught) fun l' =>
          (labelling_labelFor d r.handler).map (HandlerRow.mk l l' · r.caught)

theorem labelling_local (d : Bool) (r : LocalRow Nat) :
    Labelling d (r.mapM (labelFor d)) r.places fun label => r.map label :=
  (labelling_labelFor d r.start).bind (fun label l => LocalRow.mk l (label r.stop) r.names r.index)
    fun l => (labelling_labelFor d r.stop).map (LocalRow.mk l · r.names r.index)

/-- What the tables hold behind more attributes. -/
def DebugTables.with (tables : DebugTables) (as : List CodeAttribute) (label : Nat → Label) :
    DebugTables :=
  ⟨tables.lines ++ as.flatMap CodeAttribute.lineRows,
    tables.locals ++ (as.flatMap CodeAttribute.localRows).map (LocalRow.map label)⟩

theorem DebugTables.nil_with (as : List CodeAttribute) (label : Nat → Label) :
    DebugTables.with ⟨[], []⟩ as label =
      ⟨as.flatMap CodeAttribute.lineRows,
        (as.flatMap CodeAttribute.localRows).map (LocalRow.map label)⟩ := rfl

theorem DebugTables.with_with (tables : DebugTables) (a : CodeAttribute) (as : List CodeAttribute)
    (label : Nat → Label) : (tables.with [a] label).with as label = tables.with (a :: as) label := by
  simp [DebugTables.with]

theorem labelling_add (tables : DebugTables) (a : CodeAttribute) :
    Labelling true (tables.add a) a.places fun label => tables.with [a] label := by
  cases a with
  | lines rows =>
    have hrows := Labelling.mapM (fun row : Nat × UInt16 => labelling_labelFor true row.1) rows
    simp only [DebugTables.with, CodeAttribute.lineRows, CodeAttribute.localRows, List.flatMap_cons,
      List.flatMap_nil, List.append_nil, CodeAttribute.places, List.map_eq_flatMap]
    exact hrows.map fun _ => { tables with lines := tables.lines ++ rows }
  | locals rows =>
    have hrows := Labelling.mapM (labelling_local true) rows
    simp only [DebugTables.with, CodeAttribute.lineRows, CodeAttribute.localRows, List.flatMap_cons,
      List.flatMap_nil, List.append_nil, CodeAttribute.places]
    exact hrows.map fun rows => { tables with locals := tables.locals ++ rows }
  | other =>
    simp only [DebugTables.with, CodeAttribute.lineRows, CodeAttribute.localRows, List.flatMap_cons,
      List.flatMap_nil, List.append_nil, List.map_nil, CodeAttribute.places]
    exact .pure tables

/-! ## 3. The first pass, and the tables -/

variable {c : ClassBytes} {span : CodeSpan} {t : LabelTable}

/-- A step, once the instruction has been decoded. -/
theorem visit_above (ht : t.labels.size = span.length + 1)
    (visit : Instruction Label → Replay MethodEvent Unit) {pc n : Nat} {op : UInt8}
    {i : Instruction Nat} (hi : c.decodeOperands span pc op = .ok (i, n)) {α : Type}
    (k : CodeReader α) :
    (do visit (← i.mapM (labelFor false)); k : CodeReader α) t =
      visit (i.map (t.markAll false i.targets).label) >>= fun _ =>
        k (t.markAll false i.targets) := by
  have hrange : ∀ p ∈ i.targets, p < t.labels.size := fun p hp => by
    have := (c.reading_decodeOperands span pc op).answer _ hi p hp
    omega
  rw [bind_above_of_pure ((labelling_instruction false i).run t hrange)]
  show (visit _ >>= fun _ => _) >>= _ = _
  rw [bind_assoc]
  rfl

/-- What the first pass does at an instruction. -/
theorem step_replays (ht : t.labels.size = span.length + 1) (pc : Nat) :
    Replays (c.step span (fun _ => pure ()) pc t) (c.decodeInstruction span pc) fun x =>
      pure (x.2, t.markAll false x.1.targets) := by
  refine .bind_above .lift_above fun op _ => .bind_above .lift_above fun (i, n) hi => ?_
  dsimp only
  rw [visit_above ht (fun _ => pure ()) hi, pure_bind]
  split
  · exact .error _
  · exact .pure rfl

/-- What a pass does at an instruction whose targets have labels. -/
theorem step_of_decode (ht : t.labels.size = span.length + 1)
    (visit : Instruction Label → Replay MethodEvent Unit) {pc n : Nat} {i : Instruction Nat}
    (hdecode : c.decodeInstruction span pc = .ok (i, n))
    (hlabels : ∀ p ∈ i.targets, (t.label? p).isSome) :
    c.step span visit pc t = visit (i.map t.label) >>= fun _ => pure (n, t) := by
  obtain ⟨op, hop, hdecode⟩ := bind_eq_ok_iff.1 hdecode
  obtain ⟨x, hx, hdecode⟩ := bind_eq_ok_iff.1 hdecode
  obtain ⟨i', n'⟩ := x
  dsimp only at hdecode
  split at hdecode
  · cases hdecode
  · rename_i hend
    cases hdecode
    unfold step
    rw [hop, bind_above_of_pure (lift_ok_above op), hx, bind_above_of_pure (lift_ok_above (i, n))]
    dsimp only
    rw [visit_above ht visit hx, LabelTable.markAll_of_label? hlabels, if_neg hend]
    rfl

/-- **The first pass** fails where an instruction cannot be decoded, and labels the targets of all
instructions otherwise. -/
theorem scan_replays (ht : t.labels.size = span.length + 1) (pc : Nat) :
    Replays (c.scan span pc t) (c.decodeFrom span pc) fun is =>
      pure ((), t.markAll false (is.flatMap fun x => x.2.targets)) := by
  induction pc using decodeFrom.induct span generalizing t with
  | case1 pc hlt ih =>
    unfold scan decodeFrom
    rw [if_pos hlt, if_pos hlt]
    refine .bind_above (step_replays ht pc) fun x _ => ?_
    obtain ⟨i, n⟩ := x
    refine .map ?_
    simp only [List.flatMap_cons, LabelTable.markAll_append]
    exact ih n (by rw [LabelTable.size_markAll, ht])
  | case2 pc hge =>
    unfold scan decodeFrom
    rw [if_neg hge, if_neg hge]
    exact .pure rfl

theorem readDebugTables_replays (count : Nat) (tables : DebugTables) (offset : Nat)
    (ht : t.labels.size = span.length + 1) :
    Replays (c.readDebugTables span count tables offset t) (c.decodeAttributes span count offset)
      fun as => pure (tables.with as (t.markAll true (as.flatMap CodeAttribute.places)).label,
        t.markAll true (as.flatMap CodeAttribute.places)) := by
  induction count generalizing tables offset t with
  | zero =>
    refine .pure ?_
    simp [DebugTables.with, LabelTable.markAll, readDebugTables]
    rfl
  | succ count ih =>
    refine .bind_above .lift_above fun x ha => ?_
    obtain ⟨a, next⟩ := x
    have hrange : ∀ p ∈ a.places, p < t.labels.size := fun p hp => by
      have := (c.reading_decodeCodeAttribute span offset).answer _ ha p hp
      omega
    dsimp only
    rw [bind_above_of_pure ((labelling_add tables a).run t hrange)]
    refine .map ((ih _ next (by rw [LabelTable.size_markAll, ht])).congr fun as => ?_)
    rw [List.flatMap_cons, LabelTable.markAll_append,
      (labelling_add tables a).put_later true (as.flatMap CodeAttribute.places) hrange,
      DebugTables.with_with]

/-- The labels of code of this length, once all offsets that are mentioned have one. -/
def Listing.table (b : Listing) (length : Nat) : LabelTable :=
  ((LabelTable.ofLength length).markAll false b.targets).markAll true b.debugTargets

/-- The lines in the order of their offsets. -/
def Listing.sortedLines (b : Listing) : List (Nat × UInt16) :=
  b.lines.mergeSort fun x y => x.1 ≤ y.1

/-- **What comes before the events** fails where decoding in one go fails, and labels everything that is
mentioned otherwise. -/
theorem prepare_replays (c : ClassBytes) (span : CodeSpan) :
    Replays (c.prepare span (.ofLength span.length)) (c.decodeListing span) fun b => pure
      ((b.handlers.map (HandlerRow.map (b.table span.length).label),
      ⟨b.sortedLines, b.locals.map (LocalRow.map (b.table span.length).label)⟩),
      b.table span.length) := by
  have hsize := LabelTable.size_ofLength span.length
  refine .bind_above (scan_replays hsize 0) fun is _ => ?_
  refine .bind_above .lift_above fun rows hrows => ?_
  have hrange : ∀ p ∈ rows.flatMap HandlerRow.places, p < ((LabelTable.ofLength span.length).markAll
      false (is.flatMap fun x => x.2.targets)).labels.size := fun p hp => by
    obtain ⟨row, hrow, hp⟩ := List.mem_flatMap.1 hp
    have := (c.reading_decodeTable (c.reading_decodeHandler span) _).answer _ hrows row hrow p hp
    rw [LabelTable.size_markAll, hsize]
    omega
  have hlabels := Labelling.mapM (labelling_handler false) rows
  dsimp only
  rw [bind_above_of_pure (hlabels.run _ hrange)]
  refine .bind_above .lift_above fun count _ => ?_
  refine .bind_above (readDebugTables_replays _ _ _ (by simp)) fun as _ => .pure ?_
  dsimp only
  rw [hlabels.put_later true (as.flatMap CodeAttribute.places) hrange, DebugTables.nil_with]
  have htable : Listing.table ⟨is, rows, as⟩ span.length =
      (((LabelTable.ofLength span.length).markAll false (is.flatMap fun x => x.2.targets)).markAll false
        (rows.flatMap HandlerRow.places)).markAll true (as.flatMap CodeAttribute.places) := by
    rw [Listing.table, Listing.targets, LabelTable.markAll_append]
    rfl
  rw [htable]
  rfl

/-! ## 4. The second pass -/

/-- The label at `pc`, if there is one, and the lines that start there; also the lines behind it. -/
def headed (t : LabelTable) (lines : List (Nat × UInt16)) (pc : Nat) :
    List MethodEvent × List (Nat × UInt16) :=
  match t.label? pc with
  | none => ([], lines)
  | some l =>
    let lines := lines.dropWhile fun line => line.1 < pc
    (.label l :: (lines.takeWhile fun line => line.1 = pc).map fun line => .line line.2 l,
      lines.dropWhile fun line => line.1 = pc)

/-- What the second pass emits for instructions and for the end of the code. -/
def laidOut (t : LabelTable) (stop : Nat) (lines : List (Nat × UInt16)) :
    List (Nat × Instruction Nat) → List MethodEvent
  | [] => (headed t lines stop).1
  | (pc, i) :: rest =>
    (headed t lines pc).1 ++ .instruction (i.map t.label) ::
      laidOut t stop (headed t lines pc).2 rest

theorem bind_above_of_emitAll {α β : Type} {m : CodeReader α} {k : α → CodeReader β} {a : α}
    {t' : LabelTable} {es : List MethodEvent}
    (hm : m t = Replay.emitAll es >>= fun _ => pure (a, t')) :
    (m >>= k) t = Replay.emitAll es >>= fun _ => k a t' := by
  show (m t >>= fun x => k x.1 x.2) = _
  rw [hm, bind_assoc]
  rfl

theorem placeLabel_eq {pc : Nat} (hpc : pc < t.labels.size) (lines : List (Nat × UInt16)) :
    placeLabel lines pc t =
      Replay.emitAll (headed t lines pc).1 >>= fun _ => pure ((headed t lines pc).2, t) := by
  unfold placeLabel headed
  rw [bind_above_of_pure (show (get : CodeReader LabelTable) t = pure (t, t) from rfl)]
  cases h : t.label? pc with
  | none =>
    have hget := LabelTable.getElem?_of_unlabelled hpc h
    rw [hget]
    exact (pure_bind _ _).symm
  | some l =>
    have hget := LabelTable.getElem?_of_label? h
    rw [hget]
    dsimp only
    rw [← Replay.emitAll_singleton, bind_above_of_emitAll (emitAll_above _),
      bind_above_of_emitAll (emitAll_above _), ← bind_assoc, ← Replay.emitAll_append]
    rfl

/-- **The second pass** makes no label and fails nowhere, if the first pass has not failed and all
targets have labels. -/
theorem deliver_eq (ht : t.labels.size = span.length + 1) {pc : Nat} (hpc : pc ≤ span.length)
    {is : List (Nat × Instruction Nat)} (hdecode : c.decodeFrom span pc = .ok is)
    (hlabels : ∀ p ∈ is.flatMap (fun x => x.2.targets), (t.label? p).isSome)
    (lines : List (Nat × UInt16)) :
    c.deliver span lines pc t =
      Replay.emitAll (laidOut t span.length lines is) >>= fun _ => pure ((), t) := by
  induction pc using decodeFrom.induct span generalizing is lines with
  | case1 pc hlt ih =>
    unfold decodeFrom at hdecode
    rw [if_pos hlt] at hdecode
    obtain ⟨⟨i, n⟩, hi, hdecode⟩ := bind_eq_ok_iff.1 hdecode
    obtain ⟨rest, hrest, hdecode⟩ := bind_eq_ok_iff.1 hdecode
    cases hdecode
    have hend := ((c.reading_decodeInstruction span pc).answer _ hi).2
    have hstep := step_of_decode ht (fun i => Replay.emit (.instruction i)) hi
      fun p hp => hlabels p (List.mem_flatMap.2 ⟨_, List.mem_cons_self, hp⟩)
    rw [← Replay.emitAll_singleton] at hstep
    have hplace := placeLabel_eq (show pc < t.labels.size by omega) lines
    have hrestLabels : ∀ p ∈ rest.flatMap fun x => x.2.targets, (t.label? p).isSome := fun p hp =>
      hlabels p (List.flatMap_cons ▸ List.mem_append_right _ hp)
    unfold deliver
    rw [bind_above_of_emitAll hplace, if_pos hlt, bind_above_of_emitAll hstep,
      ih n hend hrest hrestLabels, ← bind_assoc, ← bind_assoc, ← Replay.emitAll_append,
      ← Replay.emitAll_append, List.append_assoc]
    rfl
  | case2 pc hge =>
    obtain rfl : pc = span.length := by omega
    unfold decodeFrom at hdecode
    rw [if_neg hge] at hdecode
    cases hdecode
    unfold deliver
    rw [bind_above_of_emitAll (placeLabel_eq (by omega) lines), if_neg hge]
    rfl

/-! ## 5. Local variables -/

/-- The event of a local variable, whose name and descriptor are looked up. -/
def localVariable (c : ClassBytes) (l : LocalRow Label) : Except Error MethodEvent := do
  let name ← c.utf8At l.names
  let descriptor ← c.utf8At (l.names + 2)
  return .localVariable name descriptor l.start l.stop l.index

theorem nameLocal_eq (l : LocalRow Label) :
    c.nameLocal l = (liftM (c.localVariable l) : Replay MethodEvent MethodEvent) >>= Replay.emit := by
  unfold nameLocal localVariable
  cases c.utf8At l.names with
  | error e => rfl
  | ok name => cases c.utf8At (l.names + 2) <;> rfl

theorem returns_nameLocal {l : LocalRow Label} {s s' : Array MethodEvent} {u : Unit} :
    Returns (c.nameLocal l) s u s' ↔ ∃ e, c.localVariable l = .ok e ∧ s' = s.push e := by
  rw [nameLocal_eq, returns_bind]
  constructor
  · rintro ⟨e, s₁, hlift, he⟩
    obtain ⟨hl, rfl⟩ := returns_lift.1 hlift
    exact ⟨e, hl, (returns_modify.1 he).symm⟩
  · rintro ⟨e, hl, rfl⟩
    exact ⟨e, s, returns_lift.2 ⟨hl, rfl⟩, returns_modify.2 rfl⟩

theorem fails_nameLocal {l : LocalRow Label} {s s' : Array MethodEvent} {e : Error} :
    Fails (c.nameLocal l) s e s' ↔ c.localVariable l = .error e ∧ s' = s := by
  rw [nameLocal_eq, fails_bind, fails_lift]
  refine ⟨fun h => ?_, fun h => .inl ⟨h.1, h.2.symm⟩⟩
  rcases h with ⟨h, rfl⟩ | ⟨_, _, -, h⟩
  · exact ⟨h, rfl⟩
  · cases h

/-- **All local variables have been named**: their events are emitted in order. -/
theorem returns_nameLocals {ls : List (LocalRow Label)} {s s' : Array MethodEvent} {u : Unit} :
    Returns (ls.forM c.nameLocal) s u s' ↔
      ∃ es, ls.mapM c.localVariable = .ok es ∧ s' = s ++ es.toArray := by
  induction ls generalizing s with
  | nil =>
    refine returns_pure.trans ⟨fun h => ⟨[], rfl, by simp [h.2]⟩, ?_⟩
    rintro ⟨es, hes, rfl⟩
    cases hes
    exact ⟨rfl, by simp⟩
  | cons l ls ih =>
    refine (returns_bind (m := c.nameLocal l)).trans ?_
    simp only [returns_nameLocal, ih, List.mapM_cons, bind_eq_ok_iff]
    constructor
    · rintro ⟨_, _, ⟨e, he, rfl⟩, es, hes, rfl⟩
      exact ⟨e :: es, ⟨e, he, es, hes, rfl⟩, by simp⟩
    · rintro ⟨_, ⟨e, he, es, hes, h⟩, rfl⟩
      cases h
      exact ⟨(), s.push e, ⟨e, he, rfl⟩, es, hes, by simp⟩

/-- **A local variable cannot be named**: those before it have been emitted. -/
theorem of_fails_nameLocals {ls : List (LocalRow Label)} {s s' : Array MethodEvent} {e : Error}
    (h : Fails (ls.forM c.nameLocal) s e s') : ∃ named l rest, ls = named ++ l :: rest ∧
      Returns (named.forM c.nameLocal) s () s' ∧ c.localVariable l = .error e := by
  induction ls generalizing s with
  | nil => cases h
  | cons l ls ih =>
    rcases (fails_bind (m := c.nameLocal l)).1 h with h | ⟨_, s₁, hl, h⟩
    · obtain ⟨hl, rfl⟩ := fails_nameLocal.1 h
      exact ⟨[], l, ls, rfl, rfl, hl⟩
    · obtain ⟨named, l', rest, rfl, hnamed, hl'⟩ := ih h
      exact ⟨l :: named, l', rest, rfl, returns_bind.2 ⟨(), s₁, hl, hnamed⟩, hl'⟩

/-! ## 6. Both passes -/

namespace Body

/-- The labels of the offsets that are mentioned. -/
def table (b : Body) : LabelTable := b.toListing.table b.length

/-- The label of an offset that is mentioned. -/
def label (b : Body) : Nat → Label := b.table.label

/-- The events that come before local variables: handlers, and the instructions with labels and lines in
front of them. -/
def opening (b : Body) : List MethodEvent :=
  b.handlers.map (fun h => .handler (b.label h.start) (b.label h.stop) (b.label h.handler) h.caught) ++
    laidOut b.table b.length b.sortedLines b.instructions

/-- The events of a body.  Local variables are looked up one after the other. -/
def replay (c : ClassBytes) (b : Body) : Replay MethodEvent Unit := do
  Replay.emitAll b.opening
  (b.locals.map (LocalRow.map b.label)).forM c.nameLocal
  Replay.emit (.sizes b.maxStack b.maxLocals)

end Body

/-- Every offset that is mentioned has a label. -/
theorem Listing.InRange.isSome_label? {b : Listing} {length place : Nat} (hb : b.InRange length) :
    ((b.table length).label? place).isSome ↔ place ∈ b.targets ∨ place ∈ b.debugTargets := by
  have htargets : ∀ p ∈ b.targets, p < (LabelTable.ofLength length).labels.size := fun p hp => by
    have := hb.targets_le p hp
    rw [LabelTable.size_ofLength]
    omega
  have hdebug : ∀ p ∈ b.debugTargets,
      p < ((LabelTable.ofLength length).markAll false b.targets).labels.size := fun p hp => by
    have := hb.attributes p hp
    rw [LabelTable.size_markAll, LabelTable.size_ofLength]
    omega
  rw [table, LabelTable.isSome_markAll hdebug, LabelTable.isSome_markAll htargets]
  simp

/-- The instructions of a listing are those that are decoded from the start of the code on. -/
theorem decodeFrom_of_decodeListing {b : Listing} (hb : c.decodeListing span = .ok b) :
    c.decodeFrom span 0 = .ok b.instructions := by
  obtain ⟨is, his, hb⟩ := bind_eq_ok_iff.1 hb
  obtain ⟨handlers, -, hb⟩ := bind_eq_ok_iff.1 hb
  obtain ⟨count, -, hb⟩ := bind_eq_ok_iff.1 hb
  obtain ⟨attributes, -, hb⟩ := bind_eq_ok_iff.1 hb
  cases hb
  exact his

/-- The second pass over code that has been decoded, with the labels of all that is mentioned. -/
theorem deliver_of_decodeListing {b : Listing} (hb : c.decodeListing span = .ok b)
    (lines : List (Nat × UInt16)) :
    c.deliver span lines 0 (b.table span.length) =
      Replay.emitAll (laidOut (b.table span.length) span.length lines b.instructions) >>= fun _ =>
        pure ((), b.table span.length) := by
  have hrange := (c.reading_decodeListing span).answer _ hb
  refine deliver_eq ?_ (Nat.zero_le _) (decodeFrom_of_decodeListing hb) (fun p hp => ?_) lines
  · rw [Listing.table, LabelTable.size_markAll, LabelTable.size_markAll, LabelTable.size_ofLength]
  · exact hrange.isSome_label?.2 (.inl (List.mem_append_left _ hp))

/-- **Reading code is decoding it, and then emitting the events of the body.** -/
theorem readCode_eq (c : ClassBytes) (offset : Nat) :
    c.readCode offset = (liftM (c.decodeBody offset) : Replay MethodEvent Body) >>= (Body.replay c) := by
  show Replays _ _ _
  unfold readCode decodeBody
  refine .bind .lift fun maxStack _ => .bind .lift fun maxLocals _ => .bind .lift fun length _ => ?_
  refine .bind .lift fun _ _ => ?_
  refine .bind (prepare_replays c ⟨offset + 8, length.toNat⟩) fun b hb => .pure ?_
  dsimp only
  rw [show (c.deliver ⟨offset + 8, length.toNat⟩ b.sortedLines 0).run (b.table length.toNat) = _ from
    deliver_of_decodeListing hb b.sortedLines, bind_assoc, ← bind_assoc, ← Replay.emitAll_append,
    List.map_map]
  rfl

end ClassBytes

end ClassFile
