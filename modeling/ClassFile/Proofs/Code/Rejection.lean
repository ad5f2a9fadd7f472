/-
# Malformed code is found before the first event

Reading code fails before the first event, or at the name or the descriptor of a local variable.  What can
be wrong with an instruction is found by the first pass: where that has come to the end, the second pass
comes to the end as well, whatever labels have been made since and whatever lines there are, and it makes
no label of its own (`deliver_of_scan`).  Names and descriptors are the one thing that is looked up after
the instructions (`FailsAtName`).
-/
import ClassFile.Proofs.Code.Passes

namespace ClassFile

/-- The labels of a table are in another one of the same code, which may have more. -/
structure LabelTable.KeptIn (t t' : LabelTable) : Prop where
  size : t'.labels.size = t.labels.size
  label : ∀ p l, t.label? p = some l → t'.label? p = some l

/-- The two ways in which a computation goes that does what a reading does first. -/
theorem Replays.all_eq {ε α β : Type} {r : Replay ε α} {x : Except Error β} {f : β → Replay ε α}
    (h : Replays r x f) :
    (∃ e, x = .error e ∧ r.all = (.error e, #[])) ∨ ∃ b, x = .ok b ∧ r.all = (f b).all := by
  unfold Replays at h
  cases x with
  | error e => exact .inl ⟨e, rfl, congrArg Replay.all h⟩
  | ok b => exact .inr ⟨b, rfl, congrArg Replay.all h⟩

theorem Replay.all_emitAll {ε α : Type} (es : List ε) (r : Replay ε α) :
    (Replay.emitAll es >>= fun _ => r).all = r es.toArray := by
  show (Replay.emitAll es >>= fun _ => r) #[] = _
  rw [bind_apply, Replay.emitAll_apply, Array.empty_append]

namespace ClassBytes

variable {c : ClassBytes} {span : CodeSpan}

/-! ## 1. The second pass after the first -/

/-- **Where the first pass has come to the end, the second one does**, with the labels that there are. -/
theorem deliver_of_scan {t : LabelTable} {events : Array MethodEvent}
    (hscan : ((c.scan span 0).run (.ofLength span.length)).all = (.ok ((), t), events)) :
    events = #[] ∧ ∀ t', t.KeptIn t' → ∀ lines,
      ((c.deliver span lines 0).run t').answer = .ok ((), t') := by
  have hsize := LabelTable.size_ofLength span.length
  rcases (scan_replays (c := c) hsize 0).all_eq with ⟨e, -, h⟩ | ⟨is, his, h⟩
  · cases hscan.symm.trans h
  cases hscan.symm.trans h
  refine ⟨rfl, fun t' hkept lines => ?_⟩
  have hrange : ∀ p ∈ is.flatMap (fun x => x.2.targets),
      p < (LabelTable.ofLength span.length).labels.size := fun p hp => by
    have := ((c.reading_decodeFrom span 0 (Nat.zero_le _)).answer _ his).targets_le p hp
    omega
  have hlabels : ∀ p ∈ is.flatMap (fun x => x.2.targets), (t'.label? p).isSome := fun p hp => by
    obtain ⟨l, hl⟩ := Option.isSome_iff_exists.1 ((LabelTable.isSome_markAll hrange).2 (.inr hp))
    rw [hkept.label p l hl]
    rfl
  have hsize' : t'.labels.size = span.length + 1 := by
    rw [hkept.size, LabelTable.size_markAll, hsize]
  show (c.deliver span lines 0 t').all.1 = _
  rw [deliver_eq hsize' (Nat.zero_le _) his hlabels lines, Replay.all_emitAll]
  rfl

/-! ## 2. Names of local variables -/

/-- Reading fails at the name or the descriptor of a local variable: all that is in front of it has been
emitted, the handlers, the second pass to its end, and the local variables before this one. -/
def FailsAtName (c : ClassBytes) (offset : Nat) (e : Error) (events : Array MethodEvent) : Prop :=
  ∃ (span : CodeSpan) (handlers : List (HandlerRow Label)) (tables : DebugTables)
    (labels : LabelTable) (delivered : Array MethodEvent) (named : List (LocalRow Label))
    (row : LocalRow Label) (rest : List (LocalRow Label)),
    span.start = offset + 8 ∧ (c.bytes.u32At (offset + 4)).map UInt32.toNat = .ok span.length ∧
      ((c.prepare span).run (.ofLength span.length)).all = (.ok ((handlers, tables), labels), #[]) ∧
      ((c.deliver span tables.lines 0).run labels).all = (.ok ((), labels), delivered) ∧
      tables.locals = named ++ row :: rest ∧ (named.forM c.nameLocal).answer = .ok () ∧
      (c.utf8At row.names = .error e ∨
        (∃ name, c.utf8At row.names = .ok name) ∧ c.utf8At (row.names + 2) = .error e) ∧
      events = (handlers.map fun h => .handler h.start h.stop h.handler h.caught).toArray ++
        delivered ++ (named.forM c.nameLocal).events

/-- What is looked up can only fail for what is wrong with the bytes. -/
theorem FailsAtName.ofBytes {offset : Nat} {e : Error} {events : Array MethodEvent}
    (h : c.FailsAtName offset e events) : e.ofBytes := by
  obtain ⟨_, _, _, _, _, _, row, _, -, -, -, -, -, -, hname | ⟨-, hdescriptor⟩, -⟩ := h
  · exact (c.reading_utf8At row.names).error e hname
  · exact (c.reading_utf8At (row.names + 2)).error e hdescriptor

/-- The code that a body has been decoded from. -/
theorem decodeListing_of_decodeBody {b : Body} {offset : Nat} (h : c.decodeBody offset = .ok b) :
    (c.bytes.u32At (offset + 4)).map UInt32.toNat = .ok b.length ∧
      c.decodeListing ⟨offset + 8, b.length⟩ = .ok b.toListing := by
  obtain ⟨maxStack, -, h⟩ := bind_eq_ok_iff.1 h
  obtain ⟨maxLocals, -, h⟩ := bind_eq_ok_iff.1 h
  obtain ⟨length, hlength, h⟩ := bind_eq_ok_iff.1 h
  obtain ⟨code, -, h⟩ := bind_eq_ok_iff.1 h
  obtain ⟨listing, hlisting, h⟩ := bind_eq_ok_iff.1 h
  cases h
  exact ⟨by rw [hlength]; rfl, hlisting⟩

/-- What can be wrong with a local variable. -/
theorem localVariable_eq_error_iff {l : LocalRow Label} {e : Error} :
    c.localVariable l = .error e ↔ c.utf8At l.names = .error e ∨
      (∃ name, c.utf8At l.names = .ok name) ∧ c.utf8At (l.names + 2) = .error e := by
  unfold localVariable
  rw [bind_eq_error_iff]
  refine or_congr_right ⟨?_, ?_⟩
  · rintro ⟨name, hname, h⟩
    rcases bind_eq_error_iff.1 h with h | ⟨_, -, h⟩
    · exact ⟨⟨name, hname⟩, h⟩
    · cases h
  · rintro ⟨⟨name, hname⟩, h⟩
    exact ⟨name, hname, bind_eq_error_iff.2 (.inl h)⟩

/-- A body whose replay fails has a local variable that cannot be named. -/
theorem failsAtName_of_replay {b : Body} {offset : Nat} {e : Error} {events : Array MethodEvent}
    (hb : c.decodeBody offset = .ok b) (h : (b.replay c).all = (.error e, events)) :
    c.FailsAtName offset e events := by
  obtain ⟨hlength, hlisting⟩ := decodeListing_of_decodeBody hb
  rw [Body.replay, Replay.all_emitAll] at h
  obtain ⟨named, row, rest, hrows, hnamed, hrow⟩ : ∃ named row rest,
      b.locals.map (LocalRow.map b.label) = named ++ row :: rest ∧
        Returns (named.forM c.nameLocal) b.opening.toArray () events ∧
        c.localVariable row = .error e := by
    rcases fails_bind.1 (show Fails _ b.opening.toArray e events from h) with h | ⟨_, _, -, h⟩
    · exact of_fails_nameLocals h
    · cases h
  obtain ⟨es, hes, rfl⟩ := returns_nameLocals.1 hnamed
  have hnamedAll : (named.forM c.nameLocal).all = (.ok (), es.toArray) :=
    returns_nameLocals.2 ⟨es, hes, (Array.empty_append).symm⟩
  refine ⟨⟨offset + 8, b.length⟩, b.handlers.map (HandlerRow.map b.label),
    ⟨b.sortedLines, b.locals.map (LocalRow.map b.label)⟩, b.table,
    (laidOut b.table b.length b.sortedLines b.instructions).toArray, named, row, rest, rfl, hlength,
    ?_, ?_, hrows, congrArg Prod.fst hnamedAll, localVariable_eq_error_iff.1 hrow, ?_⟩
  · rcases (prepare_replays c ⟨offset + 8, b.length⟩).all_eq with
      ⟨e', he', -⟩ | ⟨b', hb', hall⟩
    · cases hlisting.symm.trans he'
    · cases hlisting.symm.trans hb'
      exact hall
  · have := congrArg Replay.all (deliver_of_decodeListing hlisting b.sortedLines)
    rw [Replay.all_emitAll] at this
    exact this
  · have hevents : (named.forM c.nameLocal).events = es.toArray := congrArg Prod.snd hnamedAll
    rw [hevents, Body.opening, List.map_map, List.append_toArray]
    simp only [List.append_toArray]
    rfl

/-! ## 3. Both passes -/

/-- **Malformed code is found before the first event.**  An error comes before all events, or from the name
or the descriptor of a local variable; where labels have been made for all that is mentioned, the second
pass comes to the end without making one, and it comes to the end wherever the first pass does. -/
theorem readCode_rejects (c : ClassBytes) (offset : Nat) :
    (∀ e events, (c.readCode offset).all = (.error e, events) →
      (∀ place, e ≠ .labelOutOfRange place) ∧
        (events = #[] ∨ c.FailsAtName offset e events)) ∧
    (∀ (span : CodeSpan) prepared labels events,
      ((c.prepare span).run (.ofLength span.length)).all = (.ok (prepared, labels), events) →
        events = #[] ∧ ∀ lines, ((c.deliver span lines 0).run labels).answer = .ok ((), labels)) ∧
    ∀ (span : CodeSpan) labels events,
      ((c.scan span 0).run (.ofLength span.length)).all = (.ok ((), labels), events) →
        events = #[] ∧ ∀ labels', labels.KeptIn labels' → ∀ lines,
          ((c.deliver span lines 0).run labels').answer = .ok ((), labels') := by
  refine ⟨fun e events h => ?_, fun span prepared labels events h => ?_, fun _ _ _ => deliver_of_scan⟩
  · rcases (show Replays _ _ _ from c.readCode_eq offset).all_eq with ⟨e', he', hall⟩ | ⟨b, hb, hall⟩
    · cases h.symm.trans hall
      refine ⟨fun place hplace => ?_, .inl rfl⟩
      cases hplace ▸ (c.reading_decodeBody offset).error _ he'
    · have hname := failsAtName_of_replay hb (hall.symm.trans h)
      refine ⟨fun place hplace => ?_, .inr hname⟩
      cases hplace ▸ hname.ofBytes
  · rcases (prepare_replays c span).all_eq with ⟨e', -, hall⟩ | ⟨b, hb, hall⟩
    · cases h.symm.trans hall
    · cases h.symm.trans hall
      refine ⟨rfl, fun lines => ?_⟩
      show (c.deliver span lines 0 _).all.1 = _
      rw [deliver_of_decodeListing hb lines, Replay.all_emitAll]
      rfl

/-- Code that returns, with a local variable whose name has no record: the code and its tables, and behind
them the one record that there is. -/
def namelessCode : ClassBytes where
  bytes :=
    #[0, 0, 0, 1, 0, 0, 0, 1, 177, 0, 0, 0, 1, 0, 1, 0, 0, 0, 12, 0, 1, 0, 0, 0, 1, 0, 9, 0, 9, 0, 0] ++
      #[1, 0, 18, 76, 111, 99, 97, 108, 86, 97, 114, 105, 97, 98, 108, 101, 84, 97, 98, 108, 101]
  itemOffsets := #[0, 31]
  header := 0
  classAttributes := 0
  bootstrapOffsets := #[]
  bootstrapTable := none

/-- What the code says. -/
def namelessBody : Body :=
  ⟨⟨[(0, .simple Opcode.return_)], [], [.locals [⟨0, 1, 25, 0⟩]]⟩, 0, 1, 1⟩

theorem sortedLines_namelessBody : namelessBody.sortedLines = [] := by
  simp [Listing.sortedLines, Listing.lines, namelessBody, CodeAttribute.lineRows]

theorem decodeFrom_namelessCode : namelessCode.decodeFrom ⟨8, 1⟩ 0 = .ok namelessBody.instructions := by
  rw [decodeFrom, if_pos (by decide)]
  refine bind_eq_ok_iff.2 ⟨(.simple Opcode.return_, 0), rfl, bind_eq_ok_iff.2 ⟨[], ?_, rfl⟩⟩
  rw [decodeFrom, if_neg (by decide)]
  rfl

theorem decodeCodeAttribute_namelessCode :
    namelessCode.decodeCodeAttribute ⟨8, 1⟩ 13 = .ok (.locals [⟨0, 1, 25, 0⟩], 31) := by
  have hname : namelessCode.utf8At 13 = .ok "LocalVariableTable" := rfl
  have htable : namelessCode.decodeTable 10 (namelessCode.decodeLocal ⟨8, 1⟩) 19 =
      .ok [⟨0, 1, 25, 0⟩] := rfl
  refine bind_eq_ok_iff.2 ⟨_, hname, ?_⟩
  rw [if_neg (by decide), if_pos rfl]
  exact bind_eq_ok_iff.2 ⟨_, congrArg (Except.map CodeAttribute.locals) htable, rfl⟩

theorem decodeBody_namelessCode : namelessCode.decodeBody 0 = .ok namelessBody := by
  have hattributes : namelessCode.decodeAttributes ⟨8, 1⟩ 1 13 = .ok namelessBody.attributes :=
    bind_eq_ok_iff.2 ⟨_, decodeCodeAttribute_namelessCode, rfl⟩
  have hlisting : namelessCode.decodeListing ⟨8, 1⟩ = .ok namelessBody.toListing :=
    bind_eq_ok_iff.2 ⟨namelessBody.instructions, decodeFrom_namelessCode, bind_eq_ok_iff.2 ⟨[], rfl,
      bind_eq_ok_iff.2 ⟨1, rfl, bind_eq_ok_iff.2 ⟨_, hattributes, rfl⟩⟩⟩⟩
  exact bind_eq_ok_iff.2 ⟨0, rfl, bind_eq_ok_iff.2 ⟨1, rfl, bind_eq_ok_iff.2 ⟨1, rfl,
    bind_eq_ok_iff.2 ⟨#[177], rfl, bind_eq_ok_iff.2 ⟨_, hlisting, rfl⟩⟩⟩⟩⟩

theorem readCode_namelessCode : (namelessCode.readCode 0).all =
    (.error (.invalidConstantIndex 9),
      #[.label ⟨0, true⟩, .instruction (.simple Opcode.return_), .label ⟨1, true⟩]) := by
  rw [readCode_eq, decodeBody_namelessCode]
  show (namelessBody.replay namelessCode).all = _
  rw [Body.replay, Body.opening, sortedLines_namelessBody]
  rfl

/-- The instruction has been emitted, and then there is no name. -/
theorem readCode_rejects_nameless : namelessCode.FailsAtName 0 (.invalidConstantIndex 9)
    #[.label ⟨0, true⟩, .instruction (.simple Opcode.return_), .label ⟨1, true⟩] :=
  (((readCode_rejects namelessCode 0).1 _ _ readCode_namelessCode).2).resolve_left (by simp)

end ClassBytes

end ClassFile
