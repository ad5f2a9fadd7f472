/-
# Tables of code read back

Handlers, lines and local variables are noted as their events come in, in their order and with records of their
names (`CodeWriter.Tabled`).  Once the method has ended, their rows have the places of the labels in them, and
are read back as such, if two bytes can count those of each table.  Three things come back changed: a handler
whose range covers no code has no row, a local variable that would end before it starts ends where it starts,
and all that is left of a stack map is that there is one.
-/
import ClassFile.Proofs.Code.HandlerTable
import ClassFile.Proofs.Code.Passes
import ClassFile.Proofs.Code.Transcript

namespace ClassFile

/-! ## 1. Events and rows -/

/-- What a local variable is called, and where. -/
structure LocalRange where
  start : Label
  stop : Label
  name : String
  descriptor : String
  index : UInt16

/-- The line of an event, with its label. -/
def MethodEvent.line? : MethodEvent → Option (Label × UInt16)
  | .line number start => some (start, number)
  | _ => none

/-- The local variable of an event. -/
def MethodEvent.local? : MethodEvent → Option LocalRange
  | .localVariable name descriptor start stop index => some ⟨start, stop, name, descriptor, index⟩
  | _ => none

/-- An event that is none of a table. -/
def MethodEvent.Untabled (e : MethodEvent) : Prop :=
  e.handled? = none ∧ e.line? = none ∧ e.local? = none

variable {h : Hierarchy} {p p' q : ConstantPool} {place : Label → Nat}

theorem HandlerRange.ListedAs.carried {r : HandlerRange} {row : HandlerLabels} (hr : r.ListedAs p row)
    (hk : p.Carried p') : r.ListedAs p' row := by
  refine ⟨hr.start, hr.stop, hr.handler, rel_imp (fun name i hi => ?_) hr.caught⟩
  rw [ConstantPool.className?_eq_some_iff] at hi ⊢
  obtain ⟨n, hn, hname⟩ := hi
  exact ⟨n, hk.record _ _ hn, hk.record _ _ hname⟩

/-- **A local variable is listed**: the row has its labels and its index, and records of its name and of its
descriptor. -/
structure LocalRange.ListedAs (p : ConstantPool) (r : LocalRange) (row : LocalLabels) : Prop where
  start : row.start = r.start
  stop : row.stop = r.stop
  name : p.text? row.name = some r.name
  descriptor : p.text? row.descriptor = some r.descriptor
  index : row.index = r.index

theorem LocalRange.ListedAs.carried {r : LocalRange} {row : LocalLabels} (hr : r.ListedAs p row)
    (hk : p.Carried p') : r.ListedAs p' row :=
  ⟨hr.start, hr.stop, hk.text? hr.name, hk.text? hr.descriptor, hr.index⟩

/-! ## 2. Tables of code on the way -/

namespace CodeWriter

/-- **The tables of code** have what events said, in the order of the events. -/
structure Tabled (es : List MethodEvent) (w : CodeWriter) (p : ConstantPool) : Prop where
  handlers : List.Forall₂ (HandlerRange.ListedAs p) (es.filterMap MethodEvent.handled?) w.handlers.toList
  lines : w.lines.toList = es.filterMap MethodEvent.line?
  locals : List.Forall₂ (LocalRange.ListedAs p) (es.filterMap MethodEvent.local?) w.locals.toList

variable {w w' : CodeWriter} {es : List MethodEvent} {e : MethodEvent}

theorem tabled_start (mode : ComputeMode) (slots : UInt16) (p : ConstantPool) :
    Tabled [] (start mode slots) p := ⟨.nil, rfl, .nil⟩

theorem Tabled.carried (hw : Tabled es w p) (hk : p.Carried p') : Tabled es w p' :=
  ⟨hw.handlers.imp fun _ _ hr => hr.carried hk, hw.lines, hw.locals.imp fun _ _ hr => hr.carried hk⟩

/-- What is not of a table leaves the tables alone. -/
theorem Tabled.untabled (hw : Tabled es w p) (he : e.Untabled) (hk : p.Carried p')
    (hsame : w'.handlers = w.handlers ∧ w'.lines = w.lines ∧ w'.locals = w.locals) :
    Tabled (es ++ [e]) w' p' := by
  obtain ⟨hhandled, hline, hlocal⟩ := he
  obtain ⟨hhandlers, hlines, hlocals⟩ := hsame
  refine ⟨?_, ?_, ?_⟩
  · rw [List.filterMap_append, List.filterMap_cons_none hhandled, List.filterMap_nil, List.append_nil,
      hhandlers]
    exact hw.handlers.imp fun _ _ hr => hr.carried hk
  · rw [List.filterMap_append, List.filterMap_cons_none hline, List.filterMap_nil, List.append_nil,
      hlines, hw.lines]
  · rw [List.filterMap_append, List.filterMap_cons_none hlocal, List.filterMap_nil, List.append_nil,
      hlocals]
    exact hw.locals.imp fun _ _ hr => hr.carried hk

theorem Tabled.handler (hw : Tabled es w p) (hp : p.Ordered h) {start stop target : Label}
    {caught : Option String} {u : Unit}
    (hret : Returns (CodeWriter.handler start stop target caught w) p (u, w') p') :
    Tabled (es ++ [.handler start stop target caught]) w' p' := by
  obtain ⟨index, rfl, hpool⟩ := returns_handler_parts hret
  obtain ⟨hk, hcaught⟩ : p.Carried p' ∧
      Option.Rel (fun name i => p'.className? i = some name) caught index := by
    rcases hpool with ⟨rfl, rfl, rfl⟩ | ⟨name, i, rfl, rfl, hclass⟩
    · exact ⟨.refl _, .none⟩
    · obtain ⟨-, hk, -⟩ := ConstantPool.stays_classRef name _ _ _ hclass hp
      exact ⟨hk, .some (hp.sound.classRef hclass).2.2⟩
  refine ⟨?_, ?_, ?_⟩
  · rw [List.filterMap_append, Array.toList_push]
    exact List.rel_append (hw.handlers.imp fun _ _ hr => hr.carried hk) (.cons ⟨rfl, rfl, rfl, hcaught⟩ .nil)
  · rw [List.filterMap_append]
    exact hw.lines.trans (List.append_nil _).symm
  · rw [List.filterMap_append, show [MethodEvent.handler start stop target caught].filterMap
      MethodEvent.local? = [] from rfl, List.append_nil]
    exact hw.locals.imp fun _ _ hr => hr.carried hk

theorem Tabled.localVariable (hw : Tabled es w p) (hp : p.Ordered h) {name descriptor : String}
    {start stop : Label} {index : UInt16} {u : Unit}
    (hret : Returns (CodeWriter.localVariable name descriptor start stop index w) p (u, w') p') :
    Tabled (es ++ [.localVariable name descriptor start stop index]) w' p' := by
  obtain ⟨i, j, p₁, hname, hdescriptor, rfl⟩ := returns_localVariable_parts hret
  obtain ⟨hp₁, hk₁, htext⟩ := ConstantPool.stays_utf8 name _ _ _ hname hp
  obtain ⟨-, hk₂, htext'⟩ := ConstantPool.stays_utf8 descriptor _ _ _ hdescriptor hp₁
  have hk := hk₁.trans hk₂
  refine ⟨?_, ?_, ?_⟩
  · rw [List.filterMap_append, show [MethodEvent.localVariable name descriptor start stop index].filterMap
      MethodEvent.handled? = [] from rfl, List.append_nil]
    exact hw.handlers.imp fun _ _ hr => hr.carried hk
  · rw [List.filterMap_append]
    exact hw.lines.trans (List.append_nil _).symm
  · rw [List.filterMap_append]
    show List.Forall₂ _ _ (w.locals.push ⟨start, stop, i, j, index⟩).toList
    rw [Array.toList_push]
    exact List.rel_append (hw.locals.imp fun _ _ hr => hr.carried hk)
      (.cons ⟨rfl, rfl, htext p' hk₂, htext' p' (.refl p'), rfl⟩ .nil)

end CodeWriter

namespace MethodWriter

variable {c : ClassContext} {m m' : MethodWriter} {es : List MethodEvent} {e : MethodEvent}

open CodeWriter (Tabled)

/-- **An event**, other than the end, is noted in its table. -/
theorem tabled_event (hm : Tabled es m.code p) (hp : p.Ordered h) (hk : p.Carried p') (he : e ≠ .finish)
    (hret : Returns (m.event c e) p m' p') : Tabled (es ++ [e]) m'.code p' := by
  cases e with
  | default | annotated | parameterAnnotated =>
    obtain ⟨_, _, -, hdone⟩ := returns_bind.1 hret
    obtain ⟨rfl, -⟩ := returns_pure.1 hdone
    exact hm.untabled ⟨rfl, rfl, rfl⟩ hk ⟨rfl, rfl, rfl⟩
  | code =>
    obtain ⟨rfl, -⟩ := returns_pure.1 hret
    exact hm.untabled ⟨rfl, rfl, rfl⟩ hk ⟨rfl, rfl, rfl⟩
  | handler start stop target caught =>
    obtain ⟨w, hrun, rfl⟩ := returns_onCode.1 hret
    exact hm.handler hp hrun
  | instruction i =>
    obtain ⟨w, hrun, rfl⟩ := returns_onCode.1 hret
    obtain ⟨-, -, -, -, -, -, -, -, -, hsame, -⟩ := CodeWriter.returns_instruction hrun
    exact hm.untabled ⟨rfl, rfl, rfl⟩ hk hsame
  | label l =>
    obtain ⟨w, hrun, rfl⟩ := returns_onCode.1 hret
    obtain ⟨a, -, -, rfl⟩ := CodeWriter.returns_label hrun
    exact hm.untabled ⟨rfl, rfl, rfl⟩ hk ⟨rfl, rfl, rfl⟩
  | line number start =>
    obtain ⟨w, hrun, rfl⟩ := returns_onCode.1 hret
    obtain ⟨rfl, rfl⟩ := returns_modify_above.1 hrun
    refine ⟨?_, ?_, ?_⟩
    · rw [List.filterMap_append]
      exact (List.append_nil (es.filterMap MethodEvent.handled?)).symm ▸ hm.handlers
    · rw [List.filterMap_append, ← hm.lines]
      exact Array.toList_push
    · rw [List.filterMap_append]
      exact (List.append_nil (es.filterMap MethodEvent.local?)).symm ▸ hm.locals
  | localVariable name descriptor start stop index =>
    obtain ⟨w, hrun, rfl⟩ := returns_onCode.1 hret
    exact hm.localVariable hp hrun
  | sizes stack locals =>
    obtain ⟨w, hrun, rfl⟩ := returns_onCode.1 hret
    obtain ⟨rfl, rfl⟩ := returns_modify_above.1 hrun
    exact hm.untabled ⟨rfl, rfl, rfl⟩ hk ⟨rfl, rfl, rfl⟩
  | finish => exact absurd rfl he

/-- **Events without an end** are noted in their tables. -/
theorem tabled_events {mode : ComputeMode} {slots : UInt16} (hm : m.code = .start mode slots)
    (hp : p.Ordered c.hierarchy) (hopen : .finish ∉ es) (hret : Returns (m.events c es) p m' p') :
    Tabled es m'.code p' := by
  induction es using List.reverseRecOn generalizing m' p' with
  | nil =>
    obtain ⟨rfl, rfl⟩ := returns_pure.1 hret
    rw [hm]
    exact CodeWriter.tabled_start mode slots p
  | append_singleton es e ih =>
    obtain ⟨m₁, p₁, hes, he⟩ := returns_events_append.1 hret
    rw [List.mem_append, not_or, List.mem_singleton] at hopen
    have hkept : CodeWriter.Kept c.hierarchy m.code p := hm ▸ CodeWriter.kept_start hp.sound mode slots
    obtain ⟨hp₁, -⟩ := ordered_events hkept hp.numbered (closed_of_not_mem hopen.1) hes
    obtain ⟨-, hk⟩ := ordered_events (kept_events hkept hopen.1 hes) hp₁.numbered
      (closed_of_not_mem (by simpa using hopen.2)) he
    exact tabled_event (ih hopen.1 hes) hp₁ hk (Ne.symm hopen.2) (returns_events_singleton.1 he)

end MethodWriter

/-! ## 3. Rows with places -/

/-- The bytes of a row of a table of lines. -/
def LineEntry.encoded (e : LineEntry) : List UInt8 := wordBytes 2 e.start.toNat ++ wordBytes 2 e.line.toNat

/-- The bytes of a row of a table of local variables. -/
def LocalEntry.encoded (e : LocalEntry) : List UInt8 :=
  wordBytes 2 e.start.toNat ++ (wordBytes 2 e.length.toNat ++ (wordBytes 2 e.name.toNat ++
    (wordBytes 2 e.descriptor.toNat ++ wordBytes 2 e.index.toNat)))

theorem LineEntry.length_encoded (e : LineEntry) : e.encoded.length = 4 := by
  simp [encoded]

theorem LocalEntry.length_encoded (e : LocalEntry) : e.encoded.length = 10 := by
  simp [encoded]

theorem Attribute.toList_lineNumberTable (entries : List LineEntry) :
    (lineNumberTable entries).payload.toList =
      wordBytes 2 (UInt16.ofNat entries.length).toNat ++ entries.flatMap LineEntry.encoded := by
  refine (toList_putTable (fun b e => ?_) .empty entries).trans (List.nil_append _)
  simp only [putLine, Bytes.toList_putU16, LineEntry.encoded, List.append_assoc]

theorem Attribute.toList_localVariableTable (entries : List LocalEntry) :
    (localVariableTable entries).payload.toList =
      wordBytes 2 (UInt16.ofNat entries.length).toNat ++ entries.flatMap LocalEntry.encoded := by
  refine (toList_putTable (fun b e => ?_) .empty entries).trans (List.nil_append _)
  simp only [putLocal, Bytes.toList_putU16, LocalEntry.encoded, List.append_assoc]

theorem Attribute.size_lineNumberTable (entries : List LineEntry) :
    (lineNumberTable entries).payload.size = 2 + 4 * entries.length := by
  rw [← Array.length_toList, toList_lineNumberTable, List.length_append, length_wordBytes,
    List.length_flatMap]
  simp only [LineEntry.length_encoded, List.map_const', List.sum_replicate_nat, Nat.mul_comm]

theorem Attribute.size_localVariableTable (entries : List LocalEntry) :
    (localVariableTable entries).payload.size = 2 + 10 * entries.length := by
  rw [← Array.length_toList, toList_localVariableTable, List.length_append, length_wordBytes,
    List.length_flatMap]
  simp only [LocalEntry.length_encoded, List.map_const', List.sum_replicate_nat, Nat.mul_comm]

/-- A row of a table of lines, with the place of its label. -/
def lineAt (place : Label → Nat) (row : Label × UInt16) : LineEntry := ⟨UInt16.ofNat (place row.1), row.2⟩

/-- A row of a table of local variables, with the places of its labels. -/
def LocalLabels.at (place : Label → Nat) (row : LocalLabels) : LocalEntry :=
  ⟨UInt16.ofNat (place row.start), UInt16.ofNat (place row.stop - place row.start), row.name, row.descriptor,
    row.index⟩

namespace CodeWriter

variable {w : CodeWriter} {es : List MethodEvent}

theorem Tabled.noted (hw : Tabled es w p) : ∀ e ∈ es, ∀ l ∈ e.noted, l ∈ w.noted := by
  intro e he l hl
  cases e with
  | handler start stop target caught =>
    obtain ⟨row, hrow, hlisted⟩ := exists_of_forall₂ hw.handlers.flip
      (List.mem_filterMap.2 ⟨_, he, rfl⟩ : HandlerRange.mk start stop target caught ∈ _)
    refine List.mem_append_left _ (List.mem_flatMap.2 ⟨row, hrow, ?_⟩)
    rw [hlisted.start, hlisted.stop, hlisted.handler]
    exact hl
  | line number start =>
    obtain rfl := List.mem_singleton.1 hl
    refine List.mem_append_right _ (List.mem_append_left _ (List.mem_map.2 ⟨(l, number), ?_, rfl⟩))
    rw [hw.lines]
    exact List.mem_filterMap.2 ⟨_, he, rfl⟩
  | localVariable name descriptor start stop index =>
    obtain ⟨row, hrow, hlisted⟩ := exists_of_forall₂ hw.locals.flip
      (List.mem_filterMap.2 ⟨_, he, rfl⟩ : LocalRange.mk start stop name descriptor index ∈ _)
    refine List.mem_append_right _ (List.mem_append_right _ (List.mem_flatMap.2 ⟨row, hrow, ?_⟩))
    rw [hlisted.start, hlisted.stop]
    exact hl
  | _ => exact absurd hl List.not_mem_nil

variable (hplace : ∀ l ∈ w.noted, w.assembler.place? l = some (place l))

include hplace

theorem resolved_eq {l : Label} (hl : l ∈ w.noted) : w.resolved l = .ok (place l) := by
  rw [resolved, hplace l hl]

/-- The rows of the table of lines have the places of their labels. -/
theorem lineEntries_eq : w.lineEntries = .ok (w.lines.toList.map (lineAt place)) := by
  refine mapM_eq_ok_map fun row hrow => bind_eq_ok_iff.2 ⟨_, resolved_eq hplace ?_, rfl⟩
  exact List.mem_append_right _ (List.mem_append_left _ (List.mem_map.2 ⟨row, hrow, rfl⟩))

/-- The rows of the table of local variables have the places of their labels. -/
theorem localEntries_eq : w.localEntries = .ok (w.locals.toList.map (LocalLabels.at place)) := by
  refine mapM_eq_ok_map fun row hrow => ?_
  have hnoted : ∀ l ∈ [row.start, row.stop], l ∈ w.noted := fun l hl =>
    List.mem_append_right _ (List.mem_append_right _ (List.mem_flatMap.2 ⟨row, hrow, hl⟩))
  exact bind_eq_ok_iff.2 ⟨_, resolved_eq hplace (hnoted _ (by simp)),
    bind_eq_ok_iff.2 ⟨_, resolved_eq hplace (hnoted _ (by simp)), rfl⟩⟩

end CodeWriter

/-! ## 4. Rows read back -/

namespace ClassBytes

variable {c : ClassBytes} {span : CodeSpan} {o : Nat}

/-- A row of a table of lines is read back. -/
theorem decodeLine_eq {k : Nat} {line : UInt16} (hk : k ≤ span.length) (hlength : span.length ≤ 65535)
    (hat : c.bytes.Has o (LineEntry.encoded ⟨UInt16.ofNat k, line⟩)) :
    c.decodeLine span o = .ok (k, line) := by
  have hline := hat.right
  rw [length_wordBytes] at hline
  have hword : (UInt16.ofNat k).toNat = k :=
    UInt16.toNat_ofNat_of_lt' (Nat.lt_succ_of_le (Nat.le_trans hk hlength))
  refine bind_eq_ok_iff.2 ⟨_, hat.left.u16At, ?_⟩
  rw [hword, if_neg (Nat.not_lt.2 hk)]
  exact bind_eq_ok_iff.2 ⟨_, hline.u16At, rfl⟩

/-- **A row says what a local variable is called, and where**, up to its end, which does not come before its
start. -/
structure Calls (c : ClassBytes) (place : Label → Nat) (row : LocalRow Nat) (r : LocalRange) : Prop where
  start : row.start = place r.start
  stop : row.stop = max (place r.start) (place r.stop)
  name : c.utf8At row.names = .ok r.name
  descriptor : c.utf8At (row.names + 2) = .ok r.descriptor
  index : row.index = r.index

/-- A row of a table of local variables is read back. -/
theorem HoldsRecords.exists_decodeLocal (hc : c.HoldsRecords p) {r : LocalRange} {row : LocalLabels}
    (hr : r.ListedAs p row) (hplace : ∀ l ∈ [r.start, r.stop], place l ≤ span.length)
    (hlength : span.length ≤ 65535) (hat : c.bytes.Has o (row.at place).encoded) :
    ∃ x, c.decodeLocal span o = .ok x ∧ c.Calls place x r := by
  obtain ⟨start, stop, name, descriptor, index⟩ := row
  obtain ⟨rfl, rfl, hname, hdescriptor, rfl⟩ := hr
  have hfirst := hat.left
  have hcount := hat.right.left
  have hnamed := hat.right.right.left
  have hdescribed := hat.right.right.right.left
  have hindex := hat.right.right.right.right
  simp only [LocalLabels.at, length_wordBytes, Nat.add_assoc, Nat.reduceAdd]
    at hfirst hcount hnamed hdescribed hindex
  have hstart := hplace r.start (by simp)
  have hstop := hplace r.stop (by simp)
  have hword : ∀ n, n ≤ span.length → (UInt16.ofNat n).toNat = n := fun n hn =>
    UInt16.toNat_ofNat_of_lt' (Nat.lt_succ_of_le (Nat.le_trans hn hlength))
  refine ⟨⟨place r.start, place r.start + (place r.stop - place r.start), o + 4, r.index⟩, ?_, rfl, ?_,
    hc.utf8At hnamed hname, hc.utf8At hdescribed hdescriptor, rfl⟩
  · refine bind_eq_ok_iff.2 ⟨_, hfirst.u16At, bind_eq_ok_iff.2 ⟨_, hcount.u16At, ?_⟩⟩
    rw [hword _ hstart, hword _ (by omega), if_neg (by omega), if_neg (by omega)]
    exact bind_eq_ok_iff.2 ⟨_, hindex.u16At, rfl⟩
  · dsimp only
    omega

/-- The event of a local variable that has been read back. -/
def callEvent (label : Nat → Label) (place : Label → Nat) (r : LocalRange) : MethodEvent :=
  .localVariable r.name r.descriptor (label (place r.start)) (label (max (place r.start) (place r.stop)))
    r.index

theorem mapM_localVariable_eq {rows : List (LocalRow Nat)} {rs : List LocalRange}
    (hrows : List.Forall₂ (c.Calls place) rows rs) (label : Nat → Label) :
    (rows.map (LocalRow.map label)).mapM c.localVariable = .ok (rs.map (callEvent label place)) := by
  induction hrows with
  | nil => rfl
  | cons hr _ ih =>
    rw [List.map_cons, List.mapM_cons]
    refine bind_eq_ok_iff.2 ⟨_, bind_eq_ok_iff.2 ⟨_, hr.name, bind_eq_ok_iff.2 ⟨_, hr.descriptor, rfl⟩⟩,
      bind_eq_ok_iff.2 ⟨_, ih, ?_⟩⟩
    dsimp only [LocalRow.map]
    rw [hr.start, hr.stop, hr.index]
    rfl

/-! ## 5. Attributes -/

/-- **Attributes of code are read back** wherever they stand: these lines, and rows for these local
variables. -/
def ReadsTables (c : ClassBytes) (span : CodeSpan) (place : Label → Nat) (as : List RawAttribute)
    (lines : List (Nat × UInt16)) (rs : List LocalRange) : Prop :=
  ∀ o, c.bytes.Has o (as.flatMap RawAttribute.encoded) →
    ∃ xs, c.decodeAttributes span as.length o = .ok xs ∧
      xs.flatMap CodeAttribute.lineRows = lines ∧
      List.Forall₂ (c.Calls place) (xs.flatMap CodeAttribute.localRows) rs

theorem readsTables_nil : c.ReadsTables span place [] [] [] := fun _ _ => ⟨[], rfl, rfl, .nil⟩

/-- What an attribute of this name holds, whose payload is at an offset. -/
def decodePayload (c : ClassBytes) (span : CodeSpan) (name : String) (payload : Nat) :
    Except Error CodeAttribute :=
  if name = "LineNumberTable" then .lines <$> c.decodeTable 4 (c.decodeLine span) payload
  else if name = "LocalVariableTable" then .locals <$> c.decodeTable 10 (c.decodeLocal span) payload
  else .ok .other

theorem decodeCodeAttribute_eq (c : ClassBytes) (span : CodeSpan) (o : Nat) :
    c.decodeCodeAttribute span o = (do
      let name ← c.utf8At o
      let a ← c.decodePayload span name (o + 6)
      return (a, o + 6 + (← c.bytes.u32At (o + 2)).toNat)) := by
  unfold decodeCodeAttribute decodePayload
  refine congrArg _ (funext fun name => ?_)
  dsimp only
  split
  · rfl
  · split <;> rfl

/-- An attribute is written as a table. -/
def WrittenAs (p : ConstantPool) (t : Attribute) (a : RawAttribute) : Prop :=
  p.text? a.name = some t.name ∧ a.payload = t.payload

/-- A table that is there just if it has entries stands in front of others. -/
theorem ReadsTables.optional {as rest : List RawAttribute} {lines lines' : List (Nat × UInt16)}
    {rs rs' : List LocalRange} (hrest : c.ReadsTables span place rest lines' rs') (hc : c.HoldsRecords p)
    {α : Type} {content : List α → Attribute} {entries : List α}
    (has : List.Forall₂ (WrittenAs p) (CodeWriter.optional content entries) as)
    (hnone : entries = [] → lines = [] ∧ rs = [])
    (hlength : rest = [] ∨ (content entries).payload.size < 4294967296)
    (hread : ∀ o, c.bytes.Has o (content entries).payload.toList →
      ∃ x, c.decodePayload span (content entries).name o = .ok x ∧ x.lineRows = lines ∧
        List.Forall₂ (c.Calls place) x.localRows rs) :
    c.ReadsTables span place (as ++ rest) (lines ++ lines') (rs ++ rs') := by
  unfold CodeWriter.optional at has
  split at has
  · rename_i hempty
    obtain ⟨rfl, rfl⟩ := hnone (List.isEmpty_iff.1 hempty)
    cases has
    exact hrest
  obtain ⟨a, as', ⟨hname, hpayload⟩, hnil, rfl⟩ := List.forall₂_cons_left_iff.1 has
  cases hnil
  intro o hat
  rw [List.singleton_append, List.flatMap_cons] at hat
  have hsize := hat.left.right.left
  have hbytes := hat.left.right.right
  simp only [length_wordBytes, Nat.add_assoc, Nat.reduceAdd] at hsize hbytes
  rw [hpayload] at hbytes
  obtain ⟨x, hx, rfl, hrows⟩ := hread _ hbytes
  have hdecode : c.decodeCodeAttribute span o =
      .ok (x, o + 6 + (UInt32.ofNat a.payload.size).toNat) := by
    rw [decodeCodeAttribute_eq]
    exact bind_eq_ok_iff.2 ⟨_, hc.utf8At hat.left.left hname, bind_eq_ok_iff.2 ⟨x, hx,
      bind_eq_ok_iff.2 ⟨_, hsize.u32At, rfl⟩⟩⟩
  obtain ⟨xs, hxs, rfl, hothers⟩ := hrest _ hat.right
  refine ⟨x :: xs, bind_eq_ok_iff.2 ⟨_, hdecode, bind_eq_ok_iff.2 ⟨xs, ?_, rfl⟩⟩, rfl,
    List.rel_append hrows hothers⟩
  rcases hlength with rfl | hlength
  · exact hxs
  · have hnext : o + 6 + (UInt32.ofNat a.payload.size).toNat = o + a.encoded.length := by
      rw [UInt32.toNat_ofNat_of_lt' (hpayload ▸ hlength), RawAttribute.encoded]
      simp only [List.length_append, length_wordBytes, Array.length_toList]
      omega
    exact hnext ▸ hxs

/-- The payload of a table of lines. -/
theorem decodePayload_lines {lines : List (Label × UInt16)} (hlines : ∀ row ∈ lines, place row.1 ≤ span.length)
    (hlength : span.length ≤ 65535) (hcount : lines.length ≤ 65535)
    (hat : c.bytes.Has o (Attribute.lineNumberTable (lines.map (lineAt place))).payload.toList) :
    c.decodePayload span "LineNumberTable" o = .ok (.lines (lines.map fun row => (place row.1, row.2))) := by
  rw [Attribute.toList_lineNumberTable] at hat
  have htable : c.decodeTable 4 (c.decodeLine span) o = .ok (lines.map fun row => (place row.1, row.2)) := by
    refine (decodeTable_eq_ok_iff LineEntry.length_encoded ?_ hat).2 (by simpa using hcount)
    rw [List.forall₂_map_left_iff, List.forall₂_map_right_iff]
    exact List.forall₂_same.2 fun row hrow o hat => decodeLine_eq (hlines row hrow) hlength hat
  exact congrArg (CodeAttribute.lines <$> ·) htable

/-- The payload of a table of local variables. -/
theorem HoldsRecords.decodePayload_locals (hc : c.HoldsRecords p) {rs : List LocalRange}
    {locals : List LocalLabels} (hlisted : List.Forall₂ (LocalRange.ListedAs p) rs locals)
    (hlocals : ∀ r ∈ rs, ∀ l ∈ [r.start, r.stop], place l ≤ span.length)
    (hlength : span.length ≤ 65535) (hcount : rs.length ≤ 65535)
    (hat : c.bytes.Has o (Attribute.localVariableTable (locals.map (LocalLabels.at place))).payload.toList) :
    ∃ rows, c.decodePayload span "LocalVariableTable" o = .ok (.locals rows) ∧
      List.Forall₂ (c.Calls place) rows rs := by
  rw [Attribute.toList_localVariableTable] at hat
  have hrows := (List.forall₂_and_left _ _).2 ⟨hlocals, hlisted⟩
  obtain ⟨rows, htable, hcalls⟩ := exists_decodeTable (R := c.Calls place) LocalEntry.length_encoded
    (List.forall₂_map_right_iff.2 (hrows.imp fun r row hr o hat =>
      hc.exists_decodeLocal hr.2 hr.1 hlength hat)) hcount hat
  exact ⟨rows, congrArg (CodeAttribute.locals <$> ·) htable, hcalls⟩

/-- **The tables of code are read back**: those of lines and local variables as their rows, and the stack map
as something else. -/
theorem HoldsRecords.readsTables (hc : c.HoldsRecords p) {lines : List (Label × UInt16)}
    {locals : List LocalLabels} {rs : List LocalRange} {frames : List MapFrame} {as : List RawAttribute}
    (hlisted : List.Forall₂ (LocalRange.ListedAs p) rs locals)
    (hlines : ∀ row ∈ lines, place row.1 ≤ span.length)
    (hlocals : ∀ r ∈ rs, ∀ l ∈ [r.start, r.stop], place l ≤ span.length)
    (hlength : span.length ≤ 65535) (hcount : lines.length ≤ 65535 ∧ rs.length ≤ 65535)
    (has : List.Forall₂ (WrittenAs p) (CodeWriter.optional .lineNumberTable (lines.map (lineAt place)) ++
      CodeWriter.optional .localVariableTable (locals.map (LocalLabels.at place)) ++
        CodeWriter.optional .stackMapTable frames) as) :
    c.ReadsTables span place as (lines.map fun row => (place row.1, row.2)) rs := by
  obtain ⟨front, mapAs, rfl, hfront, hmap⟩ := of_forall₂_append has
  obtain ⟨lineAs, localAs, rfl, hlineAs, hlocalAs⟩ := of_forall₂_append hfront
  have hmap : c.ReadsTables span place (mapAs ++ []) ([] ++ []) ([] ++ []) :=
    readsTables_nil.optional hc hmap (fun _ => ⟨rfl, rfl⟩) (.inl rfl) fun o _ => ⟨.other, rfl, rfl, .nil⟩
  have hlocal : c.ReadsTables span place (localAs ++ (mapAs ++ [])) ([] ++ ([] ++ [])) (rs ++ ([] ++ [])) := by
    refine hmap.optional hc hlocalAs (fun hnone => ?_) (.inr ?_) fun o hat => ?_
    · rw [List.map_eq_nil_iff] at hnone
      exact ⟨rfl, List.forall₂_nil_right_iff.1 (hnone ▸ hlisted)⟩
    · rw [Attribute.size_localVariableTable, List.length_map, ← hlisted.length_eq]
      omega
    · obtain ⟨rows, hread, hcalls⟩ := hc.decodePayload_locals hlisted hlocals hlength hcount.2 hat
      exact ⟨.locals rows, hread, rfl, hcalls⟩
  have hline : c.ReadsTables span place (lineAs ++ (localAs ++ (mapAs ++ [])))
      ((lines.map fun row => (place row.1, row.2)) ++ ([] ++ ([] ++ []))) ([] ++ (rs ++ ([] ++ []))) := by
    refine hlocal.optional hc hlineAs (fun hnone => ?_) (.inr ?_) fun o hat => ?_
    · rw [List.map_eq_nil_iff] at hnone
      exact ⟨by rw [hnone, List.map_nil], rfl⟩
    · rw [Attribute.size_lineNumberTable, List.length_map]
      omega
    · exact ⟨.lines _, decodePayload_lines hlines hlength hcount.1 hat, rfl, .nil⟩
  simpa using hline

end ClassBytes

/-! ## 6. The attribute of code -/

/-- The parts of the attribute of code. -/
theorem CodeContent.toList_putAll_head (x : CodeContent) (as : List RawAttribute) :
    (RawAttribute.putAll x.head as).toList =
      wordBytes 2 x.maxStack.toNat ++ (wordBytes 2 x.maxLocals.toNat ++
        (wordBytes 4 (UInt32.ofNat x.code.size).toNat ++ (x.code.toList ++
          ((wordBytes 2 x.handlers.1.toNat ++ x.handlers.2.toList) ++ RawAttribute.allEncoded as)))) := by
  rw [RawAttribute.toList_putAll, head]
  simp only [Bytes.toList_putBytes, Bytes.toList_putU16, Bytes.toList_putU32, List.append_assoc]
  rfl

/-- **The attribute of code is decoded**, if its instructions are, its handlers, and its tables. -/
theorem ClassBytes.exists_decodeBody {c : ClassBytes} {o : Nat} {x : CodeContent} {a : RawAttribute}
    (ha : x.Written (fun i name => p.text? i = some name) a)
    (hat : c.bytes.Has o a.payload.toList) (hsize : x.code.size ≤ 65535) (hfew : x.tables.length ≤ 65535)
    {is : List (Nat × Instruction Nat)} {handlers : List (HandlerRow Nat)} {lines : List (Nat × UInt16)}
    {rs : List LocalRange}
    (his : c.bytes.Has (o + 8) x.code.toList → c.decodeFrom ⟨o + 8, x.code.size⟩ 0 = .ok is)
    (hhandlers : ∀ o', c.bytes.Has o' (wordBytes 2 x.handlers.1.toNat ++ x.handlers.2.toList) →
      c.decodeTable 8 (c.decodeHandler ⟨o + 8, x.code.size⟩) o' = .ok handlers)
    (hbehind : x.handlers.2.size = 8 * handlers.length)
    (htables : ∀ as, List.Forall₂ (WrittenAs p) x.tables as →
      c.ReadsTables ⟨o + 8, x.code.size⟩ place as lines rs) :
    ∃ b, c.decodeBody o = .ok b ∧ b.length = x.code.size ∧ b.instructions = is ∧
      b.handlers = handlers ∧ b.lines = lines ∧ List.Forall₂ (c.Calls place) b.locals rs := by
  obtain ⟨as, hpayload, has⟩ := ha.payload
  rw [hpayload, CodeContent.toList_putAll_head] at hat
  have hmaxLocals := hat.right.left
  have hlength := hat.right.right.left
  have hcode := hat.right.right.right.left
  have hrows := hat.right.right.right.right.left
  have hcount := hat.right.right.right.right.right.left
  have hattributes := hat.right.right.right.right.right.right
  simp only [List.length_append, length_wordBytes, Array.length_toList, hbehind, Nat.add_assoc, Nat.reduceAdd]
    at hmaxLocals hlength hcode hrows hcount hattributes
  simp only [← Nat.add_assoc] at hrows hcount hattributes
  have hword : (UInt32.ofNat x.code.size).toNat = x.code.size :=
    UInt32.toNat_ofNat_of_lt' (Nat.lt_of_le_of_lt hsize (by decide))
  have hbytes := hcode.bytesAt
  rw [Array.length_toList] at hbytes
  obtain ⟨hcount, hnumber⟩ := hcount.count (has.length_eq ▸ hfew)
  obtain ⟨xs, hxs, hlines, hlocals⟩ := htables as has _ hattributes
  have hlisting : c.decodeListing ⟨o + 8, x.code.size⟩ = .ok ⟨is, handlers, xs⟩ := by
    refine bind_eq_ok_iff.2 ⟨is, his hcode, bind_eq_ok_iff.2 ⟨handlers, hhandlers _ hrows,
      bind_eq_ok_iff.2 ⟨_, hcount, ?_⟩⟩⟩
    rw [hnumber]
    exact bind_eq_ok_iff.2 ⟨xs, hxs, rfl⟩
  refine ⟨⟨⟨is, handlers, xs⟩, x.maxStack, x.maxLocals, x.code.size⟩, ?_, rfl, rfl, rfl, hlines, hlocals⟩
  refine bind_eq_ok_iff.2 ⟨_, hat.left.u16At, bind_eq_ok_iff.2 ⟨_, hmaxLocals.u16At,
    bind_eq_ok_iff.2 ⟨_, hlength.u32At, ?_⟩⟩⟩
  rw [hword]
  exact bind_eq_ok_iff.2 ⟨_, hbytes, bind_eq_ok_iff.2 ⟨_, hlisting, rfl⟩⟩

end ClassFile
