/-
# Code read back

A method is written event by event, and read back in two passes.  Both sides meet at `Transcript`, which says
how its events become instructions, and at the tables of code: what is decoded from the attribute of the code
tells of the events of the method (`ClassBytes.Body.Retells`), with the places of their labels.  Reading code
emits the events of what is decoded, so instructions come in the same order, and whatever mentions a label has
the one label that is emitted at the place of that (`ClassWriter.Run.code_readBack`).
-/
import ClassFile.Proofs.Code.Placement
import ClassFile.Proofs.Code.Tables

namespace ClassFile

/-! ## 1. What is decoded -/

section Transcript

variable {place : Label → Nat} {pc stop : Nat} {es : List MethodEvent} {is : List (Nat × Instruction Nat)}

theorem ComesBack.head {i : Instruction Label} {next : Nat} {chunk : List (Nat × Instruction Nat)}
    (h : ComesBack place i pc next chunk) : ∃ j rest, chunk = (pc, j) :: rest := by
  cases h with
  | one => exact ⟨_, _, rfl⟩
  | around => exact ⟨_, _, rfl⟩

/-- An instruction that is no jump comes back as itself. -/
theorem Transcript.of_instruction {i : Instruction Label}
    (h : Transcript place pc (.instruction i :: es) is stop) (hi : ∀ op goal, i ≠ .jump op goal) :
    ∃ next rest, pc < next ∧ is = (pc, i.map place) :: rest ∧ Transcript place next es rest stop := by
  cases h with
  | instruction hback hrest =>
    cases hback with
    | one hlt =>
      have hreported : CodeWriter.reported i = i := by
        cases i
        case jump op goal => exact absurd rfl (hi op goal)
        all_goals rfl
      exact ⟨_, _, hlt, by rw [hreported]; rfl, hrest⟩
    | around => exact absurd rfl (hi _ _)
  | other hno => exact absurd rfl (hno i)

theorem Transcript.of_label {l : Label} (h : Transcript place pc (.label l :: es) is stop) :
    place l = pc ∧ Transcript place pc es is stop := by
  cases h with
  | label hl hrest => exact ⟨hl, hrest⟩
  | other _ hno => exact absurd rfl (hno l)

theorem Transcript.of_other {e : MethodEvent} (h : Transcript place pc (e :: es) is stop)
    (hi : ∀ i, e ≠ .instruction i) (hl : ∀ l, e ≠ .label l) : Transcript place pc es is stop := by
  cases h with
  | instruction => exact absurd rfl (hi _)
  | label => exact absurd rfl (hl _)
  | other _ _ hrest => exact hrest

/-- A transcript starts with an instruction, or with the end of the code. -/
theorem Transcript.start_mem (h : Transcript place pc es is stop) : pc ∈ is.map Prod.fst ++ [stop] := by
  induction h with
  | done stop => exact List.mem_singleton.2 rfl
  | label _ _ ih | other _ _ _ ih => exact ih
  | instruction hi _ _ =>
    obtain ⟨j, rest, rfl⟩ := hi.head
    exact List.mem_cons_self

/-- **The place of a label** is where an instruction starts, or the end of the code. -/
theorem Transcript.place_mem (h : Transcript place pc es is stop) {l : Label} (hl : .label l ∈ es) :
    place l ∈ is.map Prod.fst ++ [stop] := by
  induction h with
  | done => exact absurd hl List.not_mem_nil
  | @label k pc stop es is hk hrest ih =>
    rcases List.mem_cons.1 hl with heq | hl
    · obtain rfl : l = k := MethodEvent.label.inj heq
      exact hk ▸ hrest.start_mem
    · exact ih hl
  | instruction _ _ ih =>
    have := ih ((List.mem_cons.1 hl).resolve_left nofun)
    rw [List.map_append, List.append_assoc]
    exact List.mem_append_right _ this
  | other _ hno _ ih => exact ih ((List.mem_cons.1 hl).resolve_left fun heq => hno l heq.symm)

end Transcript

namespace ClassBytes.Body

/-- **What is decoded tells of events**: of their instructions, handlers, lines and local variables, with the
places of their labels. -/
structure Retells (c : ClassBytes) (place : Label → Nat) (es : List MethodEvent) (b : Body) : Prop where
  instructions : Transcript place 0 es b.instructions b.length
  handlers : b.handlers = handlerRows place (es.filterMap MethodEvent.handled?)
  lines : b.lines = (es.filterMap MethodEvent.line?).map fun row => (place row.1, row.2)
  locals : List.Forall₂ (c.Calls place) b.locals (es.filterMap MethodEvent.local?)

/-- The events of local variables that have been read back. -/
def calls (b : Body) (place : Label → Nat) (es : List MethodEvent) : List MethodEvent :=
  (es.filterMap MethodEvent.local?).map (callEvent b.label place)

variable {c : ClassBytes} {place : Label → Nat} {es : List MethodEvent} {b : Body} {o : Nat}

/-- **Reading code emits the events of what is decoded.**  The label of an offset stands there, once. -/
theorem Retells.readCode (hb : b.Retells c place es) (hdecode : c.decodeBody o = .ok b) :
    (c.readCode o).all = (.ok (), (b.spelled b.label (b.calls place es)).toArray) ∧ b.Labelled b.label ∧
      ∀ l, .label l ∈ es → place l ∈ b.mentioned →
        b.PlacedAt b.label (b.spelled b.label (b.calls place es)) (place l) := by
  have hrange := (c.reading_decodeBody o).answer b hdecode
  have hlocals := mapM_localVariable_eq hb.locals b.label
  refine ⟨?_, labelled_label hrange, fun l hl hmention => ?_⟩
  · rw [readCode_eq]
    exact returns_bind.2 ⟨b, #[], returns_lift.2 ⟨hdecode, rfl⟩, (returns_replay hrange).2 ⟨_, hlocals, rfl⟩⟩
  · exact placedAt_spelled hrange.chain (labelled_label hrange) (plain_localVariables hlocals)
      (hb.instructions.place_mem hl) hmention

end ClassBytes.Body

/-! ## 2. The end of a method -/

/-- **Two bytes can count the rows** of each table of code.  A handler whose range covers no code has none. -/
structure Countable (place : Label → Nat) (es : List MethodEvent) : Prop where
  handlers : (ClassBytes.handlerRows place (es.filterMap MethodEvent.handled?)).length ≤ 65535
  lines : (es.filterMap MethodEvent.line?).length ≤ 65535
  locals : (es.filterMap MethodEvent.local?).length ≤ 65535

/-- The place at which a label stands in code. -/
def CodeWriter.placeOf (w : CodeWriter) (l : Label) : Nat := (w.assembler.place? l).getD 0

variable {h : Hierarchy} {p p' q : ConstantPool} {es : List MethodEvent}

theorem MethodEvent.noted_of_handled? {e : MethodEvent} {r : HandlerRange} (he : e.handled? = some r) :
    e.noted = [r.start, r.stop, r.handler] := by
  cases e <;> cases he
  rfl

theorem MethodEvent.noted_of_local? {e : MethodEvent} {r : LocalRange} (he : e.local? = some r) :
    e.noted = [r.start, r.stop] := by
  cases e <;> cases he
  rfl

theorem CodeWriter.length_optional_le {α : Type} (content : List α → Attribute) (entries : List α) :
    (optional content entries).length ≤ 1 := by
  unfold optional
  split
  · exact Nat.zero_le 1
  · exact Nat.le_refl 1

/-- **The attribute of code is decoded** as what its tables say, with instructions that are those of its
code. -/
theorem CodeWriter.Tabled.exists_decodeBody {w w' : CodeWriter} {code : RawAttribute}
    {context : UInt16 → MethodContext} (hw : Tabled es w q) (hkept : Kept h w p)
    (hhierarchy : ∀ n, (context n).hierarchy = h) (hlocals : ∀ n, (context n).maxLocals = n)
    (hret : Returns (finish context w) p (code, w') p')
    (hq : ∀ i text, p'.text? i = some text → q.text? i = some text) (hqh : q.Ordered h)
    (hreached : ∀ l k, w.assembler.place? l = some k → k ≤ w.size) (hcount : Countable w.placeOf es)
    {c : ClassBytes} {o : Nat} (hc : c.HoldsPool q) (hat : c.bytes.Has o code.payload.toList)
    {is : List (Nat × Instruction Nat)}
    (his : ∀ span, c.HoldsCode q span w.assembler.code → c.decodeFrom span 0 = .ok is) :
    ∃ b, c.decodeBody o = .ok b ∧ b.length = w.size ∧ b.instructions = is ∧
      b.handlers = ClassBytes.handlerRows w.placeOf (es.filterMap MethodEvent.handled?) ∧
      b.lines = (es.filterMap MethodEvent.line?).map (fun row => (w.placeOf row.1, row.2)) ∧
      List.Forall₂ (c.Calls w.placeOf) b.locals (es.filterMap MethodEvent.local?) := by
  obtain ⟨maxStack, handlers, lines, locals, frames, hhandlers, hlines, hlocalEntries, -, hwritten⟩ :=
    content_of_finish hhierarchy hlocals hret
  obtain ⟨hcheck, -, hnoted⟩ := placed_of_finish hret
  obtain ⟨-, hsize⟩ := check_eq_ok_iff.1 hcheck
  have hplace : ∀ l ∈ w.noted, w.assembler.place? l = some (w.placeOf l) := fun l hl => by
    obtain ⟨k, hk⟩ := Option.isSome_iff_exists.1 (hnoted l hl)
    rw [placeOf, hk, Option.getD_some]
  have hle : ∀ l ∈ w.noted, w.placeOf l ≤ w.size := fun l hl => hreached l _ (hplace l hl)
  have hhandled : ∀ r ∈ es.filterMap MethodEvent.handled?, ∀ l ∈ [r.start, r.stop, r.handler],
      w.placeOf l ≤ w.size := by
    intro r hr l hl
    obtain ⟨e, he, hr⟩ := List.mem_filterMap.1 hr
    exact hle l (hw.noted e he l (MethodEvent.noted_of_handled? hr ▸ hl))
  have hnamed : ∀ r ∈ es.filterMap MethodEvent.local?, ∀ l ∈ [r.start, r.stop], w.placeOf l ≤ w.size := by
    intro r hr l hl
    obtain ⟨e, he, hr⟩ := List.mem_filterMap.1 hr
    exact hle l (hw.noted e he l (MethodEvent.noted_of_local? hr ▸ hl))
  have hlabels : ∀ row ∈ w.handlers.toList, ∀ l ∈ [row.start, row.stop, row.handler],
      w.assembler.place? l = some (w.placeOf l) := fun row hrow l hl =>
    hplace l (List.mem_append_left _ (List.mem_flatMap.2 ⟨row, hrow, hl⟩))
  obtain ⟨rows, htable, hbytes⟩ := handlerTable_eq hlabels
  obtain rfl := Except.ok.inj (hhandlers.symm.trans htable)
  obtain rfl := Except.ok.inj (hlines.symm.trans (lineEntries_eq hplace))
  obtain rfl := Except.ok.inj (hlocalEntries.symm.trans (localEntries_eq hplace))
  have hwritten := hwritten.mono fun i text hi => hq i text (hi hkept)
  refine ClassBytes.exists_decodeBody hwritten hat hsize ?_ (fun hcode => ?_) (fun o' hrows => ?_) ?_
    fun as has => ?_
  · simp only [List.length_append]
    have hline := length_optional_le Attribute.lineNumberTable (w.lines.toList.map (lineAt w.placeOf))
    have hlocal := length_optional_le Attribute.localVariableTable
      (w.locals.toList.map (LocalLabels.at w.placeOf))
    have hmap := length_optional_le Attribute.stackMapTable frames
    omega
  · exact his _ ⟨hc, hqh.numbered, hcode, rfl, hsize⟩
  · rw [hbytes] at hrows
    exact (hc.decodeHandlers hqh.sound.inOrder hw.handlers hhandled hsize hrows).2 hcount.handlers
  · rw [← Array.length_toList, hbytes, List.length_flatMap, ClassBytes.length_handlerRows hw.handlers]
    simp only [HandlerLabels.length_encoded, List.map_const', List.sum_replicate_nat, Nat.mul_comm]
  · have hlines := fun row hrow => hle row.1 (List.mem_append_right _ (List.mem_append_left _
      (List.mem_map.2 ⟨row, hrow, rfl⟩)))
    rw [← hw.lines]
    exact hc.readsTables hw.locals hlines hnamed hsize ⟨hw.lines ▸ hcount.lines, hcount.locals⟩ has

namespace MethodWriter

variable {c : ClassContext} {m m' m₁ : MethodWriter} {p₁ : ConstantPool} {body : List MethodEvent}

/-- **What labels are for**: in a method that can be ended, those that jumps, switches and tables mention have
been placed. -/
theorem mentioned_placed {mode : ComputeMode} {slots : UInt16} (hm : m.code = .start mode slots)
    (hp : p.Ordered c.hierarchy) (hopen : .finish ∉ body)
    (honce : (body.filterMap MethodEvent.placed?).Nodup) (hbody : Returns (m.events c body) p m₁ p₁)
    (hcode : m₁.hasCode = true) (hfinish : Returns (m₁.finish c) p₁ m' p') :
    ∀ e ∈ body, ∀ l ∈ e.branches ++ e.noted, .label l ∈ body := by
  have hlaying := laying_events hm hopen honce hbody
  obtain ⟨hcheck, hnoted, -⟩ := written_of_finish hcode hfinish
  intro e he l hl
  rcases List.mem_append.1 hl with hl | hl
  · obtain ⟨r, hr⟩ := hasOperand_of_branch hbody he hl
    obtain ⟨k, hk, -⟩ := hlaying.holds hbody hcheck hr
    exact mem_of_hasPlace ((hlaying.place l k).1 hk)
  · obtain ⟨k, hk⟩ := Option.isSome_iff_exists.1
      (hnoted l ((tabled_events hm hp hopen hbody).noted e he l hl))
    exact mem_of_hasPlace ((hlaying.place l k).1 hk)

/-- **The end of a method writes code that tells of its events**, in any class file that has what the pool
carries. -/
theorem retells_of_finish {mode : ComputeMode} {slots : UInt16} (hm : m.code = .start mode slots)
    (hp : p.Ordered c.hierarchy) (hopen : .finish ∉ body)
    (honce : (body.filterMap MethodEvent.placed?).Nodup)
    (hshaped : ∀ i, .instruction i ∈ body → i.Shaped) (hbody : Returns (m.events c body) p m₁ p₁)
    (hcode : m₁.hasCode = true) (hfinish : Returns (m₁.finish c) p₁ m' p') :
    p'.Ordered c.hierarchy ∧ ∃ code others, m'.table = m₁.table.add m₁.header.info.access m₁.header.name
        m₁.header.descriptor (code :: others) ∧ p'.text? code.name = some "Code" ∧
      (Countable m₁.code.placeOf body → ∀ q, p'.Carried q → q.Ordered c.hierarchy →
        ∀ (cb : ClassBytes) o, cb.HoldsPool q → cb.bytes.Has o code.payload.toList →
          ∃ b, cb.decodeBody o = .ok b ∧ b.Retells cb m₁.code.placeOf body) := by
  have hkept : CodeWriter.Kept c.hierarchy m.code p := hm ▸ CodeWriter.kept_start hp.sound mode slots
  have hkept₁ := kept_events hkept hopen hbody
  obtain ⟨hp₁, -⟩ := ordered_events hkept hp.numbered (closed_of_not_mem hopen) hbody
  obtain ⟨hp', hk'⟩ := ordered_events hkept₁ hp₁.numbered (show Closed [.finish] from nofun)
    (returns_events_singleton.2 hfinish)
  have htabled := tabled_events hm hp hopen hbody
  obtain ⟨ops, hlaid, -⟩ := (laying_events hm hopen honce hbody).laid
  obtain ⟨attributes, others, p₂, hattribute, htable, hlater⟩ := returns_finish (h := c.hierarchy) hfinish
  rcases returns_codeAttribute hattribute with ⟨-, code, rfl, hend⟩ | ⟨hno, -⟩
  · obtain ⟨hcheck, -⟩ := CodeWriter.placed_of_finish hend
    obtain ⟨hs₂, -, hname⟩ := hkept₁.finish (fun _ => rfl) hend
    refine ⟨hp', code, others, htable, ConstantPool.text?_later (hlater hs₂).2 hname,
      fun hcount q hq hqh cb o hcb hat => ?_⟩
    obtain ⟨is, htranscript, hreads⟩ := transcript_events hm hp hcheck hopen honce hshaped hbody
    have his : ∀ span, cb.HoldsCode q span m₁.code.assembler.code → cb.decodeFrom span 0 = .ok is := by
      intro span hspan
      have hnone : cb.decodeFrom span m₁.code.size = .ok [] := by
        unfold ClassBytes.decodeFrom
        exact if_neg (Nat.not_lt.2 (Nat.le_of_eq hspan.length.symm))
      have hall := hreads q (hk'.trans hq) cb span hspan [] hnone
      rwa [List.append_nil] at hall
    have hnames : ∀ i text, p₂.text? i = some text → q.text? i = some text := fun _ _ hi =>
      hq.text? (ConstantPool.text?_later (hlater hs₂).2 hi)
    obtain ⟨b, hdecode, hlength, hinstructions, hhandlers, hlines, hlocals⟩ :=
      (htabled.carried (hk'.trans hq)).exists_decodeBody hkept₁ (fun _ => rfl) (fun _ => rfl) hend hnames
        hqh hlaid.reached hcount hcb hat his
    refine ⟨b, hdecode, ?_, hhandlers, hlines, hlocals⟩
    rw [hinstructions, hlength]
    exact htranscript
  · exact absurd (hno.symm.trans hcode) Bool.false_ne_true

end MethodWriter

/-! ## 3. Methods of a class -/

/-- **Code is read back**, in a class that is being written, whatever its mode and its methods before.  Each
label is placed at most once, and instructions are of their shapes; in particular a `tableswitch` has as many
targets as keys, and not none, which is not checked when it is written.

What mentions a label has been refused by then unless the label is placed.  In any class file with what the pool
of the method carries, as that of the class is, and with the attribute of the code, the code is decoded as what
tells of the events: instructions in their order, and handlers, lines and local variables with the places of
their labels; two bytes have to be able to count the rows of each table.  Reading the code emits the events of
that, with one label for each offset, which stands once, at its place. -/
theorem ClassWriter.Run.code_readBack {options : WriterOptions} {w w₁ : ClassWriter}
    {p p₁ p' : ConstantPool} {m m' : MethodWriter} {info : MethodInfo} {body : List MethodEvent}
    (hrun : Run options w p) (hstart : Returns (w.startMethod info) p (m, w₁) p₁) (hcode : .code ∈ body)
    (hopen : .finish ∉ body) (honce : (body.filterMap MethodEvent.placed?).Nodup)
    (hshaped : ∀ i, .instruction i ∈ body → i.Shaped)
    (hret : Returns (m.events w₁.context (body ++ [.finish])) p₁ m' p') :
    (∀ (es : List ClassEvent) b p'', (∀ e ∈ es, e.Closed) →
      Returns (do (← es.foldlM ClassWriter.event (w₁.endMethod m')).bytes) p' b p'' →
        p''.Ordered options.hierarchy ∧ p'.Carried p'') ∧
    (∀ e ∈ body, ∀ l ∈ e.branches ++ e.noted, .label l ∈ body) ∧
    ∃ code others place,
      m'.table = w.methods.add info.access m.header.name m.header.descriptor (code :: others) ∧
      p'.text? code.name = some "Code" ∧
      (Countable place body → ∀ q, p'.Carried q → q.Ordered options.hierarchy →
        ∀ (c : ClassBytes) o, c.HoldsPool q → c.bytes.Has o code.payload.toList →
          ∃ b, c.decodeBody o = .ok b ∧ b.Retells c place body ∧
            (c.readCode o).all = (.ok (), (b.spelled b.label (b.calls place body)).toArray) ∧
            b.Labelled b.label ∧ ∀ l, .label l ∈ body → place l ∈ b.mentioned →
              b.PlacedAt b.label (b.spelled b.label (b.calls place body)) (place l)) := by
  have hordered := hrun.ordered
  obtain ⟨-, rfl⟩ := hrun.sound
  obtain ⟨hstart', rfl⟩ := ClassWriter.returns_startMethod.1 hstart
  obtain ⟨slots, hm, hinfo, htable⟩ := MethodWriter.returns_start hstart'
  obtain ⟨hs₁, -⟩ := MethodWriter.leads_start _ _ _ _ _ _ hstart' hordered.sound
  obtain ⟨hb₁, -⟩ := ConstantPool.additive_numbering.asked (MethodWriter.interning_start _ _ _) _ _ _
    hstart' hordered.numbered
  obtain ⟨m₂, p₂, hbody, hlast⟩ := MethodWriter.returns_events_append.1 hret
  have hfinish : Returns (m₂.finish w.context) p₂ m' p' := MethodWriter.returns_events_singleton.1 hlast
  obtain ⟨hheader, hsame, hhas⟩ := MethodWriter.header_events hopen hbody
  have hyes := hhas.2 (.inr hcode)
  have hp₁ : p₁.Ordered w.options.hierarchy := ⟨hs₁, hb₁⟩
  obtain ⟨hp', code, others, hadded, hname, hreads⟩ :=
    MethodWriter.retells_of_finish hm hp₁ hopen honce hshaped hbody hyes hfinish
  refine ⟨fun es b p'' hes hclass => ?_, ?_, code, others, m₂.code.placeOf, ?_, hname, ?_⟩
  · exact ClassWriter.carried_class (w := { w with methods := m'.table }) hp' hes hclass
  · exact MethodWriter.mentioned_placed hm hp₁ hopen honce hbody hyes hfinish
  · rw [hadded, hsame, htable, hheader, hinfo]
  · intro hcount q hq hqh c o hc hat
    obtain ⟨b, hdecode, hretells⟩ := hreads hcount q hq hqh c o hc hat
    exact ⟨b, hdecode, hretells, hretells.readCode hdecode⟩

section Switched

open MethodWriter (switchedBody)

theorem shaped_switched : ∀ i, .instruction i ∈ switchedBody → i.Shaped := by
  intro i hi
  simp only [switchedBody, List.mem_cons, List.not_mem_nil, or_false, reduceCtorEq,
    MethodEvent.instruction.injEq, false_or] at hi
  obtain rfl | rfl | rfl := hi
  · rfl
  · exact ⟨List.cons_ne_nil _ _, by decide⟩
  · rfl

theorem countable_switched (place : Label → Nat) : Countable place switchedBody :=
  ⟨Nat.zero_le _, Nat.zero_le _, Nat.zero_le _⟩

/-- A switch and what is around it, in their order, as any transcript has them. -/
theorem transcript_switched {place : Label → Nat} {is : List (Nat × Instruction Nat)} {stop : Nat}
    (h : Transcript place 0 switchedBody is stop) : ∃ n, 0 < n ∧ n < place ⟨0, false⟩ ∧
      is = [(0, .simple Opcode.iconst0), (n, .tableSwitch 0 0 (place ⟨0, false⟩) [place ⟨0, false⟩]),
        (place ⟨0, false⟩, .simple Opcode.return_)] := by
  obtain ⟨n, is₁, hn, rfl, h₁⟩ := (h.of_other nofun nofun).of_instruction nofun
  obtain ⟨k, is₂, hk, rfl, h₂⟩ := h₁.of_instruction nofun
  obtain ⟨rfl, h₃⟩ := h₂.of_label
  obtain ⟨_, is₃, -, rfl, h₄⟩ := h₃.of_instruction nofun
  cases h₄
  exact ⟨n, hn, hk, rfl⟩

/-- A method with a switch is read back, in a class of its own. -/
theorem ClassWriter.Run.code_readBack_switched : ∃ m p m' p' code others, ∃ place : Label → Nat,
    Returns ((ClassWriter.start ⟨.maxStack, .empty⟩).startMethod staticInfo) .empty
      (m, ClassWriter.start ⟨.maxStack, .empty⟩) p ∧
    .code ∈ switchedBody ∧ .finish ∉ switchedBody ∧ (switchedBody.filterMap MethodEvent.placed?).Nodup ∧
    (∀ i, .instruction i ∈ switchedBody → i.Shaped) ∧
    Returns (m.events (ClassWriter.start ⟨.maxStack, .empty⟩).context (switchedBody ++ [.finish])) p m' p' ∧
    m'.table = MemberTable.empty.add 8 m.header.name m.header.descriptor (code :: others) ∧
    ∀ q, p'.Carried q → q.Ordered .empty → ∀ (c : ClassBytes) o, c.HoldsPool q →
      c.bytes.Has o code.payload.toList → ∃ b n, c.decodeBody o = .ok b ∧
        b.instructions = [(0, .simple Opcode.iconst0),
          (n, .tableSwitch 0 0 (place ⟨0, false⟩) [place ⟨0, false⟩]),
          (place ⟨0, false⟩, .simple Opcode.return_)] ∧
        (c.readCode o).all = (.ok (), (b.spelled b.label []).toArray) := by
  obtain ⟨name, descriptor, p, hstart, hroom⟩ := starts_static ⟨.maxStack, .empty⟩
  obtain ⟨hstart', -⟩ := ClassWriter.returns_startMethod.1 hstart
  obtain ⟨hsound, -⟩ :=
    MethodWriter.leads_start _ _ _ _ _ _ hstart' (ConstantPool.sound_empty .empty)
  have hcode : .code ∈ switchedBody := List.mem_cons_self
  have hopen : .finish ∉ switchedBody := by simp [switchedBody]
  have honce : (switchedBody.filterMap MethodEvent.placed?).Nodup := List.nodup_singleton _
  obtain ⟨m', p', hret⟩ := MethodWriter.returns_switched hroom name descriptor
    (ClassWriter.start ⟨.maxStack, .empty⟩).context
  obtain ⟨-, -, code, others, place, htable, -, hreads⟩ :=
    ClassWriter.Run.code_readBack .fresh hstart hcode hopen honce shaped_switched hret
  refine ⟨_, p, m', p', code, others, place, hstart, hcode, hopen, honce, shaped_switched, hret, htable, ?_⟩
  intro q hq hqh c o hc hat
  obtain ⟨b, hdecode, hretells, hevents, -⟩ := hreads (countable_switched place) q hq hqh c o hc hat
  obtain ⟨n, -, -, hinstructions⟩ := transcript_switched hretells.instructions
  exact ⟨b, n, hdecode, hinstructions, hevents⟩

end Switched

end ClassFile
