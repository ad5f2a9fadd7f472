/-
# The same code in both modes

What is computed about code, the height of its stack or also its frames, is all that depends on the
graph and on the types of the pool.  So two runs of the same events, from states that differ by no more
(`MethodWriter.Twin`), stay so, event by event: labels are placed at the same positions, and the
constants get the same indices, which instructions are encoded with.

At the end, frames may need constants of their own.  Then names of attributes are all that is left to be
written, so the content of the attribute of the code (`CodeContent`) differs by the height and the stack
map only (`MethodWriter.sameCode_in_both_modes`).
-/
import ClassFile.Proofs.Code.HandlerTable
import ClassFile.Proofs.ConstantPool.Interning
import ClassFile.Proofs.MemberWriter

namespace ClassFile

/-! ## 1. Code -/

namespace CodeWriter

variable {w w' : CodeWriter} {p p' : ConstantPool}

theorem graph_noteLocals (i : Instruction Label) (w : CodeWriter) :
    (noteLocals i w).graph = w.graph := by
  cases i <;> rfl

/-- Noting locals has nothing to do with the graph. -/
theorem noteLocals_withGraph (i : Instruction Label) (w : CodeWriter) (g : BlockGraph) :
    noteLocals i { w with graph := g } = { noteLocals i w with graph := g } := by
  cases i <;> rfl

/-- **An instruction is encoded**, its locals are noted, and what else it does is done to the graph and to
the types. -/
theorem returns_instruction_noted {i : Instruction Label} {u : Unit}
    (hret : Returns (instruction i w) p (u, w') p') :
    ∃ around a p₁ g T, Returns (Assembler.encode i w.assembler) p (around, a) p₁ ∧
      w' = { noteLocals i { w with assembler := a } with graph := g } ∧
      p' = { p₁ with types := T } ∧ (w.graph.Frameless → g.Frameless) := by
  obtain ⟨w₀, w₁, p₁, hget, hret⟩ := returns_bind_above.1 hret
  obtain ⟨rfl, rfl, rfl⟩ := returns_get_above.1 hget
  obtain ⟨around, w₂, p₂, hassemble, hret⟩ := returns_bind_above.1 hret
  obtain ⟨a, hencode, rfl⟩ := returns_onAssembler.1 hassemble
  obtain ⟨v, w₃, p₃, hnote, hret⟩ := returns_bind_above.1 hret
  obtain ⟨rfl, rfl⟩ := returns_modify_above.1 hnote
  obtain ⟨w₄, w₅, p₄, hget, hret⟩ := returns_bind_above.1 hret
  obtain ⟨rfl, rfl, rfl⟩ := returns_get_above.1 hget
  obtain ⟨v, w₆, p₅, hreport, hret⟩ := returns_bind_above.1 hret
  obtain ⟨g, T, hstep, rfl, rfl⟩ := returns_onGraph.1 hreport
  rw [graph_noteLocals] at hstep
  have hbare : w.graph.Frameless → g.Frameless := fun hg => by
    have hquiet := BlockGraph.quiet_step w.size (noteLocals i { w with assembler := a }).size around
      (reported i) w.graph p₂.types hg
    rw [hstep] at hquiet
    exact hquiet.1
  obtain ⟨w₇, w₈, p₆, hget, hret⟩ := returns_bind_above.1 hret
  obtain ⟨rfl, rfl, rfl⟩ := returns_get_above.1 hget
  split at hret
  · obtain ⟨g', T', hsplit, rfl, rfl⟩ := returns_onGraph.1 hret
    cases hsplit
    exact ⟨around, a, p₂, splitAt _ g, T, hencode, rfl, rfl, fun hg =>
      (hbare hg).newBlock.startBlock _ _⟩
  · obtain ⟨-, rfl, rfl⟩ := returns_pure_above.1 hret
    exact ⟨around, a, p₂, g, T, hencode, rfl, rfl, hbare⟩

/-- What is known about two pieces of code differs by the graph, which has no frames in the first one, and
their pools differ by the types. -/
def Twin (w : CodeWriter) (p : ConstantPool) (v : CodeWriter) (q : ConstantPool) : Prop :=
  w.graph.Frameless ∧ ∃ g T, v = { w with graph := g } ∧ q = { p with types := T }

/-- What an operation does, apart from graph and types, has nothing to do with them. -/
def Blind (f : CodeM Unit) : Prop :=
  ∀ {w w' v v' : CodeWriter} {p p' q q' : ConstantPool}, Twin w p v q →
    Returns (f w) p ((), w') p' → Returns (f v) q ((), v') q' → Twin w' p' v' q'

theorem blind_modify {k : CodeWriter → CodeWriter}
    (hk : ∀ w g, k { w with graph := g } = { k w with graph := g }) : Blind (modify k) := by
  rintro w w' _ v' p p' _ q' ⟨hbare, g, T, rfl, rfl⟩ hw hv
  obtain ⟨rfl, rfl⟩ := returns_modify_above.1 hw
  obtain ⟨rfl, rfl⟩ := returns_modify_above.1 hv
  have hgraph : (k w).graph = w.graph := (congrArg CodeWriter.graph (hk w w.graph) :)
  exact ⟨hgraph ▸ hbare, g, T, hk w g, rfl⟩

theorem blind_instruction (i : Instruction Label) : Blind (instruction i) := by
  rintro w w' _ v' p p' _ q' ⟨hbare, g, T, rfl, rfl⟩ hw hv
  obtain ⟨around, a, p₁, g₁, T₁, hencode, rfl, rfl, hstep⟩ := returns_instruction_noted hw
  obtain ⟨around', a', q₁, g₂, T₂, hencode', rfl, rfl, -⟩ := returns_instruction_noted hv
  obtain ⟨heq, rfl⟩ := (Assembler.interning_encode i w.assembler).same hencode hencode'
  obtain ⟨-, rfl⟩ := Prod.mk.injEq .. ▸ heq
  exact ⟨hstep hbare, g₂, T₂, congrArg (fun w => { w with graph := g₂ })
    (noteLocals_withGraph i { w with assembler := a' } g), rfl⟩

theorem blind_label (l : Label) : Blind (label l) := by
  rintro w w' _ v' p p' _ q' ⟨hbare, g, T, rfl, rfl⟩ hw hv
  obtain ⟨a, hplace, rfl, rfl⟩ := returns_label hw
  obtain ⟨a', hplace', rfl, rfl⟩ := returns_label hv
  obtain rfl : a = a' := Except.ok.inj (hplace.symm.trans hplace')
  refine ⟨?_, _, T, rfl, rfl⟩
  show BlockGraph.Frameless (if l.debug then w.graph else w.graph.label l w.size)
  split
  · exact hbare
  · exact hbare.label l _

theorem blind_handler (start stop target : Label) (caught : Option String) :
    Blind (handler start stop target caught) := by
  rintro w w' _ v' p p' _ q' ⟨hbare, g, T, rfl, rfl⟩ hw hv
  obtain ⟨index, rfl, hindex⟩ := returns_handler_parts hw
  obtain ⟨index', rfl, hindex'⟩ := returns_handler_parts hv
  obtain ⟨rfl, rfl⟩ : index' = index ∧ q' = { p' with types := T } := by
    rcases hindex with ⟨hnone, rfl, rfl⟩ | ⟨name, i, hname, rfl, hclass⟩ <;>
      rcases hindex' with ⟨hnone', rfl, rfl⟩ | ⟨name', i', hname', rfl, hclass'⟩
    · exact ⟨rfl, rfl⟩
    · exact nomatch hnone.symm.trans hname'
    · exact nomatch hnone'.symm.trans hname
    · obtain rfl := Option.some.inj (hname.symm.trans hname')
      obtain ⟨rfl, rfl⟩ := (ConstantPool.interning_classRef name).same hclass hclass'
      exact ⟨rfl, rfl⟩
  exact ⟨hbare.addHandler _, _, T, rfl, rfl⟩

theorem blind_localVariable (name descriptor : String) (start stop : Label) (index : UInt16) :
    Blind (localVariable name descriptor start stop index) := by
  rintro w w' _ v' p p' _ q' ⟨hbare, g, T, rfl, rfl⟩ hw hv
  obtain ⟨i, j, p₁, hname, hdescriptor, rfl⟩ := returns_localVariable_parts hw
  obtain ⟨i', j', q₁, hname', hdescriptor', rfl⟩ := returns_localVariable_parts hv
  obtain ⟨rfl, rfl⟩ := (ConstantPool.interning_utf8 name).same hname hname'
  obtain ⟨rfl, rfl⟩ := (ConstantPool.interning_utf8 descriptor).same hdescriptor hdescriptor'
  exact ⟨hbare, g, T, rfl, rfl⟩

end CodeWriter

/-! ## 2. Methods -/

namespace MethodWriter

variable {m m' n n' : MethodWriter} {p p' q q' : ConstantPool} {c d : ClassContext}

/-- What is known about two methods differs by the graph, and their pools by the types. -/
def Twin (m : MethodWriter) (p : ConstantPool) (n : MethodWriter) (q : ConstantPool) : Prop :=
  ∃ code, n = { m with code := code } ∧ m.code.Twin p code q

theorem Twin.onCode (h : Twin m p n q) {f : CodeM Unit} (hf : CodeWriter.Blind f)
    (hm : Returns (m.onCode f) p m' p') (hn : Returns (n.onCode f) q n' q') : Twin m' p' n' q' := by
  obtain ⟨code, rfl, htwin⟩ := h
  obtain ⟨w, hw, rfl⟩ := returns_onCode.1 hm
  obtain ⟨v, hv, rfl⟩ := returns_onCode.1 hn
  exact ⟨v, rfl, hf htwin hw hv⟩

/-- Something is kept for the end, for which constants have been asked for. -/
theorem twin_keep {code : CodeWriter} (h : m.code.Twin p code q) {α : Type} {f : PoolM α}
    (hf : Interning f) {k : α → MethodWriter → MethodWriter}
    (hk : ∀ a m code, k a { m with code := code } = { k a m with code := code })
    (hcode : ∀ a m, (k a m).code = m.code) (hm : Returns (do return k (← f) m) p m' p')
    (hn : Returns (do return k (← f) { m with code := code }) q n' q') : Twin m' p' n' q' := by
  obtain ⟨hbare, g, T, rfl, rfl⟩ := h
  obtain ⟨a, p₁, ha, hdone⟩ := returns_bind.1 hm
  obtain ⟨rfl, rfl⟩ := returns_pure.1 hdone
  obtain ⟨b, q₁, hb, hdone⟩ := returns_bind.1 hn
  obtain ⟨rfl, rfl⟩ := returns_pure.1 hdone
  obtain ⟨rfl, rfl⟩ := hf.same ha hb
  exact ⟨_, hk b m _, (hcode b m).symm ▸ hbare, g, T, by rw [hcode], rfl⟩

/-- **An event** does the same to both. -/
theorem twin_event (h : Twin m p n q) {e : MethodEvent} (he : e ≠ .finish)
    (hm : Returns (m.event c e) p m' p') (hn : Returns (n.event d e) q n' q') : Twin m' p' n' q' := by
  cases e with
  | default values =>
    obtain ⟨code, rfl, htwin⟩ := h
    exact twin_keep htwin (k := fun payload m => { m with default := some payload })
      (AnnotationWriter.interning_encodeDefault .empty values) (fun _ _ _ => rfl) (fun _ _ => rfl) hm hn
  | annotated a =>
    obtain ⟨code, rfl, htwin⟩ := h
    exact twin_keep htwin (k := fun annotations m => { m with annotations := annotations })
      (m.annotations.interning_add a) (fun _ _ _ => rfl) (fun _ _ => rfl) hm hn
  | parameterAnnotated parameter a =>
    obtain ⟨code, rfl, htwin⟩ := h
    exact twin_keep htwin (k := fun annotations m => { m with parameterAnnotations := annotations })
      (m.parameterAnnotations.interning_add parameter a) (fun _ _ _ => rfl) (fun _ _ => rfl) hm hn
  | code =>
    obtain ⟨code, rfl, htwin⟩ := h
    obtain ⟨rfl, rfl⟩ := returns_pure.1 hm
    obtain ⟨rfl, rfl⟩ := returns_pure.1 hn
    exact ⟨code, rfl, htwin⟩
  | handler start stop target caught => exact h.onCode (CodeWriter.blind_handler _ _ _ _) hm hn
  | instruction i => exact h.onCode (CodeWriter.blind_instruction i) hm hn
  | label l => exact h.onCode (CodeWriter.blind_label l) hm hn
  | line number start => exact h.onCode (CodeWriter.blind_modify fun _ _ => rfl) hm hn
  | localVariable name descriptor start stop index =>
    exact h.onCode (CodeWriter.blind_localVariable _ _ _ _ _) hm hn
  | sizes stack locals => exact h.onCode (CodeWriter.blind_modify fun _ _ => rfl) hm hn
  | finish => exact absurd rfl he

/-- **All events** do the same to both. -/
theorem twin_events (h : Twin m p n q) {es : List MethodEvent} (hes : .finish ∉ es)
    (hm : Returns (m.events c es) p m' p') (hn : Returns (n.events d es) q n' q') :
    Twin m' p' n' q' := by
  induction es generalizing m p n q with
  | nil =>
    obtain ⟨rfl, rfl⟩ := returns_pure.1 hm
    obtain ⟨rfl, rfl⟩ := returns_pure.1 hn
    exact h
  | cons e es ih =>
    rw [List.mem_cons, not_or] at hes
    obtain ⟨m₁, p₁, he, hrest⟩ := returns_events_cons.1 hm
    obtain ⟨n₁, q₁, he', hrest'⟩ := returns_events_cons.1 hn
    exact ih (twin_event h (Ne.symm hes.1) he he') hes.2 hrest hrest'

/-- The mode in which a method is started is only noted. -/
theorem start_eq_map (mode mode' : ComputeMode) (info : MethodInfo) (table : MemberTable) :
    start mode' info table =
      (fun m => { m with code := .start mode' m.code.usedLocals }) <$> start mode info table := by
  simp only [start, map_bind, map_pure]
  rfl

/-- A method starts in the same way in both modes. -/
theorem twin_start {mode : ComputeMode} {info : MethodInfo} {table : MemberTable}
    (hm : Returns (start .maxStack info table) p m p') (hn : Returns (start mode info table) p n q') :
    Twin m p' n q' := by
  obtain ⟨slots, hcode, -⟩ := returns_start hm
  rw [start_eq_map .maxStack] at hn
  obtain ⟨m₁, hm₁, rfl⟩ := returns_map.1 hn
  obtain ⟨rfl, rfl⟩ : m = m₁ ∧ p' = q' := by
    cases hm.symm.trans hm₁
    exact ⟨rfl, rfl⟩
  refine ⟨_, rfl, ?_, .start mode, p'.types, by rw [hcode]; rfl, rfl⟩
  rw [hcode]
  exact BlockGraph.frameless_start

/-- The pool stays sound. -/
theorem kept_events {h : Hierarchy} (hm : CodeWriter.Kept h m.code p) {es : List MethodEvent}
    (hes : .finish ∉ es) (hret : Returns (m.events c es) p m' p') : CodeWriter.Kept h m'.code p' := by
  induction es generalizing m p with
  | nil =>
    obtain ⟨rfl, rfl⟩ := returns_pure.1 hret
    exact hm
  | cons e es ih =>
    rw [List.mem_cons, not_or] at hes
    obtain ⟨m₁, p₁, he, hrest⟩ := returns_events_cons.1 hret
    exact ih (kept_event hm (Ne.symm hes.1) he).1 hes.2 hrest

end MethodWriter

/-! ## 3. The attribute -/

/-- What the attribute of code says. -/
structure CodeContent where
  maxStack : UInt16
  maxLocals : UInt16
  code : Bytes
  /-- The number of rows of the table of handlers, and the rows. -/
  handlers : UInt16 × Bytes
  tables : List Attribute

namespace CodeContent

variable {x : CodeContent} {a : RawAttribute} {called called' : ConstantIndex → String → Prop}

/-- What comes before the attributes. -/
def head (x : CodeContent) : Bytes :=
  let sizes := (Bytes.empty.putU16 x.maxStack).putU16 x.maxLocals
  let code := (sizes.putU32 (UInt32.ofNat x.code.size)).putBytes x.code
  (code.putU16 x.handlers.1).putBytes x.handlers.2

/-- An attribute has this content, where names are called by indices. -/
structure Written (called : ConstantIndex → String → Prop) (x : CodeContent) (a : RawAttribute) :
    Prop where
  name : called a.name "Code"
  payload : ∃ as, a.payload = RawAttribute.putAll x.head as ∧
    List.Forall₂ (fun t r => called r.name t.name ∧ r.payload = t.payload) x.tables as

theorem Written.mono (ha : x.Written called a) (h : ∀ i name, called i name → called' i name) :
    x.Written called' a :=
  have ⟨as, hpayload, has⟩ := ha.payload
  ⟨h _ _ ha.name, as, hpayload, has.imp fun _ _ hr => ⟨h _ _ hr.1, hr.2⟩⟩

end CodeContent

namespace CodeWriter

variable {h : Hierarchy} {w w' : CodeWriter} {p p' : ConstantPool}

/-- A table that is there just if it has entries. -/
def optional {α : Type} (content : List α → Attribute) (entries : List α) : List Attribute :=
  if entries.isEmpty then [] else [content entries]

/-- Its name is found in a sound pool, and in all later ones. -/
theorem returns_table_optional {α : Type} {content : List α → Attribute} {entries : List α}
    {as : List RawAttribute} {q : ConstantPool} {P : Prop} (hp : P → p.Sound h ∧ p' ≤ q)
    (hret : Returns (table content entries) p as p') :
    List.Forall₂ (fun t r => (P → q.text? r.name = some t.name) ∧ r.payload = t.payload)
      (optional content entries) as := by
  rcases returns_table.1 hret with ⟨rfl, rfl, rfl⟩ | ⟨hne, i, hi, rfl⟩
  · exact .nil
  · rw [optional, if_neg (by simpa using hne)]
    exact .cons ⟨fun h => ConstantPool.text?_later (hp h).2 ((hp h).1.utf8 hi).2.2, rfl⟩ .nil

theorem interning_table {α : Type} (content : List α → Attribute) (entries : List α) :
    Interning (table content entries) := by
  unfold table
  split
  · exact .pure _
  · exact (ConstantPool.interning_named _).bind fun _ => .pure _

/-- **What the attribute of code says**, in terms of the code as it was before anything was computed. -/
theorem content_of_finish {context : UInt16 → MethodContext}
    (hhierarchy : ∀ n, (context n).hierarchy = h) (hlocals : ∀ n, (context n).maxLocals = n)
    {code : RawAttribute} (hret : Returns (finish context w) p (code, w') p') :
    ∃ maxStack handlers lines locals frames,
      w.handlerTable = .ok handlers ∧ w.lineEntries = .ok lines ∧ w.localEntries = .ok locals ∧
      (∃ p₁, Returns (analyse (context (max w.usedLocals w.givenLocals)) w) p
        ((maxStack, frames), w') p₁ ∧ p₁.SameTypes p') ∧
      CodeContent.Written (fun i name => Kept h w p → p'.text? i = some name)
        ⟨maxStack, max w.usedLocals w.givenLocals, w.assembler.code, handlers,
          optional .lineNumberTable lines ++ optional .localVariableTable locals ++
            optional .stackMapTable frames⟩ code := by
  obtain ⟨-, maxStack, frames, handlers, lineEntries, localEntries, lines, locals, map, p₁, p₂, p₃,
    p₄, hanalyse, hhandlers, hlineEntries, hlocalEntries, hlines, hlocals', hmap, hname, hpayload⟩ :=
    returns_finish hret
  obtain ⟨⟨g, rfl⟩, -⟩ := graph_of_analyse hanalyse
  have hpools : Kept h w p → (p₁.Sound h ∧ p₂ ≤ p') ∧ (p₂.Sound h ∧ p₃ ≤ p') ∧
      (p₃.Sound h ∧ p₄ ≤ p') := by
    intro hw
    obtain ⟨hs₁, -⟩ := hw.analyse (hhierarchy _) hanalyse
    obtain ⟨hs₂, hle₂, -⟩ := table_names hs₁ hlines
    obtain ⟨hs₃, hle₃, -⟩ := table_names hs₂ hlocals'
    obtain ⟨hs₄, hle₄, -⟩ := table_names hs₃ hmap
    obtain ⟨-, hle', -⟩ := hs₄.utf8 hname
    have hle₃' := ConstantPool.le_trans hle₄ hle'
    exact ⟨⟨hs₁, ConstantPool.le_trans hle₃ hle₃'⟩, ⟨hs₂, hle₃'⟩, hs₃, hle'⟩
  refine ⟨maxStack, handlers, lineEntries, localEntries, frames, hhandlers, hlineEntries, hlocalEntries,
    ⟨p₁, hanalyse, ?_⟩, fun hw => ?_, lines ++ locals ++ map, ?_, ?_⟩
  · exact ((ConstantPool.interning_utf8 _).types_eq hname).trans
      (((interning_table _ _).types_eq hmap).trans (((interning_table _ _).types_eq hlocals').trans
        ((interning_table _ _).types_eq hlines)))
  · exact (hw.finish hhierarchy hret).2.2
  · rw [hpayload, hlocals]
    rfl
  · exact List.rel_append (List.rel_append
      (returns_table_optional (fun hw => (hpools hw).1) hlines)
      (returns_table_optional (fun hw => (hpools hw).2.1) hlocals'))
      (returns_table_optional (fun hw => (hpools hw).2.2) hmap)

end CodeWriter

/-! ## 4. Both modes -/

/-- Two attributes of code have the same content, except for the height of the stack and the stack map. -/
def RawAttribute.SameCode (called called' : ConstantIndex → String → Prop) (a b : RawAttribute) :
    Prop :=
  ∃ (x : CodeContent) (maxStack : UInt16) (map : List Attribute), x.Written called a ∧
    CodeContent.Written called' { x with maxStack := maxStack, tables := x.tables ++ map } b ∧
    (x.tables.map Attribute.name).Sublist ["LineNumberTable", "LocalVariableTable"] ∧
    (map.map Attribute.name).Sublist ["StackMapTable"]

theorem RawAttribute.SameCode.mono {called₁ called₂ called₁' called₂' : ConstantIndex → String → Prop}
    {a b : RawAttribute} (hab : a.SameCode called₁ called₂ b)
    (h₁ : ∀ i name, called₁ i name → called₁' i name)
    (h₂ : ∀ i name, called₂ i name → called₂' i name) : a.SameCode called₁' called₂' b :=
  have ⟨x, maxStack, map, ha, hb, hnames⟩ := hab
  ⟨x, maxStack, map, ha.mono h₁, hb.mono h₂, hnames⟩

theorem CodeWriter.optional_names {α : Type} {content : List α → Attribute} {name : String}
    (hname : ∀ entries, (content entries).name = name) (entries : List α) :
    ((optional content entries).map Attribute.name).Sublist [name] := by
  unfold optional
  split
  · exact List.nil_sublist _
  · rw [List.map_singleton, hname]

/-- **The end of code** says the same in both modes. -/
theorem CodeWriter.Twin.finish {c : ClassContext} {info : MethodInfo} {w w' v v' : CodeWriter}
    {p p' q q' : ConstantPool} {a b : RawAttribute} (hw : Twin w p v q)
    (ha : Returns (CodeWriter.finish (MethodWriter.context c info) w) p (a, w') p')
    (hb : Returns (CodeWriter.finish (MethodWriter.context c info) v) q (b, v') q') :
    a.SameCode (fun i name => Kept c.hierarchy w p → p'.text? i = some name)
      (fun i name => Kept c.hierarchy v q → q'.text? i = some name) b := by
  obtain ⟨hbare, g, T, rfl, rfl⟩ := hw
  obtain ⟨maxStack, handlers, lines, locals, frames, hhandlers, hlines, hlocalEntries, ⟨_, hanalyse, -⟩,
    hwritten⟩ := content_of_finish (h := c.hierarchy) (fun _ => rfl) (fun _ => rfl) ha
  obtain ⟨maxStack', handlers', lines', locals', frames', hhandlers', hlines', hlocalEntries', -,
    hwritten'⟩ := content_of_finish (h := c.hierarchy) (fun _ => rfl) (fun _ => rfl) hb
  obtain rfl : handlers = handlers' := Except.ok.inj (hhandlers.symm.trans hhandlers')
  obtain rfl : lines = lines' := Except.ok.inj (hlines.symm.trans hlines')
  obtain rfl : locals = locals' := Except.ok.inj (hlocalEntries.symm.trans hlocalEntries')
  obtain rfl := (graph_of_analyse hanalyse).2 hbare.mode
  have hnone : optional Attribute.stackMapTable [] = [] := rfl
  rw [hnone, List.append_nil] at hwritten
  refine ⟨_, maxStack', optional .stackMapTable frames', hwritten, hwritten', ?_,
    optional_names (fun _ => rfl) frames'⟩
  rw [List.map_append]
  exact (optional_names (fun _ => rfl) lines).append (optional_names (fun _ => rfl) locals)

namespace MethodWriter

variable {c : ClassContext} {info : MethodInfo} {table : MemberTable} {es : List MethodEvent}
  {m m' m₁ m₂ : MethodWriter} {p p' p₁ p₂ : ConstantPool}

/-- Writes a whole method. -/
def write (c : ClassContext) (info : MethodInfo) (table : MemberTable) (es : List MethodEvent) :
    PoolM MethodWriter := do
  (← start c.mode info table).events c (es ++ [.finish])

/-- What is written is what the end makes of all other events. -/
theorem returns_write (hret : Returns (write c info table es) p m' p') : ∃ m₀ p₀ m₁ p₁,
    Returns (start c.mode info table) p m₀ p₀ ∧ Returns (m₀.events c es) p₀ m₁ p₁ ∧
      Returns (m₁.finish c) p₁ m' p' := by
  obtain ⟨m₀, p₀, hstart, hevents⟩ := returns_bind.1 hret
  obtain ⟨m₁, p₁, hbody, hend⟩ := returns_events_append.1 hevents
  have hfinish := returns_events_singleton.1 hend
  exact ⟨m₀, p₀, m₁, p₁, hstart, hbody, hfinish⟩

/-- A method has no code before its events say so. -/
theorem hasCode_start {mode : ComputeMode} (hret : Returns (start mode info table) p m p') :
    m.hasCode = false := by
  obtain ⟨type, p₁, -, hret₁⟩ := returns_bind.1 hret
  obtain ⟨name, p₂, -, hret₂⟩ := returns_bind.1 hret₁
  obtain ⟨descriptor, p₃, -, hret₃⟩ := returns_bind.1 hret₂
  obtain ⟨exceptions, p₄, -, hret₄⟩ := returns_bind.1 hret₃
  obtain ⟨signature, p₅, -, hret₅⟩ := returns_bind.1 hret₄
  obtain ⟨deprecated, p₆, -, hret₆⟩ := returns_bind.1 hret₅
  obtain ⟨rfl, rfl⟩ := returns_pure.1 hret₆
  rfl

theorem context_withMode (c : ClassContext) (mode : ComputeMode) (info : MethodInfo) :
    context { c with mode := mode } info = context c info := rfl

/-- What is kept from a sound pool on, before the end. -/
theorem kept_write {mode : ComputeMode} (hp : p.Sound c.hierarchy) (hopen : .finish ∉ es)
    (hstart : Returns (start mode info table) p m p') (hevents : Returns (m.events c es) p' m₁ p₁) :
    CodeWriter.Kept c.hierarchy m₁.code p₁ := by
  obtain ⟨slots, hcode, -⟩ := returns_start hstart
  obtain ⟨hs, -⟩ := leads_start _ _ _ _ _ _ hstart hp
  exact kept_events (hcode ▸ CodeWriter.kept_start hs mode slots) hopen hevents

/-- **The mode has no part in the code of a method.**  The events of a method without its end are
written in both modes, from the same pool and behind the same methods.  If both are written, each of them
has an attribute of its code just if there is code, and this comes first.  Both attributes have the same
number of locals, the same code, the same table of handlers, and tables of lines and of local variables
with the same payloads.  So only the height of the stack and the stack map differ, and the indices of
names; in a sound pool, the same names are found at these. -/
theorem sameCode_in_both_modes (hopen : .finish ∉ es)
    (hheights : Returns (write { c with mode := .maxStack } info table es) p m₁ p₁)
    (hframes : Returns (write { c with mode := .frames } info table es) p m₂ p₂) :
    ∃ name descriptor codes₁ codes₂ others₁ others₂,
      m₁.table = table.add info.access name descriptor (codes₁ ++ others₁) ∧
      m₂.table = table.add info.access name descriptor (codes₂ ++ others₂) ∧
      (.code ∉ es ∧ codes₁ = [] ∧ codes₂ = [] ∨
        .code ∈ es ∧ ∃ a b, codes₁ = [a] ∧ codes₂ = [b] ∧
          a.SameCode (fun i text => p.Sound c.hierarchy → p₁.text? i = some text)
            (fun i text => p.Sound c.hierarchy → p₂.text? i = some text) b) := by
  obtain ⟨m, q, n, r, hstart, hevents, hfinish⟩ := returns_write hheights
  obtain ⟨m', q', n', r', hstart', hevents', hfinish'⟩ := returns_write hframes
  obtain ⟨-, -, hinfo, htable⟩ := returns_start hstart
  obtain ⟨hheader, htable', hhas⟩ := header_events hopen hevents
  rw [hasCode_start hstart] at hhas
  obtain ⟨code, rfl, htwin⟩ := twin_events (twin_start hstart hstart') hopen hevents hevents'
  have hkept : p.Sound c.hierarchy → CodeWriter.Kept c.hierarchy n.code r :=
    fun hp => kept_write hp hopen hstart hevents
  have hkept' : p.Sound c.hierarchy → CodeWriter.Kept c.hierarchy code r' :=
    fun hp => kept_write (c := { c with mode := .frames }) hp hopen hstart' hevents'
  obtain ⟨codes₁, others₁, r₁, hcode, htable₁, hlater⟩ := returns_finish (h := c.hierarchy) hfinish
  obtain ⟨codes₂, others₂, r₂, hcode', htable₂, hlater'⟩ := returns_finish (h := c.hierarchy) hfinish'
  rw [htable', htable, hheader, hinfo] at htable₁ htable₂
  refine ⟨m.header.name, m.header.descriptor, codes₁, codes₂, others₁, others₂, htable₁, htable₂, ?_⟩
  rcases returns_codeAttribute hcode with ⟨hyes, a, rfl, ha⟩ | ⟨hno, rfl, -⟩ <;>
    rcases returns_codeAttribute hcode' with ⟨hyes', b, rfl, hb⟩ | ⟨hno', rfl, -⟩
  · refine .inr ⟨(hhas.1 hyes).resolve_left Bool.false_ne_true, a, b, rfl, rfl, ?_⟩
    rw [context_withMode] at ha hb
    refine (htwin.finish ha hb).mono (fun i text hi hp => ?_) fun i text hi hp => ?_
    · obtain ⟨hs, -⟩ := (hkept hp).finish (fun _ => rfl) ha
      exact ConstantPool.text?_later (hlater hs).2 (hi (hkept hp))
    · obtain ⟨hs, -⟩ := (hkept' hp).finish (fun _ => rfl) hb
      exact ConstantPool.text?_later (hlater' hs).2 (hi (hkept' hp))
  · exact absurd hno' (by simp [hyes])
  · exact absurd hyes' (by simp [hno])
  · exact .inl ⟨fun hmem => by simp [hhas.2 (.inr hmem)] at hno, rfl, rfl⟩

/-- A handler that throws again what it catches has the same code in both modes, and so has its row in the
table. -/
theorem sameCode_in_both_modes_rethrown : ∃ m₁ p₁ m₂ p₂ name descriptor a b others₁ others₂,
    .finish ∉ rethrownBody ∧
    Returns (write ⟨.maxStack, .empty, ""⟩ staticInfo .empty rethrownBody) .empty m₁ p₁ ∧
    Returns (write ⟨.frames, .empty, ""⟩ staticInfo .empty rethrownBody) .empty m₂ p₂ ∧
    m₁.table = MemberTable.empty.add 8 name descriptor (a :: others₁) ∧
    m₂.table = MemberTable.empty.add 8 name descriptor (b :: others₂) ∧
    a.SameCode (fun i text => p₁.text? i = some text) (fun i text => p₂.text? i = some text) b := by
  have hopen : .finish ∉ rethrownBody := by simp [rethrownBody]
  obtain ⟨name, descriptor, p, m₁, p₁, hstarts, hevents⟩ :=
    written_plain plain_rethrown (by decide) placed_rethrown (by decide)
  obtain ⟨hstart, -⟩ := ClassWriter.returns_startMethod.1 hstarts
  have hheights : Returns (write ⟨.maxStack, .empty, ""⟩ staticInfo .empty rethrownBody) .empty m₁ p₁ :=
    returns_bind.2 ⟨_, p, hstart, hevents⟩
  obtain ⟨name', descriptor', p', labels, assembler, i, m₂, p₂, hstarts', hevents', -⟩ := written_rethrown
  obtain ⟨hstart', -⟩ := ClassWriter.returns_startMethod.1 hstarts'
  have hframes : Returns (write ⟨.frames, .empty, ""⟩ staticInfo .empty rethrownBody) .empty m₂ p₂ :=
    returns_bind.2 ⟨_, p', hstart', hevents'⟩
  obtain ⟨n, d, codes₁, codes₂, others₁, others₂, htable₁, htable₂, hcodes⟩ :=
    sameCode_in_both_modes (c := ⟨.maxStack, .empty, ""⟩) hopen hheights hframes
  rcases hcodes with ⟨hno, -⟩ | ⟨-, a, b, rfl, rfl, hsame⟩
  · exact absurd List.mem_cons_self hno
  · have hsound := ConstantPool.sound_empty .empty
    exact ⟨m₁, p₁, m₂, p₂, n, d, a, b, others₁, others₂, hopen, hheights, hframes, htable₁, htable₂,
      hsame.mono (fun _ _ h => h hsound) fun _ _ h => h hsound⟩

end MethodWriter

end ClassFile
