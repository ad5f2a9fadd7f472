/-
# Code on the way to its attribute

While the events of a method come in, its graph stays well built, and its free blocks are those of
labels that have not been placed (`Tracked`).  Labels that only debug tables mention have no blocks, so
no jump, switch or handler may use them.

The attribute is made only if no room waits for a label and all labels of handlers have been placed.
Then no block is free any more (`named_placed_of_check`).
-/
import ClassFile.Proofs.BlockGraph.Marks
import ClassFile.Proofs.Code.Assembler

namespace ClassFile

/-! ## 1. Labels of events -/

/-- The label that an event places. -/
def MethodEvent.placed? : MethodEvent → Option Label
  | .label l => some l
  | _ => none

/-- The labels that an event uses as places to go to, or as bounds of what is handled. -/
def MethodEvent.used : MethodEvent → List Label
  | .handler start stop target _ => [start, stop, target]
  | .instruction i => i.targets
  | _ => []

/-- Is an event a part of code that jumps and handlers can see? -/
def MethodEvent.inCode : MethodEvent → Bool
  | .handler .. | .instruction _ | .label _ => true
  | _ => false

theorem MethodEvent.placed?_eq_none {e : MethodEvent} (he : e.inCode = false) : e.placed? = none := by
  cases e
  case label => exact nomatch he
  all_goals rfl

namespace CodeWriter

variable {h : Hierarchy} {w w' : CodeWriter} {p p' : ConstantPool} {l : Label}

/-! ## 2. Parts of events -/

theorem returns_onAssembler {α : Type} {f : AssembleM α} {a : α} :
    Returns (onAssembler f w) p (a, w') p' ↔
      ∃ a', Returns (f w.assembler) p (a, a') p' ∧ w' = { w with assembler := a' } := by
  obtain ⟨assembler, graph, handlers, lines, locals, usedLocals, givenStack, givenLocals⟩ := w
  unfold onAssembler
  rw [returns_bind]
  constructor
  · rintro ⟨⟨b, a'⟩, p₁, hf, hret⟩
    obtain ⟨heq, rfl⟩ := returns_pure.1 hret
    obtain ⟨rfl, rfl⟩ := Prod.mk.injEq .. ▸ heq
    exact ⟨a', hf, rfl⟩
  · rintro ⟨a', hf, rfl⟩
    exact ⟨(a, a'), p', hf, returns_pure.2 ⟨rfl, rfl⟩⟩

theorem returns_onGraph {α : Type} {f : GraphM α} {a : α} :
    Returns (onGraph f w) p (a, w') p' ↔
      ∃ g T, f w.graph p.types = ((.ok a, g), T) ∧ w' = { w with graph := g } ∧
        p' = { p with types := T } := by
  obtain ⟨assembler, graph, handlers, lines, locals, usedLocals, givenStack, givenLocals⟩ := w
  unfold onGraph
  dsimp only
  rw [returns_bind]
  constructor
  · rintro ⟨⟨b, g⟩, p₁, hrun, hret⟩
    obtain ⟨heq, rfl⟩ := returns_pure.1 hret
    obtain ⟨rfl, rfl⟩ := Prod.mk.injEq .. ▸ heq
    obtain ⟨T, hT, rfl⟩ := ConstantPool.returns_onTypes.1 hrun
    refine ⟨g, T, ?_, rfl, rfl⟩
    rcases hf : (f graph p.types : (Except Error α × BlockGraph) × TypeTable)
      with ⟨⟨e | c, g'⟩, T'⟩
    · simp only [Returns, hf, Except.map] at hT
      cases hT
    · simp only [Returns, hf, Except.map] at hT
      cases hT
      rfl
  · rintro ⟨g, T, hf, rfl, rfl⟩
    refine ⟨(a, g), _, ConstantPool.returns_onTypes.2 ⟨T, ?_, rfl⟩, returns_pure.2 ⟨rfl, rfl⟩⟩
    simp only [Returns, hf]
    rfl

/-- **What an instruction does**: it is encoded, then reported to the graph, and if handlers can see what
it changes, its block ends. -/
theorem returns_instruction {i : Instruction Label} {u : Unit}
    (hret : Returns (instruction i w) p (u, w') p') :
    ∃ around a p₁ g T, Returns (Assembler.encode i w.assembler) p (around, a) p₁ ∧
      BlockGraph.step w.size a.code.size around (reported i) w.graph p₁.types = ((.ok (), g), T) ∧
      p' = { p₁ with types := T } ∧ w'.assembler = a ∧
      (w'.handlers = w.handlers ∧ w'.lines = w.lines ∧ w'.locals = w.locals) ∧
      (w'.graph = g ∧ endsProtected i { w with graph := g } = false ∨
        g.mode = .frames ∧ w'.graph = splitAt a.code.size g) := by
  obtain ⟨w₀, w₁, p₁, hget, hret⟩ := returns_bind_above.1 hret
  obtain ⟨rfl, rfl, rfl⟩ := returns_get_above.1 hget
  obtain ⟨around, w₂, p₂, hassemble, hret⟩ := returns_bind_above.1 hret
  obtain ⟨a, hencode, rfl⟩ := returns_onAssembler.1 hassemble
  obtain ⟨v, w₃, p₃, hnote, hret⟩ := returns_bind_above.1 hret
  obtain ⟨rfl, rfl⟩ := returns_modify_above.1 hnote
  have hparts : (noteLocals i { w with assembler := a }).assembler = a ∧
      (noteLocals i { w with assembler := a }).graph = w.graph ∧
      (noteLocals i { w with assembler := a }).handlers = w.handlers ∧
      (noteLocals i { w with assembler := a }).lines = w.lines ∧
      (noteLocals i { w with assembler := a }).locals = w.locals := by
    cases i <;> exact ⟨rfl, rfl, rfl, rfl, rfl⟩
  generalize noteLocals i { w with assembler := a } = w₃ at hret hparts
  obtain ⟨hassembler, hgraph, htables⟩ := hparts
  obtain ⟨w₄, w₅, p₄, hget, hret⟩ := returns_bind_above.1 hret
  obtain ⟨rfl, rfl, rfl⟩ := returns_get_above.1 hget
  obtain ⟨v, w₆, p₅, hreport, hret⟩ := returns_bind_above.1 hret
  obtain ⟨g, T, hstep, rfl, rfl⟩ := returns_onGraph.1 hreport
  obtain ⟨w₇, w₈, p₆, hget, hret⟩ := returns_bind_above.1 hret
  obtain ⟨rfl, rfl, rfl⟩ := returns_get_above.1 hget
  have hsize : w₃.size = a.code.size := congrArg (fun a => a.code.size) hassembler
  rw [hgraph, hsize] at hstep
  refine ⟨around, a, p₂, g, T, hencode, hstep, ?_⟩
  split at hret
  · rename_i hends
    obtain ⟨g', T', hsplit, rfl, rfl⟩ := returns_onGraph.1 hret
    cases hsplit
    have hmode : g.mode = .frames := by
      unfold endsProtected at hends
      split at hends
      · rw [Bool.and_eq_true, Bool.and_eq_true] at hends
        exact eq_of_beq hends.1.1
      · exact nomatch hends
    exact ⟨rfl, hassembler, htables, .inr ⟨hmode, by rw [hsize]⟩⟩
  · rename_i hends
    obtain ⟨-, rfl, rfl⟩ := returns_pure_above.1 hret
    refine ⟨rfl, hassembler, htables, .inl ⟨rfl, ?_⟩⟩
    cases i <;> exact Bool.eq_false_iff.2 hends

/-- **What a label does**: it is placed in the code, and in the graph if it starts a block. -/
theorem returns_label {u : Unit} (hret : Returns (label l w) p (u, w') p') :
    ∃ a, w.assembler.placeLabel l = .ok a ∧ p' = p ∧
      w' = { w with assembler := a
                    graph := if l.debug then w.graph else w.graph.label l w.size } := by
  obtain ⟨w₀, w₁, p₁, hget, hret⟩ := returns_bind_above.1 hret
  obtain ⟨rfl, rfl, rfl⟩ := returns_get_above.1 hget
  obtain ⟨v, w₂, p₂, hassemble, hret⟩ := returns_bind_above.1 hret
  obtain ⟨a, hrun, rfl⟩ := returns_onAssembler.1 hassemble
  obtain ⟨a₁, p₃, hplace, hdone⟩ := returns_bind.1 hrun
  obtain ⟨hok, rfl⟩ := returns_lift.1 hplace
  obtain ⟨heq, rfl⟩ := returns_pure.1 hdone
  obtain ⟨-, rfl⟩ := Prod.mk.injEq .. ▸ heq
  refine ⟨a₁, hok, ?_⟩
  cases hdebug : l.debug with
  | true =>
    rw [hdebug, if_pos rfl] at hret
    obtain ⟨-, rfl, rfl⟩ := returns_pure_above.1 hret
    exact ⟨rfl, rfl⟩
  | false =>
    rw [hdebug, if_neg Bool.false_ne_true] at hret
    obtain ⟨g, T, hgraph, rfl, rfl⟩ := returns_onGraph.1 hret
    cases hgraph
    exact ⟨rfl, rfl⟩

/-- What is caught gets a record, if it is not everything. -/
theorem returns_caught {caught : Option String} {index : Option ConstantIndex}
    (hret : Returns ((caught.mapM fun name => (ConstantPool.classRef name : PoolM ConstantIndex) :
      CodeM (Option ConstantIndex)) w) p (index, w') p') :
    w' = w ∧ (caught = none ∧ index = none ∧ p' = p ∨
      ∃ name i, caught = some name ∧ index = some i ∧
        Returns (ConstantPool.classRef name) p i p') := by
  cases caught with
  | none =>
    obtain ⟨rfl, rfl, rfl⟩ := returns_pure_above.1 hret
    exact ⟨rfl, .inl ⟨rfl, rfl, rfl⟩⟩
  | some name =>
    have hmap : Returns ((do
        let i ← liftM (ConstantPool.classRef name)
        return some i : CodeM (Option ConstantIndex)) w) p (index, w') p' := hret
    obtain ⟨i, w₂, p₂, hlift, hmap⟩ := returns_bind_above.1 hmap
    obtain ⟨hclass, rfl⟩ := returns_lift_above.1 hlift
    obtain ⟨rfl, rfl, rfl⟩ := returns_pure_above.1 hmap
    exact ⟨rfl, .inr ⟨name, i, rfl, rfl, hclass⟩⟩

/-- **What a handler does**: what is caught gets a record, and the graph is told. -/
theorem returns_handler_parts {start stop target : Label} {caught : Option String} {u : Unit}
    (hret : Returns (handler start stop target caught w) p (u, w') p') :
    ∃ index, w' = { w with handlers := w.handlers.push ⟨start, stop, target, index⟩
                           graph := w.graph.addHandler ⟨start, stop, target, caught⟩ } ∧
      (caught = none ∧ index = none ∧ p' = p ∨
        ∃ name i, caught = some name ∧ index = some i ∧
          Returns (ConstantPool.classRef name) p i p') := by
  obtain ⟨index, w₁, p₁, hindex, hrest⟩ := returns_bind_above.1 hret
  obtain ⟨rfl, hpool⟩ := returns_caught hindex
  obtain ⟨v, w₂, p₂, hpush, hreport⟩ := returns_bind_above.1 hrest
  obtain ⟨rfl, rfl⟩ := returns_modify_above.1 hpush
  obtain ⟨g, T, hgraph, rfl, rfl⟩ := returns_onGraph.1 hreport
  cases hgraph
  exact ⟨index, rfl, hpool⟩

/-- In a sound pool. -/
theorem returns_handler (hp : p.Sound h) {start stop target : Label} {caught : Option String}
    {u : Unit} (hret : Returns (handler start stop target caught w) p (u, w') p') :
    ∃ index p₁, p₁.Sound h ∧ p ≤ p₁ ∧ p' = p₁ ∧
      w' = { w with handlers := w.handlers.push ⟨start, stop, target, index⟩
                    graph := w.graph.addHandler ⟨start, stop, target, caught⟩ } := by
  obtain ⟨index, hw', hpool⟩ := returns_handler_parts hret
  have hsound : p'.Sound h ∧ p ≤ p' := by
    rcases hpool with ⟨-, -, rfl⟩ | ⟨name, i, -, -, hclass⟩
    · exact ⟨hp, ConstantPool.le_refl _⟩
    · exact ConstantPool.leads_classRef name _ _ _ hclass hp
  exact ⟨index, p', hsound.1, hsound.2, rfl, hw'⟩

/-- **What a local variable does**: its name and its descriptor get records. -/
theorem returns_localVariable_parts {name descriptor : String} {start stop : Label} {index : UInt16}
    {u : Unit} (hret : Returns (localVariable name descriptor start stop index w) p (u, w') p') :
    ∃ i j p₁, Returns (ConstantPool.utf8 name) p i p₁ ∧
      Returns (ConstantPool.utf8 descriptor) p₁ j p' ∧
      w' = { useLocal index (if descriptor = "J" ∨ descriptor = "D" then 2 else 1) w with
        locals := w.locals.push ⟨start, stop, i, j, index⟩ } := by
  obtain ⟨v, w₁, p₁, huse, hrest⟩ := returns_bind_above.1 hret
  obtain ⟨rfl, rfl⟩ := returns_modify_above.1 huse
  obtain ⟨i, w₂, p₂, hlift, hrest₂⟩ := returns_bind_above.1 hrest
  obtain ⟨hname, rfl⟩ := returns_lift_above.1 hlift
  obtain ⟨j, w₃, p₃, hlift', hpush⟩ := returns_bind_above.1 hrest₂
  obtain ⟨hdescriptor, rfl⟩ := returns_lift_above.1 hlift'
  obtain ⟨rfl, rfl⟩ := returns_modify_above.1 hpush
  exact ⟨i, j, p₂, hname, hdescriptor, rfl⟩

theorem interning_localVariable (name descriptor : String) (start stop : Label) (index : UInt16)
    (w : CodeWriter) : Interning (localVariable name descriptor start stop index w) :=
  .bind_above (.modify_above _) fun _ _ =>
    .bind_above (.lift_above (ConstantPool.interning_utf8 name)) fun _ _ =>
    .bind_above (.lift_above (ConstantPool.interning_utf8 descriptor)) fun _ _ => .modify_above _

/-! ## 3. Labels and blocks -/

/-- A label that has been placed, and starts a block. -/
def Placed (w : CodeWriter) (l : Label) : Prop :=
  l.debug = false ∧ (w.assembler.place? l).isSome = true

/-- A label that starts a block, and has been placed or is used. -/
def Named (w : CodeWriter) (l : Label) : Prop :=
  l.debug = false ∧ ((w.assembler.place? l).isSome = true ∨ w.assembler.Waits l ∨
    ∃ r ∈ w.handlers, l ∈ [r.start, r.stop, r.handler])

theorem placed_eq (hplace : w'.assembler.place? = w.assembler.place?) : w'.Placed = w.Placed := by
  unfold Placed
  rw [hplace]

/-- **Code on the way**: the labels `done` include all that have been placed. -/
structure Tracked (h : Hierarchy) (done : List Label) (w : CodeWriter) (p : ConstantPool) :
    Prop where
  sound : p.Sound h
  wellBuilt : w.graph.WellBuilt p.types
  charted : w.graph.Charted w.Placed w.Named w.size
  done : ∀ l, (w.assembler.place? l).isSome = true → l ∈ done

theorem tracked_start (hp : p.Sound h) (slots : UInt16) :
    Tracked h [] (start .frames slots) p where
  sound := hp
  wellBuilt := BlockGraph.wellBuilt_start
  charted := by
    have hnone : (start .frames slots).Placed = fun _ => False := by
      funext l
      exact eq_false fun hl => by simpa [start, Assembler.empty, Assembler.place?] using hl.2
    rw [hnone]
    exact BlockGraph.charted_start
  done l hl := by simp [start, Assembler.empty, Assembler.place?] at hl

/-- The pool has grown. -/
theorem Tracked.later {done : List Label} (hw : Tracked h done w p) (hp : p'.Sound h)
    (hle : p ≤ p') : Tracked h done w p' :=
  ⟨hp, hw.wellBuilt.later hle.types, hw.charted, hw.done⟩

/-- Only what is neither code nor graph has changed. -/
theorem Tracked.congr {done : List Label} (hw : Tracked h done w p)
    (hassembler : w'.assembler = w.assembler) (hgraph : w'.graph = w.graph)
    (hhandlers : w'.handlers = w.handlers) : Tracked h done w' p := by
  have hplaced : w'.Placed = w.Placed := placed_eq (congrArg Assembler.place? hassembler)
  have hnamed : w'.Named = w.Named := by
    unfold Named
    rw [hassembler, hhandlers]
  refine ⟨hw.sound, hgraph ▸ hw.wellBuilt, ?_, fun l hl => hw.done l (hassembler ▸ hl)⟩
  rw [hplaced, hnamed, hgraph, size, hassembler]
  exact hw.charted

theorem targets_reported (i : Instruction Label) : (reported i).targets = i.targets := by
  cases i <;> rfl

/-- An instruction places no label, and names those that it leads to. -/
theorem names_instruction {i : Instruction Label} {u : Unit}
    (hret : Returns (instruction i w) p (u, w') p') :
    w'.assembler.place? = w.assembler.place? ∧ (∀ l, w.Named l → w'.Named l) ∧
      ∀ l ∈ i.targets, l.debug = false → w'.Named l := by
  obtain ⟨around, a, p₁, g, T, hencode, -, -, rfl, ⟨hhandlers, -⟩, -⟩ := returns_instruction hret
  obtain ⟨hext, -⟩ := Assembler.encode_extends hencode
  have hplace : w'.assembler.place? = w.assembler.place? := by
    funext l
    rw [Assembler.place?, hext.places]
    rfl
  refine ⟨hplace, ?_, fun l hl hdebug => ⟨hdebug, (hext.known l hl).imp id .inl⟩⟩
  rintro l ⟨hdebug, hl⟩
  refine ⟨hdebug, ?_⟩
  rw [hplace, hhandlers]
  exact hl.imp id (Or.imp (hext.waits l) id)

/-- A label is the only one that is placed. -/
theorem names_label {u : Unit} (hret : Returns (label l w) p (u, w') p') :
    (∀ k, (w'.assembler.place? k).isSome = true ↔
      (w.assembler.place? k).isSome = true ∨ k = l) ∧ ∀ k, w.Named k → w'.Named k := by
  obtain ⟨a, hok, rfl, rfl⟩ := returns_label hret
  obtain ⟨-, hget, hwaits⟩ := Assembler.placeLabel_ok hok
  have hknown : ∀ k, (a.place? k).isSome = true ↔
      (w.assembler.place? k).isSome = true ∨ k = l := by
    intro k
    rw [hget]
    by_cases hk : l = k
    · rw [hk, if_pos (beq_self_eq_true k)]
      exact ⟨fun _ => .inr rfl, fun _ => rfl⟩
    · rw [if_neg fun heq => hk (eq_of_beq heq)]
      exact ⟨.inl, fun h => h.resolve_right (Ne.symm hk)⟩
  refine ⟨hknown, ?_⟩
  rintro k ⟨hdebug, hk⟩
  refine ⟨hdebug, ?_⟩
  show (a.place? k).isSome = true ∨ a.Waits k ∨ _
  rw [hknown]
  by_cases hkl : k = l
  · exact .inl (.inr hkl)
  · exact hk.imp .inl (Or.imp (hwaits k hkl) id)

/-- A label is placed where the code ends. -/
theorem place_label {u : Unit} (hret : Returns (label l w) p (u, w') p') {k : Label} {q : Nat}
    (hq : w'.assembler.place? k = some q) :
    w.assembler.place? k = some q ∨ k = l ∧ q = w.size := by
  obtain ⟨a, hok, -, rfl⟩ := returns_label hret
  obtain ⟨-, hget, -⟩ := Assembler.placeLabel_ok hok
  rw [hget] at hq
  split at hq
  · rename_i hk
    exact .inr ⟨(eq_of_beq hk).symm, (Option.some.inj hq).symm⟩
  · exact .inl hq

/-- A label that starts a block is the only one that is placed. -/
theorem placed_label {u : Unit} (hret : Returns (label l w) p (u, w') p') (k : Label) :
    w'.Placed k ↔ w.Placed k ∨ k = l ∧ l.debug = false := by
  obtain ⟨hknown, -⟩ := names_label hret
  refine (and_congr_right fun _ => hknown k).trans ?_
  rw [and_or_left]
  refine or_congr Iff.rfl ⟨?_, ?_⟩
  · rintro ⟨hk, rfl⟩
    exact ⟨rfl, hk⟩
  · rintro ⟨rfl, hk⟩
    exact ⟨hk, rfl⟩

/-- A handler names its labels. -/
theorem names_handler (hp : p.Sound h) {start stop target : Label} {caught : Option String} {u : Unit}
    (hret : Returns (handler start stop target caught w) p (u, w') p') :
    w'.assembler = w.assembler ∧ (∀ l, w.Named l → w'.Named l) ∧
      ∀ l ∈ [start, stop, target], l.debug = false → w'.Named l := by
  obtain ⟨index, p₁, -, -, rfl, rfl⟩ := returns_handler hp hret
  have hmem : ∀ r, r ∈ w.handlers.push ⟨start, stop, target, index⟩ ↔
      r ∈ w.handlers ∨ r = ⟨start, stop, target, index⟩ := fun r => Array.mem_push
  refine ⟨rfl, fun l hl => ?_, fun l hl hdebug => ?_⟩
  · exact ⟨hl.1, hl.2.imp id (Or.imp id fun ⟨r, hr, hlr⟩ => ⟨r, (hmem r).2 (.inl hr), hlr⟩)⟩
  · exact ⟨hdebug, .inr (.inr ⟨_, (hmem _).2 (.inr rfl), hl⟩)⟩

/-- What an instruction is reported to be, and the graph behind it. -/
theorem Tracked.stepped {done : List Label} (hw : Tracked h done w p) {i : Instruction Label}
    (hi : ∀ l ∈ i.targets, l.debug = false) {u : Unit}
    (hret : Returns (instruction i w) p (u, w') p') :
    ∃ around p₁ g T, p₁.Sound h ∧ p ≤ p₁ ∧
      BlockGraph.step w.size w'.size around (reported i) w.graph p₁.types = ((.ok (), g), T) ∧
      p' = { p₁ with types := T } ∧ p'.Sound h ∧ p₁ ≤ p' ∧ w.size < w'.size ∧ g.WellBuilt T ∧
      g.Charted w'.Placed w'.Named w'.size ∧
      (w'.graph = g ∧ endsProtected i { w with graph := g } = false ∨
        g.mode = .frames ∧ w'.graph = splitAt w'.size g) := by
  obtain ⟨hplace, hnamed, htargets⟩ := names_instruction hret
  obtain ⟨around, a, p₁, g, T, hencode, hstep, rfl, rfl, -, hgraph⟩ := returns_instruction hret
  obtain ⟨hs₁, hle₁⟩ := Assembler.leads_encode i w.assembler _ _ _ hencode hw.sound
  obtain ⟨-, hlt⟩ := Assembler.encode_extends hencode
  obtain ⟨hT, hle, hg⟩ := (hw.wellBuilt.later hle₁.types).step hs₁.types _ _ _ _ hstep
  obtain ⟨hs', hle'⟩ := hs₁.withTypes hT hle
  have hplaced : w'.Placed = w.Placed := placed_eq hplace
  refine ⟨around, p₁, g, T, hs₁, hle₁, hstep, rfl, hs', hle', hlt, hg, ?_, hgraph⟩
  rw [hplaced]
  refine (hw.charted.mono hnamed (Nat.le_refl _)).step hs₁.types (hw.wellBuilt.later hle₁.types) hlt
    around (fun l hl => ?_) hstep
  rw [targets_reported] at hl
  exact htargets l hl (hi l hl)

/-- **An instruction** that uses no debug labels. -/
theorem Tracked.instruction {done : List Label} (hw : Tracked h done w p) {i : Instruction Label}
    (hi : ∀ l ∈ i.targets, l.debug = false) {u : Unit}
    (hret : Returns (instruction i w) p (u, w') p') :
    Tracked h done w' p' ∧ p ≤ p' := by
  obtain ⟨hplace, -, -⟩ := names_instruction hret
  obtain ⟨-, p₁, g, T, -, hle₁, -, rfl, hs', hle', -, hg, hcharted, hgraph⟩ := hw.stepped hi hret
  refine ⟨⟨hs', ?_, ?_, fun l hl => hw.done l (hplace ▸ hl)⟩, ConstantPool.le_trans hle₁ hle'⟩
  · rcases hgraph with ⟨hgraph, -⟩ | ⟨-, hgraph⟩
    · exact hgraph ▸ hg
    · exact hgraph ▸ hg.splitAt _
  · rcases hgraph with ⟨hgraph, -⟩ | ⟨-, hgraph⟩
    · exact hgraph ▸ hcharted
    · rw [hgraph]
      exact hcharted.splitAt hg.mode (Nat.le_refl _)

/-- **A label** that has not been placed before. -/
theorem Tracked.label {done : List Label} (hw : Tracked h done w p) (hl : l ∉ done) {u : Unit}
    (hret : Returns (label l w) p (u, w') p') :
    Tracked h (l :: done) w' p' ∧ p ≤ p' := by
  obtain ⟨hknown, hnames⟩ := names_label hret
  have hplaced := placed_label hret
  obtain ⟨a₁, hok, rfl, rfl⟩ := returns_label hret
  obtain ⟨hsize, -, -⟩ := Assembler.placeLabel_ok hok
  have hnew : ¬ (w.assembler.place? l).isSome = true := fun hplace => hl (hw.done l hplace)
  have hnamed : ∀ k, w.Named k → CodeWriter.Named { w with assembler := a₁ } k := hnames
  have hplaced : ∀ k, CodeWriter.Placed { w with assembler := a₁ } k ↔
      w.Placed k ∨ k = l ∧ l.debug = false := hplaced
  have hdone : ∀ k, (a₁.place? k).isSome = true → k ∈ l :: done := by
    intro k hk
    rcases (hknown k).1 hk with hk | rfl
    · exact List.mem_cons_of_mem _ (hw.done k hk)
    · exact List.mem_cons_self
  have hcharted := hw.charted.mono hnamed (Nat.le_refl _)
  have hsize' : CodeWriter.size { w with assembler := a₁ } = w.size := hsize
  suffices hgraph : BlockGraph.WellBuilt p'.types (if l.debug then w.graph else w.graph.label l w.size) ∧
      BlockGraph.Charted (CodeWriter.Placed { w with assembler := a₁ })
        (CodeWriter.Named { w with assembler := a₁ }) w.size
        (if l.debug then w.graph else w.graph.label l w.size) from
    ⟨⟨hw.sound, hgraph.1, hsize'.symm ▸ hgraph.2, hdone⟩, ConstantPool.le_refl _⟩
  cases hdebug : l.debug with
  | true =>
    have hsame : CodeWriter.Placed { w with assembler := a₁ } = w.Placed := by
      funext k
      refine propext ((hplaced k).trans ⟨fun h => h.resolve_right ?_, .inl⟩)
      rw [hdebug]
      exact fun h => nomatch h.2
    rw [if_pos rfl, hsame]
    exact ⟨hw.wellBuilt, hcharted⟩
  | false =>
    have hnamed_l : CodeWriter.Named { w with assembler := a₁ } l :=
      ⟨hdebug, .inl ((hknown l).2 (.inr rfl))⟩
    have hsame : CodeWriter.Placed { w with assembler := a₁ } = fun k => w.Placed k ∨ k = l := by
      funext k
      rw [eq_iff_iff, hplaced, hdebug]
      exact or_congr Iff.rfl (and_iff_left rfl)
    have hfresh : ¬ w.Placed l := fun hp => hnew hp.2
    rw [if_neg Bool.false_ne_true, hsame]
    exact ⟨hw.wellBuilt.label l _, hcharted.label hw.wellBuilt hnamed_l hfresh (Nat.le_refl _)⟩

/-- **A handler** that uses no debug labels. -/
theorem Tracked.handler {done : List Label} (hw : Tracked h done w p) {start stop target : Label}
    (hdebug : ∀ l ∈ [start, stop, target], l.debug = false) {caught : Option String} {u : Unit}
    (hret : Returns (handler start stop target caught w) p (u, w') p') :
    Tracked h done w' p' ∧ p ≤ p' := by
  obtain ⟨-, hkept, hnamed⟩ := names_handler hw.sound hret
  obtain ⟨index, p₁, hs₁, hle₁, rfl, rfl⟩ := returns_handler hw.sound hret
  have hg := hw.wellBuilt.later hle₁.types
  have hmem : ∀ l ∈ [start, stop, target],
      CodeWriter.Named { w with handlers := w.handlers.push ⟨start, stop, target, index⟩ } l :=
    fun l hl => hnamed l hl (hdebug l hl)
  have hcharted := hw.charted.mono hkept (Nat.le_refl _)
  refine ⟨⟨hs₁, hg.addHandler _, hcharted.addHandler hg (hmem _ ?_) (hmem _ ?_) (hmem _ ?_),
    hw.done⟩, hle₁⟩
  · exact List.mem_cons_self
  · exact List.mem_cons_of_mem _ List.mem_cons_self
  · exact List.mem_cons_of_mem _ (List.mem_cons_of_mem _ List.mem_cons_self)

/-! ## 4. Before the attribute -/

/-- Labels that have to have been placed for a row of the table of handlers. -/
theorem placed_of_handlerTable {table : UInt16 × Bytes} (htable : w.handlerTable = .ok table) :
    ∀ r ∈ w.handlers, ∀ l ∈ [r.start, r.stop, r.handler],
      (w.assembler.place? l).isSome = true := by
  have hresolved : ∀ l place, w.resolved l = .ok place → (w.assembler.place? l).isSome = true := by
    intro l place hl
    unfold resolved at hl
    split at hl
    · rename_i found
      rw [found]
      rfl
    · exact nomatch hl
  have hrow : ∀ t t' r, w.putHandler t r = .ok t' →
      ∀ l ∈ [r.start, r.stop, r.handler], (w.assembler.place? l).isSome = true := by
    intro t t' r hput l hl
    obtain ⟨start, hstart, hput⟩ := bind_eq_ok_iff.1 hput
    obtain ⟨stop, hstop, hput⟩ := bind_eq_ok_iff.1 hput
    obtain ⟨handler, hhandler, -⟩ := bind_eq_ok_iff.1 hput
    simp only [List.mem_cons, List.not_mem_nil, or_false] at hl
    rcases hl with rfl | rfl | rfl
    · exact hresolved _ _ hstart
    · exact hresolved _ _ hstop
    · exact hresolved _ _ hhandler
  intro r hr
  unfold handlerTable at htable
  rw [← Array.foldlM_toList] at htable
  have hmem := Array.mem_toList_iff.2 hr
  generalize w.handlers.toList = rs at htable hmem
  generalize ((0, .empty) : UInt16 × Bytes) = t at htable
  induction rs generalizing t with
  | nil => exact absurd hmem List.not_mem_nil
  | cons r' rs ih =>
    rw [List.foldlM_cons] at htable
    obtain ⟨t₁, hput, hrest⟩ := bind_eq_ok_iff.1 htable
    rcases List.mem_cons.1 hmem with rfl | hmem
    · exact hrow _ _ _ hput
    · exact ih hmem t₁ hrest

/-- What is refused before the attribute is made: what waits comes first, then what is too long. -/
theorem check_eq (w : CodeWriter) : w.check = match w.assembler.firstWaiting? with
    | some l => .error (.unresolvedLabel l)
    | none => if 65535 < w.size then .error (.methodCodeOverflow w.size) else .ok () := by
  unfold check
  cases w.assembler.firstWaiting? with
  | some l => rfl
  | none =>
    dsimp only
    split
    · rfl
    · rfl

theorem check_eq_ok_iff : w.check = .ok () ↔ w.assembler.firstWaiting? = none ∧ w.size ≤ 65535 := by
  rw [check_eq]
  cases w.assembler.firstWaiting? with
  | some l => exact ⟨fun h => (nomatch h), fun h => (nomatch h.1)⟩
  | none =>
    dsimp only
    split
    · rename_i hlong
      exact ⟨fun h => (nomatch h), fun h => absurd hlong (Nat.not_lt.2 h.2)⟩
    · rename_i hshort
      exact ⟨fun _ => ⟨rfl, Nat.le_of_not_lt hshort⟩, fun _ => rfl⟩

/-- **When the attribute can be made**, all labels that start blocks have been placed. -/
theorem named_placed_of_check (hcheck : w.check = .ok ()) {table : UInt16 × Bytes}
    (htable : w.handlerTable = .ok table) :
    (∀ l, w.Named l → w.Placed l) ∧ w.size ≤ 65535 := by
  have hparts := check_eq_ok_iff.1 hcheck
  refine ⟨fun l hl => ⟨hl.1, ?_⟩, hparts.2⟩
  rcases hl.2 with hplaced | hwaits | ⟨r, hr, hlr⟩
  · exact hplaced
  · exact absurd hwaits (Assembler.not_waits_of_firstWaiting? hparts.1 l)
  · exact placed_of_handlerTable htable r hr l hlr

/-! ## 5. The attribute -/

/-- What comes before the attributes in the attribute of code: the height of the stack, the number of
locals, the code and the table of handlers. -/
def head (w : CodeWriter) (maxStack maxLocals : UInt16) (handlers : UInt16 × Bytes) : Bytes :=
  let sizes := (Bytes.empty.putU16 maxStack).putU16 maxLocals
  let code := (sizes.putU32 (UInt32.ofNat w.size)).putBytes w.assembler.code
  (code.putU16 handlers.1).putBytes handlers.2

/-- A table is written just if it has entries. -/
theorem returns_table {α : Type} {content : List α → Attribute} {entries : List α}
    {attributes : List RawAttribute} :
    Returns (table content entries) p attributes p' ↔
      entries = [] ∧ attributes = [] ∧ p = p' ∨
      entries ≠ [] ∧ ∃ i, Returns (ConstantPool.utf8 (content entries).name) p i p' ∧
        attributes = [⟨i, (content entries).payload⟩] := by
  cases entries with
  | nil =>
    refine returns_pure.trans ⟨fun h => .inl ⟨rfl, h.1.symm, h.2⟩, ?_⟩
    rintro (⟨-, rfl, rfl⟩ | ⟨h, -⟩)
    · exact ⟨rfl, rfl⟩
    · exact absurd rfl h
  | cons e entries =>
    refine returns_bind.trans ⟨?_, ?_⟩
    · rintro ⟨a, p₁, hnamed, hret⟩
      obtain ⟨i, p₂, hi, hnamed⟩ := returns_bind.1 hnamed
      obtain ⟨rfl, rfl⟩ := returns_pure.1 hnamed
      obtain ⟨rfl, rfl⟩ := returns_pure.1 hret
      exact .inr ⟨List.cons_ne_nil _ _, i, hi, rfl⟩
    · rintro (⟨h, -⟩ | ⟨-, i, hi, rfl⟩)
      · exact absurd h (List.cons_ne_nil _ _)
      · exact ⟨_, p', returns_bind.2 ⟨i, p', hi, returns_pure.2 ⟨rfl, rfl⟩⟩,
          returns_pure.2 ⟨rfl, rfl⟩⟩

/-- The names of the attributes of a table. -/
theorem table_names (hp : p.Sound h) {α : Type} {content : List α → Attribute} {entries : List α}
    {attributes : List RawAttribute} (hret : Returns (table content entries) p attributes p') :
    p'.Sound h ∧ p ≤ p' ∧ (attributes = [] ↔ entries = []) ∧
      ∀ a ∈ attributes, p'.text? a.name = some (content entries).name ∧
        attributes = [a] ∧ a.payload = (content entries).payload := by
  rcases returns_table.1 hret with ⟨rfl, rfl, rfl⟩ | ⟨hne, i, hi, rfl⟩
  · exact ⟨hp, ConstantPool.le_refl _, ⟨fun _ => rfl, fun _ => rfl⟩, fun a ha => absurd ha List.not_mem_nil⟩
  · obtain ⟨hs, hle, htext⟩ := hp.utf8 hi
    refine ⟨hs, hle, ⟨fun h => absurd h (List.cons_ne_nil _ _), fun h => absurd h hne⟩, fun a ha => ?_⟩
    obtain rfl := List.mem_singleton.1 ha
    exact ⟨htext, rfl, rfl⟩

/-- In a graph with frames, the stack map is that of what is inferred. -/
theorem returns_analyse_frames (hmode : w.graph.mode = .frames) {context : MethodContext}
    {maxStack : UInt16} {frames : List MapFrame}
    (hret : Returns (analyse context w) p ((maxStack, frames), w') p') :
    ∃ entry g T, BlockGraph.infer context w.graph p.types = ((.ok (maxStack, entry), g), T) ∧
      w' = { w with graph := g } ∧
      Returns (g.stackMap entry) { p with types := T } frames p' := by
  obtain ⟨w₀, w₁, p₁, hget, hmatch⟩ := returns_bind_above.1 hret
  obtain ⟨rfl, rfl, rfl⟩ := returns_get_above.1 hget
  rw [hmode] at hmatch
  obtain ⟨⟨n, entry⟩, w₂, p₂, hinfer, hrest⟩ := returns_bind_above.1 hmatch
  obtain ⟨g, T, hrun, rfl, rfl⟩ := returns_onGraph.1 hinfer
  obtain ⟨w₃, w₄, p₃, hget', hwrite⟩ := returns_bind_above.1 hrest
  obtain ⟨rfl, rfl, rfl⟩ := returns_get_above.1 hget'
  obtain ⟨fs, w₅, p₄, hlift, hdone⟩ := returns_bind_above.1 hwrite
  obtain ⟨hmap, rfl⟩ := returns_lift_above.1 hlift
  obtain ⟨heq, rfl, rfl⟩ := returns_pure_above.1 hdone
  obtain ⟨rfl, rfl⟩ := Prod.mk.injEq .. ▸ heq
  exact ⟨entry, g, T, hrun, rfl, hmap⟩

/-- What is computed about code is kept in its graph, and only frames make a stack map. -/
theorem graph_of_analyse {context : MethodContext} {maxStack : UInt16} {frames : List MapFrame}
    (hret : Returns (analyse context w) p ((maxStack, frames), w') p') :
    (∃ g, w' = { w with graph := g }) ∧ (w.graph.mode = .maxStack → frames = []) := by
  cases hmode : w.graph.mode with
  | frames =>
    obtain ⟨entry, g, T, -, rfl, -⟩ := returns_analyse_frames hmode hret
    exact ⟨⟨g, rfl⟩, fun h => nomatch h⟩
  | maxStack =>
    obtain ⟨w₀, w₁, p₁, hget, hmatch⟩ := returns_bind_above.1 hret
    obtain ⟨rfl, rfl, rfl⟩ := returns_get_above.1 hget
    rw [hmode] at hmatch
    obtain ⟨computed, w₂, p₂, hrun, hrest⟩ := returns_bind_above.1 hmatch
    obtain ⟨g, T, -, rfl, rfl⟩ := returns_onGraph.1 hrun
    obtain ⟨w₃, w₄, p₃, hget', hdone⟩ := returns_bind_above.1 hrest
    obtain ⟨rfl, rfl, rfl⟩ := returns_get_above.1 hget'
    obtain ⟨heq, rfl, -⟩ := returns_pure_above.1 hdone
    exact ⟨⟨g, rfl⟩, fun _ => (Prod.mk.injEq .. ▸ heq).2.symm⟩

/-- **What makes the attribute**: tables of lines and local variables, and the stack map behind
them. -/
theorem returns_finish {context : UInt16 → MethodContext} {code : RawAttribute}
    (hret : Returns (finish context w) p (code, w') p') :
    w.check = .ok () ∧ ∃ maxStack frames handlers lineEntries localEntries,
    ∃ lines locals map p₁ p₂ p₃ p₄,
      Returns (analyse (context (max w.usedLocals w.givenLocals)) w) p ((maxStack, frames), w') p₁ ∧
      w'.handlerTable = .ok handlers ∧ w'.lineEntries = .ok lineEntries ∧
      w'.localEntries = .ok localEntries ∧
      Returns (table .lineNumberTable lineEntries) p₁ lines p₂ ∧
      Returns (table .localVariableTable localEntries) p₂ locals p₃ ∧
      Returns (table .stackMapTable frames) p₃ map p₄ ∧
      Returns (ConstantPool.utf8 "Code") p₄ code.name p' ∧
      code.payload = RawAttribute.putAll (w'.head maxStack
        (context (max w.usedLocals w.givenLocals)).maxLocals handlers) (lines ++ locals ++ map) := by
  obtain ⟨w₀, w₁, p₁, hget, hret₁⟩ := returns_bind_above.1 hret
  obtain ⟨rfl, rfl, rfl⟩ := returns_get_above.1 hget
  obtain ⟨u, w₂, p₂, hlift, hret₂⟩ := returns_bind_above.1 hret₁
  obtain ⟨hcheck, rfl, rfl⟩ := returns_except_above.1 hlift
  obtain ⟨w₃, w₄, p₃, hget₃, hret₃⟩ := returns_bind_above.1 hret₂
  obtain ⟨rfl, rfl, rfl⟩ := returns_get_above.1 hget₃
  obtain ⟨w₅, w₆, p₄, hget₄, hret₄⟩ := returns_bind_above.1 hret₃
  obtain ⟨rfl, rfl, rfl⟩ := returns_get_above.1 hget₄
  obtain ⟨⟨maxStack, frames⟩, w₇, p₅, hanalyse, hret₅⟩ := returns_bind_above.1 hret₄
  obtain ⟨w₈, w₉, p₆, hget₅, hret₆⟩ := returns_bind_above.1 hret₅
  obtain ⟨rfl, rfl, rfl⟩ := returns_get_above.1 hget₅
  obtain ⟨handlers, w₁₀, p₇, hlift₇, hret₇⟩ := returns_bind_above.1 hret₆
  obtain ⟨hhandlers, rfl, rfl⟩ := returns_except_above.1 hlift₇
  obtain ⟨lineEntries, w₁₁, p₈, hlift₈, hret₈⟩ := returns_bind_above.1 hret₇
  obtain ⟨hlineEntries, rfl, rfl⟩ := returns_except_above.1 hlift₈
  obtain ⟨lines, w₁₂, p₉, hlift₉, hret₉⟩ := returns_bind_above.1 hret₈
  obtain ⟨hlines, rfl⟩ := returns_lift_above.1 hlift₉
  obtain ⟨localEntries, w₁₃, p₁₀, hlift₁₀, hret₁₀⟩ := returns_bind_above.1 hret₉
  obtain ⟨hlocalEntries, rfl, rfl⟩ := returns_except_above.1 hlift₁₀
  obtain ⟨locals, w₁₄, p₁₁, hlift₁₁, hret₁₁⟩ := returns_bind_above.1 hret₁₀
  obtain ⟨hlocals, rfl⟩ := returns_lift_above.1 hlift₁₁
  obtain ⟨map, w₁₅, p₁₂, hlift₁₂, hret₁₂⟩ := returns_bind_above.1 hret₁₁
  obtain ⟨hmap, rfl⟩ := returns_lift_above.1 hlift₁₂
  obtain ⟨index, w₁₆, p₁₃, hlift₁₃, hret₁₃⟩ := returns_bind_above.1 hret₁₂
  obtain ⟨hname, rfl⟩ := returns_lift_above.1 hlift₁₃
  obtain ⟨rfl, rfl, rfl⟩ := returns_pure_above.1 hret₁₃
  exact ⟨hcheck, maxStack, frames, handlers, lineEntries, localEntries, lines, locals, map, _, _, _, _,
    hanalyse, hhandlers, hlineEntries, hlocalEntries, hlines, hlocals, hmap, hname, rfl⟩

end CodeWriter

end ClassFile
