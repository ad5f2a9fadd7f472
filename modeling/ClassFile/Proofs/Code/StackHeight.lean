/-
# The height of the stack of a method

While the events of a method come in, its graph is drawn from the routine that the events make (`Measured`),
whether it records only heights or frames.  When the method is complete, the greatest height that the search,
or inference, finds is written in front of the code; so it bounds the stack (`Measured.finish`).
-/
import ClassFile.Proofs.BlockGraph.Caught
import ClassFile.Proofs.BlockGraph.EntryHeights
import ClassFile.Proofs.BlockGraph.Thrown
import ClassFile.Proofs.ClassBytes.Assembled
import ClassFile.Proofs.ClassWriter
import ClassFile.Proofs.Code.Writer
import ClassFile.Proofs.ConstantPool.Room

namespace ClassFile

variable {h : Hierarchy} {p p' : ConstantPool} {r : Routine} {l : Label}

namespace CodeWriter

variable {w w' : CodeWriter}

/-! ## 1. Labels of routines -/

/-- Code and its routine have the same labels. -/
structure SameLabels (r : Routine) (w : CodeWriter) : Prop where
  placed : ∀ l, w.Placed l ↔ ∃ k, (l, k) ∈ r.places
  targets : ∀ o ∈ r.code, ∀ l ∈ o.targets, w.Named l
  bounds : ∀ range ∈ r.handlers, ∀ l ∈ [range.start, range.stop, range.handler], w.Named l

theorem sameLabels_start (mode : ComputeMode) (slots : UInt16) :
    SameLabels .empty (start mode slots) where
  placed l := by
    refine ⟨fun hl => ?_, fun ⟨k, hk⟩ => absurd hk List.not_mem_nil⟩
    simpa [start, Assembler.empty, Assembler.place?] using hl.2
  targets o ho := absurd ho List.not_mem_nil
  bounds range hrange := absurd hrange List.not_mem_nil

theorem SameLabels.congr (hw : SameLabels r w) (hassembler : w'.assembler = w.assembler)
    (hhandlers : w'.handlers = w.handlers) : SameLabels r w' := by
  have hplaced : w'.Placed = w.Placed := placed_eq (congrArg Assembler.place? hassembler)
  have hnamed : w'.Named = w.Named := by
    unfold Named
    rw [hassembler, hhandlers]
  exact ⟨hplaced ▸ hw.placed, hnamed ▸ hw.targets, hnamed ▸ hw.bounds⟩

theorem SameLabels.instruction (hw : SameLabels r w) {i : Instruction Label}
    (hi : ∀ l ∈ i.targets, l.debug = false) {u : Unit}
    (hret : Returns (instruction i w) p (u, w') p') : SameLabels (r.event (.instruction i)) w' := by
  obtain ⟨hplace, hnamed, htargets⟩ := names_instruction hret
  have hplaced : w'.Placed = w.Placed := placed_eq hplace
  refine ⟨hplaced ▸ hw.placed, fun o ho l hl => ?_, fun range hrange l hl =>
    hnamed l (hw.bounds range hrange l hl)⟩
  rcases List.mem_append.1 ho with ho | ho
  · exact hnamed l (hw.targets o ho l hl)
  · obtain rfl := List.mem_singleton.1 ho
    exact htargets l hl (hi l hl)

theorem SameLabels.label (hw : SameLabels r w) {u : Unit}
    (hret : Returns (label l w) p (u, w') p') : SameLabels (r.event (.label l)) w' := by
  obtain ⟨hknown, hnamed⟩ := names_label hret
  have hplaced : ∀ k, w'.Placed k ↔ w.Placed k ∨ k.debug = false ∧ k = l := fun k => by
    unfold Placed
    rw [hknown, and_or_left]
  cases hdebug : l.debug with
  | true =>
    rw [Routine.event, if_pos hdebug]
    refine ⟨fun k => (hplaced k).trans ((or_iff_left ?_).trans (hw.placed k)), fun o ho k hk =>
      hnamed k (hw.targets o ho k hk), fun range hrange k hk => hnamed k (hw.bounds range hrange k hk)⟩
    rintro ⟨hk, rfl⟩
    rw [hdebug] at hk
    cases hk
  | false =>
    rw [Routine.event, if_neg (by rw [hdebug]; exact Bool.false_ne_true)]
    refine ⟨fun k => ?_, fun o ho k hk => hnamed k (hw.targets o ho k hk), fun range hrange k hk =>
      hnamed k (hw.bounds range hrange k hk)⟩
    rw [hplaced, hw.placed]
    simp only [List.mem_append, List.mem_singleton, Prod.mk.injEq, exists_or, exists_and_left,
      exists_eq, and_true]
    refine or_congr Iff.rfl ⟨And.right, ?_⟩
    rintro rfl
    exact ⟨hdebug, rfl⟩

theorem SameLabels.handler (hw : SameLabels r w) (hp : p.Sound h) {start stop target : Label}
    (hdebug : ∀ l ∈ [start, stop, target], l.debug = false) {caught : Option String} {u : Unit}
    (hret : Returns (handler start stop target caught w) p (u, w') p') :
    SameLabels (r.event (.handler start stop target caught)) w' := by
  obtain ⟨hassembler, hkept, hnamed⟩ := names_handler hp hret
  have hplaced : w'.Placed = w.Placed := placed_eq (congrArg Assembler.place? hassembler)
  refine ⟨hplaced ▸ hw.placed, fun o ho l hl => hkept l (hw.targets o ho l hl),
    fun range hrange l hl => ?_⟩
  rcases List.mem_append.1 hrange with hrange | hrange
  · exact hkept l (hw.bounds range hrange l hl)
  · obtain rfl := List.mem_singleton.1 hrange
    exact hnamed l hl (hdebug l hl)

/-! ## 2. Events -/

/-- What is known of a graph besides, in each mode. -/
inductive Sketched (h : Hierarchy) (done : List Label) (r : Routine) (s : Sketch) (w : CodeWriter)
    (p : ConstantPool) : ComputeMode → Prop
  | heights {chain : List BlockId} (hl : BlockGraph.Lined r s chain w.graph) :
    Sketched h done r s w p .maxStack
  | frames (hf : BlockGraph.Framed r s w.graph) (hw : Tracked h done w p) : Sketched h done r s w p .frames

/-- **Code on the way**, and its routine.  The labels `done` include all that have been placed. -/
structure Measured (h : Hierarchy) (mode : ComputeMode) (done : List Label) (r : Routine) (w : CodeWriter)
    (p : ConstantPool) : Prop where
  sound : p.Sound h
  labels : SameLabels r w
  handlers : w.graph.handlers.toList = r.handlers
  placed : ∀ l, (w.assembler.place? l).isSome = true → l ∈ done
  drawn : ∃ s, BlockGraph.Drawn r s w.graph ∧ s.offsets[r.code.length]? = some w.size ∧
    Sketched h done r s w p mode

theorem measured_start (hp : p.Sound h) (mode : ComputeMode) (slots : UInt16) :
    Measured h mode [] .empty (start mode slots) p where
  sound := hp
  labels := sameLabels_start mode slots
  handlers := by cases mode <;> rfl
  placed := (tracked_start hp slots).done
  drawn := by
    refine ⟨.empty, BlockGraph.drawn_start mode, rfl, ?_⟩
    cases mode with
    | maxStack => exact .heights BlockGraph.lined_start
    | frames => exact .frames BlockGraph.framed_start (tracked_start hp slots)

/-- Only what is neither code nor graph has changed. -/
theorem Measured.congr {mode : ComputeMode} {done : List Label} (hw : Measured h mode done r w p)
    (hp : p'.Sound h) (hle : p ≤ p') (hassembler : w'.assembler = w.assembler) (hgraph : w'.graph = w.graph)
    (hhandlers : w'.handlers = w.handlers) : Measured h mode done r w' p' := by
  obtain ⟨s, hd, hsize, hsketched⟩ := hw.drawn
  refine ⟨hp, hw.labels.congr hassembler hhandlers, hgraph ▸ hw.handlers, hassembler ▸ hw.placed, s,
    hgraph ▸ hd, ?_, ?_⟩
  · rwa [size, hassembler]
  · cases hsketched with
    | heights hl => exact .heights (hgraph ▸ hl)
    | frames hf ht => exact .frames (hgraph ▸ hf) ((ht.later hp hle).congr hassembler hgraph hhandlers)

section Steps

variable {mode : ComputeMode} {done : List Label} {s : Sketch}

/-- **An instruction**, in each mode. -/
theorem Sketched.instruction (hs : Sketched h done r s w p mode) (hp : p.Sound h)
    (hd : BlockGraph.Drawn r s w.graph) {i : Instruction Label} (hi : ∀ l ∈ i.targets, l.debug = false)
    {use : StackUse} (huse : i.stackUse? = some use) {u : Unit}
    (hret : Returns (instruction i w) p (u, w') p') (hstop : ∀ x ∈ s.offsets, x < w'.size) :
    p'.Sound h ∧ w'.graph.handlers = w.graph.handlers ∧ ∃ row,
      BlockGraph.Drawn (r.event (.instruction i)) (s.add row w'.size) w'.graph ∧
      Sketched h done (r.event (.instruction i)) (s.add row w'.size) w' p' mode := by
  cases hs with
  | heights hl =>
    obtain ⟨around, a, p₁, g, T, hencode, hstep, rfl, rfl, -, hgraph⟩ := returns_instruction hret
    obtain ⟨hs₁, -⟩ := Assembler.leads_encode i w.assembler _ _ _ hencode hp
    have hquiet :=
      BlockGraph.quiet_step w.size w'.size around (reported i) w.graph p₁.types hl.frameless
    rw [show BlockGraph.step w.size w'.size around (reported i) w.graph p₁.types = _ from hstep] at hquiet
    obtain ⟨hframeless, rfl, -⟩ := hquiet
    obtain ⟨rfl, -⟩ := hgraph.resolve_right fun hsplit => by
      rw [hframeless.mode] at hsplit
      exact nomatch hsplit.1
    obtain ⟨row, hd', hl', hhandlers⟩ := hl.instruction hd huse hstop hstep
    exact ⟨hs₁, hhandlers, row, hd', .heights hl'⟩
  | frames hf ht =>
    obtain ⟨ht', -⟩ := ht.instruction hi hret
    obtain ⟨around, p₁, g, T, hs₁, hle₁, hstep, -, hs', -, hlt, hg, hcharted, hgraph⟩ := ht.stepped hi hret
    have hwellBuilt := ht.wellBuilt.later hle₁.types
    have hhandlers := hwellBuilt.handlers_step hs₁.types hstep
    obtain ⟨row, hd', hf'⟩ := hf.instruction hd hs₁.types hwellBuilt ht.charted huse hstop hlt hstep
    rcases hgraph with ⟨hgraph, -⟩ | ⟨hmode, hgraph⟩
    · rw [hgraph]
      exact ⟨hs', hhandlers, row, hd', .frames (hgraph ▸ hf') ht'⟩
    · -- behind a store a block starts
      have hposition : (s.add row w'.size).offsets[(r.event (.instruction i)).code.length]? =
          some w'.size := by
        refine BlockGraph.getElem?_concat_eq_some_iff.2 (.inr ⟨?_, rfl⟩)
        rw [hd.offsets_length, Routine.event, List.length_append, List.length_singleton]
      obtain ⟨hd₂, hf₂⟩ := hf'.fallThrough hd' hg hcharted.led false hposition
      rw [hgraph]
      exact ⟨hs', (BlockGraph.handlers_splitAt hmode _).trans hhandlers, row, hd₂,
        .frames (hgraph ▸ hf₂) ht'⟩

/-- **A label** that starts a block, in each mode. -/
theorem Sketched.label (hs : Sketched h done r s w p mode) (hd : BlockGraph.Drawn r s w.graph)
    (hdebug : l.debug = false) (hnew : ∀ k, (l, k) ∉ r.places) (hunplaced : ¬ w.Placed l)
    (hl : l ∉ done) (hsize : s.offsets[r.code.length]? = some w.size) {u : Unit}
    (hret : Returns (label l w) p (u, w') p') :
    w'.graph.handlers = w.graph.handlers ∧ BlockGraph.Drawn (r.event (.label l)) s w'.graph ∧
      Sketched h (l :: done) (r.event (.label l)) s w' p' mode := by
  obtain ⟨a, -, -, hw'⟩ := returns_label hret
  have hgraph : w'.graph = w.graph.label l w.size := by
    rw [hw', hdebug]
    rfl
  cases hs with
  | heights hl' =>
    obtain ⟨hd', i, hline⟩ := hl'.label hd hdebug hnew hsize
    rw [hgraph]
    exact ⟨hl'.handlers_label l w.size, hd', .heights (hgraph ▸ hline)⟩
  | frames hf ht =>
    obtain ⟨ht', -⟩ := ht.label hl hret
    have hcharted : BlockGraph.Charted w.Placed (fun _ => True) w.size w.graph :=
      ht.charted.mono (fun _ _ => trivial) (Nat.le_refl _)
    obtain ⟨hd', hf'⟩ := hf.label hd ht.wellBuilt hcharted trivial hunplaced hdebug hsize
    rw [hgraph]
    exact ⟨ht.wellBuilt.handlers_label l w.size, hd', .frames (hgraph ▸ hf') ht'⟩

/-- **A handler**, in each mode. -/
theorem Sketched.handler (hs : Sketched h done r s w p mode) (hp : p.Sound h)
    (hd : BlockGraph.Drawn r s w.graph) {start stop target : Label}
    (hdebug : ∀ l ∈ [start, stop, target], l.debug = false) {caught : Option String} {u : Unit}
    (hret : Returns (handler start stop target caught w) p (u, w') p') :
    w'.graph.handlers = w.graph.handlers.push ⟨start, stop, target, caught⟩ ∧
      BlockGraph.Drawn (r.event (.handler start stop target caught)) s w'.graph ∧
      Sketched h done (r.event (.handler start stop target caught)) s w' p' mode := by
  obtain ⟨index, p₁, -, -, -, hw'⟩ := returns_handler hp hret
  have hgraph : w'.graph = w.graph.addHandler ⟨start, stop, target, caught⟩ := by rw [hw']
  rw [hgraph]
  refine ⟨BlockGraph.handlers_addHandler _ _, ?_⟩
  cases hs with
  | heights hl =>
    obtain ⟨hd', hl', -⟩ := hl.addHandler hd ⟨start, stop, target, caught⟩
    exact ⟨hd', .heights (hgraph ▸ hl')⟩
  | frames hf ht =>
    obtain ⟨ht', -⟩ := ht.handler hdebug hret
    obtain ⟨hd', hf'⟩ := hf.addHandler hd ht.wellBuilt ht.charted.led ⟨start, stop, target, caught⟩
    exact ⟨hd', .frames (hgraph ▸ hf') ht'⟩

theorem Measured.instruction (hw : Measured h mode done r w p) {i : Instruction Label}
    (hi : ∀ l ∈ i.targets, l.debug = false) {use : StackUse} (huse : i.stackUse? = some use)
    {u : Unit} (hret : Returns (instruction i w) p (u, w') p') :
    Measured h mode done (r.event (.instruction i)) w' p' := by
  have hlabels := hw.labels.instruction hi hret
  obtain ⟨hplace, -, -⟩ := names_instruction hret
  obtain ⟨around, a, p₁, g, T, hencode, -, -, ha, -⟩ := returns_instruction hret
  have hlt : w.size < w'.size := by
    obtain ⟨-, hlt⟩ := Assembler.encode_extends hencode
    rwa [size, size, ha]
  obtain ⟨s, hd, hsize, hsketched⟩ := hw.drawn
  -- the instruction ends behind all others
  have hstop : ∀ x ∈ s.offsets, x < w'.size := by
    intro x hx
    obtain ⟨k, hk⟩ := List.getElem?_of_mem hx
    refine Nat.lt_of_le_of_lt ?_ hlt
    have hle : k ≤ r.code.length := by
      have hk' := (List.getElem?_eq_some_iff.1 hk).1
      rw [hd.offsets_length] at hk'
      exact Nat.le_of_lt_succ hk'
    rcases Nat.lt_or_eq_of_le hle with hk' | rfl
    · exact Nat.le_of_lt (hd.offset_lt hk' hk hsize)
    · exact Nat.le_of_eq (Option.some.inj (hk.symm.trans hsize))
  obtain ⟨hs', hhandlers, row, hd', hsketched'⟩ := hsketched.instruction hw.sound hd hi huse hret hstop
  refine ⟨hs', hlabels, hhandlers ▸ hw.handlers, fun l hl => hw.placed l (hplace ▸ hl), _, hd', ?_,
    hsketched'⟩
  refine BlockGraph.getElem?_concat_eq_some_iff.2 (.inr ⟨?_, rfl⟩)
  rw [hd.offsets_length, Routine.event, List.length_append, List.length_singleton]

theorem Measured.label (hw : Measured h mode done r w p) (hl : l ∉ done) {u : Unit}
    (hret : Returns (label l w) p (u, w') p') : Measured h mode (l :: done) (r.event (.label l)) w' p' := by
  have hlabels := hw.labels.label hret
  obtain ⟨hknown, -⟩ := names_label hret
  have hdone : ∀ k, (w'.assembler.place? k).isSome = true → k ∈ l :: done := fun k hk =>
    ((hknown k).1 hk).elim (fun hk => List.mem_cons_of_mem _ (hw.placed k hk)) (· ▸ List.mem_cons_self)
  have hunplaced : ¬ w.Placed l := fun hplaced => hl (hw.placed l hplaced.2)
  obtain ⟨a, hok, rfl, hw'⟩ := returns_label hret
  obtain ⟨hsame, -, -⟩ := Assembler.placeLabel_ok hok
  obtain ⟨s, hd, hsize, hsketched⟩ := hw.drawn
  have hsize' : s.offsets[r.code.length]? = some w'.size := by
    rw [hsize, hw']
    exact congrArg some hsame.symm
  cases hdebug : l.debug with
  | true =>
    have hevent : r.event (.label l) = r := if_pos hdebug
    have hgraph : w'.graph = w.graph := by
      rw [hw', hdebug]
      rfl
    rw [hevent] at hlabels ⊢
    refine ⟨hw.sound, hlabels, hgraph ▸ hw.handlers, hdone, s, hgraph ▸ hd, hsize', ?_⟩
    cases hsketched with
    | heights hl' => exact .heights (hgraph ▸ hl')
    | frames hf ht => exact .frames (hgraph ▸ hf) (ht.label hl hret).1
  | false =>
    have hcode : (r.event (.label l)).code = r.code := by
      rw [Routine.event, if_neg (by rw [hdebug]; exact Bool.false_ne_true)]
    have hhandlers : (r.event (.label l)).handlers = r.handlers := by
      rw [Routine.event, if_neg (by rw [hdebug]; exact Bool.false_ne_true)]
    have hnew : ∀ k, (l, k) ∉ r.places := fun k hk => hunplaced ((hw.labels.placed l).2 ⟨k, hk⟩)
    obtain ⟨hkept, hd', hsketched'⟩ := hsketched.label hd hdebug hnew hunplaced hl hsize hret
    exact ⟨hw.sound, hlabels, by rw [hkept, hhandlers, hw.handlers], hdone, s, hd', hcode ▸ hsize',
      hsketched'⟩

theorem Measured.handler (hw : Measured h mode done r w p) {start stop target : Label}
    (hdebug : ∀ l ∈ [start, stop, target], l.debug = false) {caught : Option String} {u : Unit}
    (hret : Returns (handler start stop target caught w) p (u, w') p') :
    Measured h mode done (r.event (.handler start stop target caught)) w' p' := by
  have hlabels := hw.labels.handler hw.sound hdebug hret
  obtain ⟨s, hd, hsize, hsketched⟩ := hw.drawn
  obtain ⟨hhandlers, hd', hsketched'⟩ := hsketched.handler hw.sound hd hdebug hret
  obtain ⟨index, p₁, hs₁, -, rfl, rfl⟩ := returns_handler hw.sound hret
  refine ⟨hs₁, hlabels, ?_, hw.placed, s, hd', hsize, hsketched'⟩
  rw [hhandlers, Array.toList_push, hw.handlers]
  rfl

end Steps

/-! ## 3. The attribute -/

/-- Code without tables of lines and local variables gets its attribute. -/
theorem returns_finish_plain {p₁ p₂ : ConstantPool} {maxStack : UInt16} {frames : List MapFrame}
    {context : UInt16 → MethodContext} {handlers : UInt16 × Bytes} {map : List RawAttribute}
    {i : ConstantIndex} (hcheck : w.check = .ok ())
    (hanalyse :
      Returns (analyse (context (max w.usedLocals w.givenLocals)) w) p ((maxStack, frames), w') p₁)
    (hhandlers : w'.handlerTable = .ok handlers) (hlines : w'.lineEntries = .ok [])
    (hlocals : w'.localEntries = .ok []) (hmap : Returns (table .stackMapTable frames) p₁ map p₂)
    (hname : Returns (ConstantPool.utf8 "Code") p₂ i p') :
    Returns (finish context w) p (⟨i, RawAttribute.putAll (w'.head maxStack
      (context (max w.usedLocals w.givenLocals)).maxLocals handlers) map⟩, w') p' := by
  refine returns_bind_above.2 ⟨w, w, p, returns_get_above.2 ⟨rfl, rfl, rfl⟩, ?_⟩
  refine returns_bind_above.2 ⟨(), w, p, returns_except_above.2 ⟨hcheck, rfl, rfl⟩, ?_⟩
  refine returns_bind_above.2 ⟨w, w, p, returns_get_above.2 ⟨rfl, rfl, rfl⟩, ?_⟩
  refine returns_bind_above.2 ⟨w, w, p, returns_get_above.2 ⟨rfl, rfl, rfl⟩, ?_⟩
  refine returns_bind_above.2 ⟨_, _, _, hanalyse, ?_⟩
  refine returns_bind_above.2 ⟨w', w', p₁, returns_get_above.2 ⟨rfl, rfl, rfl⟩, ?_⟩
  refine returns_bind_above.2 ⟨_, w', p₁, returns_except_above.2 ⟨hhandlers, rfl, rfl⟩, ?_⟩
  refine returns_bind_above.2 ⟨_, w', p₁, returns_except_above.2 ⟨hlines, rfl, rfl⟩, ?_⟩
  refine returns_bind_above.2 ⟨[], w', p₁, rfl, ?_⟩
  refine returns_bind_above.2 ⟨_, w', p₁, returns_except_above.2 ⟨hlocals, rfl, rfl⟩, ?_⟩
  refine returns_bind_above.2 ⟨[], w', p₁, rfl, ?_⟩
  refine returns_bind_above.2 ⟨map, w', p₂, returns_lift_above.2 ⟨hmap, rfl⟩, ?_⟩
  refine returns_bind_above.2 ⟨i, w', p', returns_lift_above.2 ⟨hname, rfl⟩, ?_⟩
  exact returns_pure_above.2 ⟨rfl, rfl, rfl⟩

/-- The height of the stack is what the attribute begins with. -/
theorem u16At_head (w : CodeWriter) (maxStack maxLocals : UInt16) (handlers : UInt16 × Bytes)
    (attributes : List RawAttribute) :
    (RawAttribute.putAll (w.head maxStack maxLocals handlers) attributes).u16At 0 =
      .ok maxStack := by
  have hhas : (RawAttribute.putAll (w.head maxStack maxLocals handlers) attributes).Has 0
      (wordBytes 2 maxStack.toNat) := by
    refine ⟨[], (RawAttribute.putAll (w.head maxStack maxLocals handlers) attributes).toList.drop 2,
      ?_, rfl⟩
    rw [RawAttribute.toList_putAll, head]
    simp only [Bytes.toList_putBytes, Bytes.toList_putU16, Bytes.toList_putU32, List.append_assoc]
    rfl
  exact hhas.u16At

/-- A bound that is written with two bytes. -/
theorem fitsIn_written {greatest : Int} (hr : r.Below greatest) :
    r.FitsIn (BlockGraph.writtenHeight greatest) := by
  have hwritten : ∀ x : Int, x ≤ greatest → x ≤ 65535 →
      x ≤ (BlockGraph.writtenHeight greatest).toNat := by
    intro x hx hfits
    have hvalue := BlockGraph.toNat_writtenHeight greatest
    omega
  intro k x i u hk hi hu
  obtain ⟨hbefore, hbehind⟩ := hr k x i u hk hi hu
  exact ⟨hwritten x hbefore, hwritten _ hbehind⟩

/-- A greater height than is needed. -/
theorem fitsIn_max {n : UInt16} (hr : r.FitsIn n) (given : UInt16) : r.FitsIn (max n given) := by
  have hle : n.toNat ≤ (max n given).toNat := by
    rw [show max n given = if n ≤ given then given else n from rfl]
    split
    · rename_i hle
      exact UInt16.le_iff_toNat_le.1 hle
    · exact Nat.le_refl _
  intro k x i u hk hi hu
  obtain ⟨hbefore, hbehind⟩ := hr k x i u hk hi hu
  exact ⟨fun hx => (hbefore hx).trans (Int.ofNat_le.2 hle),
    fun hx => (hbehind hx).trans (Int.ofNat_le.2 hle)⟩

/-- **The height that is written bounds the stack.** -/
theorem Measured.finish {mode : ComputeMode} {done : List Label} (hw : Measured h mode done r w p)
    (hsorted : r.places.Pairwise fun p q => p.2 ≤ q.2)
    (hends : mode = .maxStack → r.EndsFirst) (hcovered : r.Covered)
    (hheld : r.Below (2 ^ 31 - 1)) (hsteady : r.Steady)
    {context : UInt16 → MethodContext} (hcontext : ∀ n, (context n).hierarchy = h) {code : RawAttribute}
    (hret : Returns (finish context w) p (code, w') p')
    (hended : mode = .frames → h.Rooted ∨ BlockGraph.Finished w'.graph.blocks) :
    ∃ n, code.payload.u16At 0 = .ok n ∧ r.FitsIn n := by
  obtain ⟨hcheck, maxStack, frames, handlers, lineEntries, localEntries, lines, locals, map, p₁, p₂, p₃,
    p₄, hanalyse, hhandlers, -, -, -, -, -, -, hpayload⟩ := returns_finish hret
  have hkept : w'.handlerTable = w.handlerTable := by
    obtain ⟨⟨g, rfl⟩, -⟩ := graph_of_analyse hanalyse
    rfl
  obtain ⟨hplaced, -⟩ := named_placed_of_check hcheck (hkept ▸ hhandlers)
  have hall : ∀ l, w.Named l → ∃ k, (l, k) ∈ r.places := fun l hl =>
    (hw.labels.placed l).1 (hplaced l hl)
  have htargets : r.TargetsPlaced := fun o ho l hl => hall l (hw.labels.targets o ho l hl)
  have hranges : BlockGraph.HandlersPlaced r := fun range hrange l hl =>
    hall l (hw.labels.bounds range hrange l hl)
  refine ⟨maxStack, by rw [hpayload, u16At_head], ?_⟩
  obtain ⟨s, hd, -, hsketched⟩ := hw.drawn
  cases hsketched with
  | heights hl =>
    obtain ⟨computed, g, hcomputed, rfl, rfl, rfl⟩ := returns_analyse_heights hl.frameless hanalyse
    obtain ⟨greatest, g', hmax, hbelow⟩ := hl.computeMaxStack_below hd hw.handlers hsorted htargets
      hranges (hends rfl) hcovered hheld hsteady _
    rw [hcomputed] at hmax
    cases hmax
    exact fitsIn_max (fitsIn_written hbelow) w.givenStack
  | frames hf ht =>
    obtain ⟨entry, g, T, hinfer, rfl, -⟩ := returns_analyse_frames ht.wellBuilt.mode hanalyse
    generalize max w.usedLocals w.givenLocals = n at hinfer
    obtain ⟨greatest, rfl, hbelow⟩ := hf.infer_below (hcontext n ▸ ht.sound.types) ht.wellBuilt ht.charted
      hd hw.handlers htargets hranges hcovered hheld hsteady hinfer
      (hcontext n ▸ hended rfl)
    exact fitsIn_written hbelow

end CodeWriter

/-! ## 4. Methods -/

namespace MethodWriter

variable {m m' : MethodWriter} {c : ClassContext}

theorem measured_event {mode : ComputeMode} {done : List Label}
    (hm : CodeWriter.Measured h mode done r m.code p) {e : MethodEvent} (he : e ≠ .finish)
    (hplaced : ∀ l, e.placed? = some l → l ∉ done) (hused : ∀ l ∈ e.used, l.debug = false)
    (huse : ∀ i, e = .instruction i → i.stackUse?.isSome = true)
    (hret : Returns (m.event c e) p m' p') :
    CodeWriter.Measured h mode (e.placed?.toList ++ done) (r.event e) m'.code p' := by
  rcases returns_event he hm.sound hret with
    ⟨hs, hle, hassembler, hgraph, hhandlers, hother⟩ | ⟨_, _, _, _, rfl, hrun⟩ | ⟨i, rfl, hrun⟩ |
    ⟨l, rfl, hrun⟩
  · have hsame : r.event e = r := by
      cases e
      case handler | instruction | label => exact nomatch hother
      all_goals rfl
    rw [hsame, MethodEvent.placed?_eq_none hother]
    exact hm.congr hs hle hassembler hgraph hhandlers
  · exact hm.handler hused hrun
  · obtain ⟨use, huse⟩ := Option.isSome_iff_exists.1 (huse i rfl)
    exact hm.instruction hused huse hrun
  · exact hm.label (hplaced l rfl) hrun

/-- **What events without an end leave**, if each label is placed once, no debug label is used, and
each instruction says how many slots it takes and leaves. -/
theorem measured_events {mode : ComputeMode} {done : List Label}
    (hm : CodeWriter.Measured h mode done r m.code p) {es : List MethodEvent} (hes : .finish ∉ es)
    (hplaced : (es.filterMap MethodEvent.placed?).Nodup)
    (hdone : ∀ l ∈ es.filterMap MethodEvent.placed?, l ∉ done)
    (hused : ∀ e ∈ es, ∀ l ∈ e.used, l.debug = false)
    (huse : ∀ i, .instruction i ∈ es → i.stackUse?.isSome = true)
    (hret : Returns (m.events c es) p m' p') :
    ∃ done', CodeWriter.Measured h mode done' (es.foldl Routine.event r) m'.code p' := by
  induction es generalizing m p r done with
  | nil =>
    obtain ⟨rfl, rfl⟩ := returns_pure.1 hret
    exact ⟨done, hm⟩
  | cons e es ih =>
    obtain ⟨m₁, p₁, he, hrest⟩ := returns_events_cons.1 hret
    rw [List.mem_cons, not_or] at hes
    have hfilter : (e :: es).filterMap MethodEvent.placed? =
        e.placed?.toList ++ es.filterMap MethodEvent.placed? := by
      rw [List.filterMap_cons]
      cases e.placed? <;> rfl
    rw [hfilter] at hplaced hdone
    obtain ⟨-, hnodup, hapart⟩ := List.nodup_append.1 hplaced
    have hm₁ := measured_event hm (Ne.symm hes.1)
      (fun l hl => hdone l (List.mem_append_left _ (Option.mem_toList.2 hl)))
      (hused e List.mem_cons_self) (fun i hi => huse i (hi ▸ List.mem_cons_self)) he
    refine ih hm₁ hes.2 hnodup (fun l hl hmem => ?_)
      (fun e' he' => hused e' (List.mem_cons_of_mem _ he'))
      (fun i hi => huse i (List.mem_cons_of_mem _ hi)) hrest
    rcases List.mem_append.1 hmem with hmem | hmem
    · exact hapart l hmem l hl rfl
    · exact hdone l (List.mem_append_right _ hl) hmem

end MethodWriter

/-! ## 5. A static method without parameters -/

/-- A static method without parameters. -/
def staticInfo : MethodInfo :=
  { access := 8, name := "m", descriptor := "()V", signature := none, exceptions := [],
    deprecated := false }

/-- The method in a class that is being written. -/
def staticWriter (name descriptor : ConstantIndex) (hasCode : Bool) (code : CodeWriter) :
    MethodWriter :=
  ⟨⟨staticInfo, name, descriptor, 0⟩, [], none, .empty, .empty, hasCode, code, .empty⟩

theorem onCode_static {name descriptor : ConstantIndex} {hasCode : Bool} {f : CodeM Unit}
    {w w' : CodeWriter} {p p' : ConstantPool} (hf : Returns (f w) p ((), w') p') :
    Returns ((staticWriter name descriptor hasCode w).onCode f) p
      (staticWriter name descriptor hasCode w') p' :=
  MethodWriter.returns_onCode.2 ⟨w', hf, rfl⟩

/-- The method has started, and hardly any index is taken. -/
theorem starts_early (options : WriterOptions) : ∃ name descriptor p,
    Returns ((ClassWriter.start options).startMethod staticInfo) .empty
      (staticWriter name descriptor false (.start (ClassWriter.start options).context.mode 0),
        ClassWriter.start options)
      p ∧ p.records.nextOffset ≤ 3 := by
  obtain ⟨name, p₁, hname, hwithin₁⟩ : ∃ i p, Returns (ConstantPool.utf8 "m") .empty i p ∧
      ConstantPool.Within 1 .empty p :=
    ConstantPool.takes_utf8 (by decide) (by decide)
  have hnext : p₁.records.nextOffset ≤ 1 + 1 := hwithin₁.next
  obtain ⟨descriptor, p₂, hdescriptor, hwithin₂⟩ : ∃ i p, Returns (ConstantPool.utf8 "()V") p₁ i p ∧
      ConstantPool.Within 1 p₁ p :=
    ConstantPool.takes_utf8 (by decide) (by omega)
  have hnext₂ := hwithin₂.next
  refine ⟨name, descriptor, p₂, ClassWriter.returns_startMethod.2 ⟨?_, rfl⟩, by omega⟩
  have htype : Descriptor.methodType "()V" = .ok ⟨[], none⟩ := by decide +kernel
  refine returns_bind.2 ⟨_, _, returns_lift.2 ⟨htype, rfl⟩, returns_bind.2 ⟨_, _, hname,
    returns_bind.2 ⟨_, _, hdescriptor, rfl⟩⟩⟩

theorem starts_static (options : WriterOptions) : ∃ name descriptor p,
    Returns ((ClassWriter.start options).startMethod staticInfo) .empty
      (staticWriter name descriptor false (.start (ClassWriter.start options).context.mode 0),
        ClassWriter.start options)
      p ∧ p.records.nextOffset + 1 ≤ 65535 := by
  obtain ⟨name, descriptor, p, hstart, hnext⟩ := starts_early options
  exact ⟨name, descriptor, p, hstart, by omega⟩

/-- An instruction without operands is encoded as its opcode. -/
theorem CodeWriter.returns_simple {w : CodeWriter} {op : Opcode} {g : BlockGraph} {p : ConstantPool}
    (hstep : BlockGraph.step w.size (w.size + 1) false (.simple op) w.graph p.types =
      ((.ok (), g), p.types)) :
    Returns (CodeWriter.instruction (.simple op) w) p ((), { w with
      assembler := { w.assembler with code := w.assembler.code.push op }, graph := g }) p := by
  obtain ⟨⟨code, places, waiting⟩, graph, handlers, lines, locals, usedLocals, givenStack, givenLocals⟩ := w
  have hencode : Returns (Assembler.encode (.simple op) ⟨code, places, waiting⟩) p
      (false, ⟨code.push op, places, waiting⟩) p := rfl
  refine returns_bind_above.2 ⟨_, _, p, returns_get_above.2 ⟨rfl, rfl, rfl⟩, ?_⟩
  refine returns_bind_above.2 ⟨false, _, p, CodeWriter.returns_onAssembler.2 ⟨_, hencode, rfl⟩, ?_⟩
  refine returns_bind_above.2 ⟨(), _, p, returns_modify_above.2 ⟨rfl, rfl⟩, ?_⟩
  refine returns_bind_above.2 ⟨_, _, p, returns_get_above.2 ⟨rfl, rfl, rfl⟩, ?_⟩
  refine returns_bind_above.2 ⟨(), _, p, CodeWriter.returns_onGraph.2 ⟨g, p.types, ?_, rfl, rfl⟩, rfl⟩
  simpa [CodeWriter.size, CodeWriter.noteLocals, CodeWriter.reported] using hstep

/-- Code that records only heights, and whose only table is that of handlers. -/
structure CodeWriter.Bare (w : CodeWriter) : Prop where
  mode : w.graph.mode = .maxStack
  handlers : ∃ table, w.handlerTable = .ok table
  lines : w.lines = #[]
  locals : w.locals = #[]

theorem CodeWriter.Bare.analyse {w : CodeWriter} (hw : w.Bare) (context : MethodContext)
    (p : ConstantPool) :
    ∃ n g, Returns (CodeWriter.analyse context w) p ((n, []), { w with graph := g }) p := by
  have hmode : w.graph.closeHeights.mode = .maxStack := by
    rw [← hw.mode]
    unfold BlockGraph.closeHeights
    split <;> rfl
  obtain ⟨g, hedges, -⟩ := BlockGraph.joins_addAllHandlerEdges hmode p.types
  refine ⟨max (BlockGraph.writtenHeight g.searchHeights.2.toInt) w.givenStack, g.searchHeights.1, ?_⟩
  refine returns_bind_above.2 ⟨w, w, p, returns_get_above.2 ⟨rfl, rfl, rfl⟩, ?_⟩
  rw [hw.mode]
  refine returns_bind_above.2 ⟨_, _, p, CodeWriter.returns_onGraph.2
    ⟨_, p.types, BlockGraph.computeMaxStack_of_edges hedges, rfl, rfl⟩, ?_⟩
  exact returns_bind_above.2 ⟨_, _, p, returns_get_above.2 ⟨rfl, rfl, rfl⟩,
    returns_pure_above.2 ⟨rfl, rfl, rfl⟩⟩

/-- The method ends when its code does. -/
theorem returns_finish_static (name descriptor : ConstantIndex) {c : ClassContext} {w w' : CodeWriter}
    {code : RawAttribute} {p p' : ConstantPool}
    (hfinish : Returns (CodeWriter.finish (MethodWriter.context c staticInfo) w) p (code, w') p') :
    ∃ m', Returns (MethodWriter.finish c (staticWriter name descriptor true w)) p m' p' ∧
      m'.code = w' := by
  have hparameters (n : Nat) : Returns (ParameterAnnotations.empty.attributes n) p' [] p' :=
    ParameterAnnotations.attributes_empty n ▸ returns_pure.2 ⟨rfl, rfl⟩
  exact ⟨_, returns_bind.2 ⟨_, p', returns_bind.2 ⟨_, p', hfinish, returns_pure.2 ⟨rfl, rfl⟩⟩,
    returns_bind.2 ⟨[], p', rfl, returns_bind.2 ⟨[], p', rfl,
    returns_bind.2 ⟨[], p', hparameters _, returns_pure.2 ⟨rfl, rfl⟩⟩⟩⟩⟩, rfl⟩

/-- Code without other tables can be ended. -/
theorem CodeWriter.Bare.finish {w : CodeWriter} (hw : w.Bare) (hcheck : w.check = .ok ())
    (name descriptor : ConstantIndex) (c : ClassContext) {p : ConstantPool}
    (hp : p.records.nextOffset + 1 ≤ 65535) :
    ∃ m' p', Returns (MethodWriter.events c (staticWriter name descriptor true w) [.finish]) p m' p' := by
  obtain ⟨i, p', hi, -⟩ : ∃ i p', Returns (ConstantPool.utf8 "Code") p i p' ∧
      ConstantPool.Within 1 p p' :=
    ConstantPool.takes_utf8 (by decide) hp
  obtain ⟨n, g, hanalyse⟩ :=
    hw.analyse (MethodWriter.context c staticInfo (max w.usedLocals w.givenLocals)) p
  obtain ⟨table, hhandlers⟩ := hw.handlers
  have hlines : CodeWriter.lineEntries { w with graph := g } = .ok [] := by
    unfold CodeWriter.lineEntries
    rw [hw.lines]
    rfl
  have hlocals : CodeWriter.localEntries { w with graph := g } = .ok [] := by
    unfold CodeWriter.localEntries
    rw [hw.locals]
    rfl
  obtain ⟨m', hm', -⟩ := returns_finish_static name descriptor
    (CodeWriter.returns_finish_plain hcheck hanalyse hhandlers hlines hlocals rfl hi)
  exact ⟨m', p', MethodWriter.returns_events_cons.2 ⟨m', p', hm', returns_pure.2 ⟨rfl, rfl⟩⟩⟩

end ClassFile
