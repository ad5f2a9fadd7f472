/-
# Handlers in the graph and in the table

A handler is registered twice: in the graph, which draws edges to it, and in the code, which has its row
for the table.  The graph goes along blocks to find what a handler covers; the table is made from the
places of labels alone.  Neither of them looks at the other.

Both go by the same places, since a label that starts a block stands in the graph where it stands in the
code (`CodeWriter.Surveyed`).  So a block gets an edge for each handler that has it between its places,
and a row is written for each handler whose places are in order, both in the order in which the handlers
came in (`ClassWriter.Run.handlers_protect`).  Debug labels may be jumped to: they start no blocks.
-/
import ClassFile.Proofs.BlockGraph.Arranged
import ClassFile.Proofs.Code.Linking
import ClassFile.Proofs.Code.Protected
import ClassFile.Proofs.Outline.Remark
import ClassFile.Proofs.StackMap.Made

namespace ClassFile

variable {h : Hierarchy} {p p' : ConstantPool} {r : HandlerRange} {rs : List HandlerRange}
  {row : HandlerLabels} {place : Label → Nat}

/-! ## 1. Rows -/

/-- The bytes of a row of the table of handlers. -/
def HandlerLabels.encoded (place : Label → Nat) (row : HandlerLabels) : List UInt8 :=
  wordBytes 2 (UInt16.ofNat (place row.start)).toNat ++
    (wordBytes 2 (UInt16.ofNat (place row.stop)).toNat ++
      (wordBytes 2 (UInt16.ofNat (place row.handler)).toNat ++
        wordBytes 2 (row.caught.getD 0).toNat))

theorem HandlerLabels.length_encoded (row : HandlerLabels) : (row.encoded place).length = 8 := by
  simp [encoded]

/-- **A handler is listed**: the row has its labels, and a record of what it catches. -/
structure HandlerRange.ListedAs (p : ConstantPool) (r : HandlerRange) (row : HandlerLabels) : Prop where
  start : row.start = r.start
  stop : row.stop = r.stop
  handler : row.handler = r.handler
  caught : Option.Rel (fun name i => p.className? i = some name) r.caught row.caught

theorem rel_imp {α β : Type} {R S : α → β → Prop} (himp : ∀ a b, R a b → S a b) :
    ∀ {a : Option α} {b : Option β}, Option.Rel R a b → Option.Rel S a b
  | _, _, .none => .none
  | _, _, .some hab => .some (himp _ _ hab)

theorem HandlerRange.ListedAs.later (hr : r.ListedAs p row) (hle : p ≤ p') : r.ListedAs p' row :=
  ⟨hr.start, hr.stop, hr.handler, rel_imp (fun _ _ => ConstantPool.className?_later hle) hr.caught⟩

namespace CodeWriter

variable {w : CodeWriter}

/-- A row is put behind others if its places are in order. -/
theorem putHandler_eq (hplace : ∀ l ∈ [row.start, row.stop, row.handler],
      w.assembler.place? l = some (place l)) (count : UInt16) (b : Bytes) :
    ∃ b', w.putHandler (count, b) row =
        .ok (if place row.start < place row.stop then (count + 1, b') else (count, b)) ∧
      b'.toList = b.toList ++ row.encoded place := by
  have hresolved : ∀ l ∈ [row.start, row.stop, row.handler], w.resolved l = .ok (place l) := by
    intro l hl
    rw [resolved, hplace l hl]
  refine ⟨_, bind_eq_ok_iff.2 ⟨_, hresolved row.start (by simp),
    bind_eq_ok_iff.2 ⟨_, hresolved row.stop (by simp),
    bind_eq_ok_iff.2 ⟨_, hresolved row.handler (by simp), (apply_ite _ _ _ _).symm⟩⟩⟩, ?_⟩
  simp only [Bytes.toList_putU16, List.append_assoc, HandlerLabels.encoded]

/-- Rows are put behind others. -/
theorem putHandlers_eq {rows : List HandlerLabels}
    (hplace : ∀ row ∈ rows, ∀ l ∈ [row.start, row.stop, row.handler],
      w.assembler.place? l = some (place l)) (count : Nat) (b : Bytes) :
    ∃ b', rows.foldlM w.putHandler (UInt16.ofNat count, b) =
        .ok (UInt16.ofNat (count + (rows.filter fun row => place row.start < place row.stop).length), b') ∧
      b'.toList = b.toList ++
        (rows.filter fun row => place row.start < place row.stop).flatMap
          (HandlerLabels.encoded place) := by
  induction rows generalizing count b with
  | nil => exact ⟨b, rfl, (List.append_nil _).symm⟩
  | cons row rows ih =>
    have hrest := fun row' hmem => hplace row' (List.mem_cons_of_mem row hmem)
    obtain ⟨b₁, hput, hbytes⟩ := putHandler_eq (hplace row List.mem_cons_self) (UInt16.ofNat count) b
    rw [List.foldlM_cons, hput]
    by_cases hkept : place row.start < place row.stop
    · obtain ⟨b', hputs, hbytes'⟩ := ih hrest (count + 1) b₁
      rw [List.filter_cons_of_pos (by simpa using hkept), List.length_cons, List.flatMap_cons,
        ← List.append_assoc, ← hbytes, if_pos hkept]
      refine ⟨b', ?_, hbytes'⟩
      rw [UInt16.ofNat_add, Nat.add_assoc, Nat.add_comm 1] at hputs
      exact hputs
    · rw [List.filter_cons_of_neg (by simpa using hkept), if_neg hkept]
      exact ih hrest count b

/-- **The table has the rows of the handlers whose places are in order.** -/
theorem handlerTable_eq (hplace : ∀ row ∈ w.handlers.toList,
      ∀ l ∈ [row.start, row.stop, row.handler], w.assembler.place? l = some (place l)) :
    ∃ b, w.handlerTable = .ok (UInt16.ofNat
        (w.handlers.toList.filter fun row => place row.start < place row.stop).length, b) ∧
      b.toList = (w.handlers.toList.filter fun row => place row.start < place row.stop).flatMap
        (HandlerLabels.encoded place) := by
  obtain ⟨b, htable, hbytes⟩ := putHandlers_eq hplace 0 .empty
  rw [Nat.zero_add] at htable
  refine ⟨b, ?_, hbytes⟩
  unfold handlerTable
  rw [← Array.foldlM_toList]
  exact htable

end CodeWriter

namespace ClassBytes

variable {c : ClassBytes} {o : Nat}

/-- **A table is read back**, if its rows are of one size and are read back, and two bytes can count them. -/
theorem exists_decodeTable {α β γ : Type} {R : α → γ → Prop} {size : Nat} {read : Nat → Except Error α}
    {encoded : β → List UInt8} {rs : List γ} {ys : List β} (hsize : ∀ y, (encoded y).length = size)
    (hrows : List.Forall₂ (fun r y => ∀ o, c.bytes.Has o (encoded y) → ∃ x, read o = .ok x ∧ R x r) rs ys)
    (hcount : rs.length ≤ 65535)
    (hat : c.bytes.Has o (wordBytes 2 (UInt16.ofNat ys.length).toNat ++ ys.flatMap encoded)) :
    ∃ xs, c.decodeTable size read o = .ok xs ∧ List.Forall₂ R xs rs := by
  obtain ⟨hread, hnumber⟩ := hat.left.count (hrows.length_eq ▸ hcount)
  have hbehind := hat.right
  rw [length_wordBytes] at hbehind
  have hread' : ∀ i (hi : i < rs.length), ∃ x, read (o + 2 + size * i) = .ok x ∧ R x rs[i] := by
    intro i hi
    have hi' : i < ys.length := hrows.length_eq ▸ hi
    exact hrows.get hi hi' _ (hbehind.entry hsize hi')
  obtain ⟨xs, hxs, hrelated⟩ := exists_mapM_range hread'
  refine ⟨xs, bind_eq_ok_iff.2 ⟨_, hread, ?_⟩, hrelated⟩
  rwa [hnumber, ← hrows.length_eq]

/-- It is read back just if two bytes can count its rows. -/
theorem decodeTable_eq_ok_iff {α β : Type} {size : Nat} {read : Nat → Except Error α}
    {encoded : β → List UInt8} {xs : List α} {ys : List β} (hsize : ∀ y, (encoded y).length = size)
    (hrows : List.Forall₂ (fun x y => ∀ o, c.bytes.Has o (encoded y) → read o = .ok x) xs ys)
    (hat : c.bytes.Has o (wordBytes 2 (UInt16.ofNat ys.length).toNat ++ ys.flatMap encoded)) :
    c.decodeTable size read o = .ok xs ↔ xs.length ≤ 65535 := by
  refine ⟨fun h => ?_, fun hcount => ?_⟩
  · obtain ⟨count, -, h⟩ := bind_eq_ok_iff.1 h
    rw [length_of_mapM_eq_ok h, List.length_range]
    exact Nat.le_of_lt_succ count.toNat_lt
  · obtain ⟨xs', hxs, hsame⟩ := exists_decodeTable (R := Eq) hsize
      (hrows.imp fun x _ hx o hat => ⟨x, hx o hat, rfl⟩) hcount hat
    rw [List.forall₂_eq_eq_eq] at hsame
    exact hsame ▸ hxs

/-- **A row of the table of handlers is read back.** -/
theorem HoldsRecords.decodeHandler (hc : c.HoldsRecords p) (hp : p.InOrder) (hr : r.ListedAs p row)
    {span : CodeSpan} (hplace : ∀ l ∈ [r.start, r.stop, r.handler], place l ≤ span.length)
    (hlength : span.length ≤ 65535) (hat : c.bytes.Has o (row.encoded place)) :
    c.decodeHandler span o = .ok ⟨place r.start, place r.stop, place r.handler, r.caught⟩ := by
  obtain ⟨start, stop, handler, caught⟩ := row
  obtain ⟨rfl, rfl, rfl, hcaught⟩ := hr
  have hstop := hat.right.left
  have hhandler := hat.right.right.left
  have hrecord := hat.right.right.right
  simp only [length_wordBytes] at hstop hhandler hrecord
  have hword : ∀ l ∈ [r.start, r.stop, r.handler], (UInt16.ofNat (place l)).toNat = place l := by
    intro l hl
    exact UInt16.toNat_ofNat_of_lt' (Nat.lt_succ_of_le (Nat.le_trans (hplace l hl) hlength))
  have hread : ∀ {l o'}, l ∈ [r.start, r.stop, r.handler] →
      c.bytes.Has o' (wordBytes 2 (UInt16.ofNat (place l)).toNat) → (do
        let value ← c.bytes.u16At o'
        if value.toNat ≤ span.length then return value.toNat
        else throw (.invalidCodeOffset o value.toNat) : Except Error Nat) = .ok (place l) := by
    intro l o' hl hat
    refine bind_eq_ok_iff.2 ⟨_, hat.u16At, ?_⟩
    rw [hword l hl, if_pos (hplace l hl)]
    rfl
  have hclass : c.classAt (o + 6) = .ok r.caught := by
    refine hc.classAt hp (rel_imp (fun name i hi => ?_) hcaught) hrecord
    obtain ⟨n, hget, hname⟩ := ConstantPool.className?_eq_some_iff.1 hi
    exact ⟨n, hget, ConstantPool.text?_eq_some_iff.2 hname⟩
  exact bind_eq_ok_iff.2 ⟨_, hread (by simp) hat.left, bind_eq_ok_iff.2 ⟨_, hread (by simp) hstop,
    bind_eq_ok_iff.2 ⟨_, hread (by simp) hhandler, bind_eq_ok_iff.2 ⟨_, hclass, rfl⟩⟩⟩⟩

/-- The rows that are read for handlers: those whose places are in order. -/
def handlerRows (place : Label → Nat) (rs : List HandlerRange) :
    List (HandlerRow Nat) :=
  (rs.filter fun r => place r.start < place r.stop).map fun r =>
    ⟨place r.start, place r.stop, place r.handler, r.caught⟩

/-- Rows of handlers whose places are in order are those of such handlers. -/
theorem forall₂_kept (place : Label → Nat) {R : HandlerRange → HandlerLabels → Prop}
    (hR : ∀ r row, R r row → r.ListedAs p row)
    {rows : List HandlerLabels} (hrows : List.Forall₂ R rs rows) :
    List.Forall₂ R (rs.filter fun r => place r.start < place r.stop)
      (rows.filter fun row => place row.start < place row.stop) := by
  refine List.rel_filter (fun r row hr => ?_) hrows
  dsimp only
  rw [(hR r row hr).start, (hR r row hr).stop]

theorem length_handlerRows {rows : List HandlerLabels}
    (hrows : List.Forall₂ (HandlerRange.ListedAs p) rs rows) : (handlerRows place rs).length =
      (rows.filter fun row => place row.start < place row.stop).length := by
  rw [handlerRows, List.length_map]
  exact (forall₂_kept place (fun _ _ hr => hr) hrows).length_eq

/-- **The table of handlers is read back.** -/
theorem HoldsRecords.decodeHandlers (hc : c.HoldsRecords p) (hp : p.InOrder)
    {rows : List HandlerLabels} (hlisted : List.Forall₂ (HandlerRange.ListedAs p) rs rows)
    {span : CodeSpan} (hplace : ∀ r ∈ rs, ∀ l ∈ [r.start, r.stop, r.handler], place l ≤ span.length)
    (hlength : span.length ≤ 65535)
    (hat : c.bytes.Has o (wordBytes 2 (UInt16.ofNat
        (rows.filter fun row => place row.start < place row.stop).length).toNat ++
      (rows.filter fun row => place row.start < place row.stop).flatMap
        (HandlerLabels.encoded place))) :
    c.decodeTable 8 (c.decodeHandler span) o = .ok (handlerRows place rs) ↔
      (handlerRows place rs).length ≤ 65535 := by
  have hkept := forall₂_kept place (fun _ _ hr => hr.2)
    ((List.forall₂_and_left _ _).2 ⟨hplace, hlisted⟩)
  refine decodeTable_eq_ok_iff HandlerLabels.length_encoded ?_ hat
  exact List.forall₂_map_left_iff.2 (hkept.imp fun r row hr o hat =>
    hc.decodeHandler hp hr.2 hr.1 hlength hat)

end ClassBytes

/-! ## 2. Code and graph -/

namespace CodeWriter

variable {w w' : CodeWriter} {u : Unit}

/-- **Code on the way, with its handlers**: labels stand in the graph where they stand in the code, and the
handlers that the graph has registered are listed. -/
structure Surveyed (h : Hierarchy) (rs : List HandlerRange) (w : CodeWriter) (p : ConstantPool) :
    Prop where
  sound : p.Sound h
  standing : BlockGraph.Standing h w.Placed w.size w.graph p.types
  located : w.Located
  registered : w.graph.handlers.toList = rs
  listed : List.Forall₂ (HandlerRange.ListedAs p) rs w.handlers.toList

theorem surveyed_start (hp : p.Sound h) (slots : UInt16) : Surveyed h [] (start .frames slots) p where
  sound := hp
  standing := (BlockGraph.standing_start hp.types).of_placed fun l =>
    ⟨False.elim, fun hl => by simpa [start, Assembler.empty, Assembler.place?] using hl.2⟩
  located := located_start slots
  registered := rfl
  listed := .nil

/-- **An instruction** registers no handler. -/
theorem Surveyed.instruction (hw : Surveyed h rs w p) {i : Instruction Label}
    (hret : Returns (CodeWriter.instruction i w) p (u, w') p') : Surveyed h rs w' p' := by
  obtain ⟨hplace, -⟩ := names_instruction hret
  obtain ⟨around, a, p₁, g, T, hencode, hstep, rfl, rfl, ⟨hhandlers, -⟩, hgraph⟩ :=
    returns_instruction hret
  obtain ⟨hs₁, hle₁⟩ := Assembler.leads_encode i w.assembler _ _ _ hencode hw.sound
  obtain ⟨-, hlt⟩ := Assembler.encode_extends hencode
  have hbefore := hw.standing.later hs₁.types hle₁.types
  obtain ⟨hT, hle, -⟩ := hbefore.built.step hs₁.types _ _ _ _ hstep
  obtain ⟨hs', hle'⟩ := hs₁.withTypes hT hle
  have hkept := hbefore.built.handlers_step hs₁.types hstep
  obtain ⟨hstanding, hsteady⟩ := hbefore.act (e := .instruction w.size w'.size around (reported i))
    ⟨Nat.le_refl _, hlt, rfl⟩ nofun hstep
  have hstanding := hstanding.of_placed fun l => or_iff_left nofun
  rw [← placed_eq hplace] at hstanding
  obtain ⟨hafter, hgrown, hsame⟩ : BlockGraph.Standing h w'.Placed w'.size w'.graph T ∧
      BlockGraph.Steady w.graph w'.graph ∧ w'.graph.handlers = w.graph.handlers := by
    rcases hgraph with ⟨hgraph, -⟩ | ⟨hmode, hgraph⟩ <;> rw [hgraph]
    · exact ⟨hstanding, hsteady, hkept⟩
    · obtain ⟨hsplit, hsteady'⟩ := hstanding.act (e := .split w'.size) ⟨Nat.le_refl _, rfl⟩ nofun rfl
      exact ⟨hsplit.of_placed fun l => or_iff_left nofun, hsteady.trans hsteady',
        (BlockGraph.handlers_splitAt hmode _).trans hkept⟩
  refine ⟨hs', hafter, hw.located.mono hgrown.sited hplace, hsame ▸ hw.registered, hhandlers ▸ ?_⟩
  exact hw.listed.imp fun _ _ hr => hr.later (ConstantPool.le_trans hle₁ hle')

/-- **A label** that has not been placed before. -/
theorem Surveyed.label (hw : Surveyed h rs w p) {l : Label} (hnew : w.assembler.place? l = none)
    (hret : Returns (CodeWriter.label l w) p (u, w') p') : Surveyed h rs w' p' := by
  have hplaced := placed_label hret
  obtain ⟨a, hok, rfl, hw'⟩ := returns_label hret
  obtain ⟨hcode, -, -⟩ := Assembler.placeLabel_ok hok
  have hsize : w'.size = w.size := by rw [hw', size, size, hcode]
  have hhandlers : w'.handlers = w.handlers := by rw [hw']
  cases hdebug : l.debug with
  | true =>
    have hgraph : w'.graph = w.graph := by rw [hw', hdebug, if_pos rfl]
    refine ⟨hw.sound, ?_, fun k q hk hq => ?_, hgraph ▸ hw.registered, hhandlers ▸ hw.listed⟩
    · rw [hgraph, hsize]
      exact hw.standing.of_placed fun k => ((hplaced k).trans
        (or_iff_left fun h => Bool.false_ne_true (h.2.symm.trans hdebug))).symm
    · rw [hgraph]
      rcases place_label hret hq with hq | ⟨rfl, -⟩
      · exact hw.located k q hk hq
      · exact absurd (hk.symm.trans hdebug) Bool.false_ne_true
  | false =>
    have hgraph : w'.graph = w.graph.label l w.size := by rw [hw', hdebug, if_neg Bool.false_ne_true]
    have hfresh : ¬ w.Placed l := by
      rintro ⟨-, hl⟩
      rw [hnew] at hl
      cases hl
    obtain ⟨hstanding, hsteady⟩ := hw.standing.act (e := .label l w.size) (q := w.size)
      ⟨Nat.le_refl _, rfl⟩ (fun k hk => Option.some.inj hk ▸ hfresh) rfl
    obtain ⟨-, hsited⟩ := hw.standing.charted.onward_label hw.standing.built trivial hfresh w.size
    rw [← hgraph] at hsteady hsited
    refine ⟨hw.sound, ?_, fun k q hk hq => ?_, ?_, hhandlers ▸ hw.listed⟩
    · rw [hgraph, hsize]
      refine hstanding.of_placed fun k => Iff.trans ?_ (hplaced k).symm
      simp [GraphEvent.placed?, hdebug, eq_comm]
    · rcases place_label hret hq with hq | ⟨rfl, rfl⟩
      · obtain ⟨i, hi⟩ := hw.located k q hk hq
        exact ⟨i, hsteady.sited hi⟩
      · exact hsited
    · rw [hgraph, hw.standing.built.handlers_label l, hw.registered]

/-- **A handler** is registered behind the others, and listed. -/
theorem Surveyed.handler (hw : Surveyed h rs w p) {start stop target : Label} {caught : Option String}
    (hret : Returns (CodeWriter.handler start stop target caught w) p (u, w') p') :
    Surveyed h (rs ++ [⟨start, stop, target, caught⟩]) w' p' := by
  obtain ⟨index, rfl, hpool⟩ := returns_handler_parts hret
  obtain ⟨hs', hle, hcaught⟩ : p'.Sound h ∧ p ≤ p' ∧
      Option.Rel (fun name i => p'.className? i = some name) caught index := by
    rcases hpool with ⟨rfl, rfl, rfl⟩ | ⟨name, i, rfl, rfl, hclass⟩
    · exact ⟨hw.sound, ConstantPool.le_refl _, .none⟩
    · obtain ⟨hs', hle, hname⟩ := hw.sound.classRef hclass
      exact ⟨hs', hle, .some hname⟩
  obtain ⟨hstanding, hsteady⟩ := (hw.standing.later hs'.types hle.types).act
    (e := .handler ⟨start, stop, target, caught⟩) (q := w.size) rfl nofun rfl
  refine ⟨hs', hstanding.of_placed fun l => or_iff_left nofun, hw.located.mono hsteady.sited rfl, ?_, ?_⟩
  · rw [BlockGraph.handlers_addHandler, Array.toList_push, hw.registered]
  · rw [Array.toList_push]
    exact List.rel_append (hw.listed.imp fun _ _ hr => hr.later hle)
      (.cons ⟨rfl, rfl, rfl, hcaught⟩ .nil)

/-- Only what is neither code nor graph has changed, and the pool has grown. -/
theorem Surveyed.congr (hw : Surveyed h rs w p) (hp : p'.Sound h) (hle : p ≤ p')
    (hassembler : w'.assembler = w.assembler) (hgraph : w'.graph = w.graph)
    (hhandlers : w'.handlers = w.handlers) : Surveyed h rs w' p' := by
  have hplace : w'.assembler.place? = w.assembler.place? := congrArg Assembler.place? hassembler
  have hsize : w'.size = w.size := by rw [size, size, hassembler]
  refine ⟨hp, ?_, hw.located.mono (fun hl => hgraph ▸ hl) hplace, hgraph ▸ hw.registered,
    hhandlers ▸ hw.listed.imp fun _ _ hr => hr.later hle⟩
  rw [hgraph, hsize, placed_eq hplace]
  exact hw.standing.later hp.types hle.types

/-! ## 3. The end of code -/

theorem Surveyed.kept (hw : Surveyed h rs w p) : Kept h w p := ⟨hw.sound, .inl hw.standing.built⟩

end CodeWriter

/-- **The table of handlers of an attribute of code**, in any class file that has the attribute and the
records of a pool: these rows are read behind the code, just if two bytes can count them. -/
def RawAttribute.HasHandlers (code : RawAttribute) (p : ConstantPool) (length : Nat)
    (rows : List (ClassBytes.HandlerRow Nat)) : Prop :=
  p.text? code.name = some "Code" ∧ ∀ (c : ClassBytes) (o : Nat), c.HoldsRecords p →
    c.bytes.Has o code.payload.toList →
      UInt32.toNat <$> c.bytes.u32At (o + 4) = .ok length ∧
      (c.decodeTable 8 (c.decodeHandler ⟨o + 8, length⟩) (o + 8 + length) = .ok rows ↔
        rows.length ≤ 65535)

theorem RawAttribute.HasHandlers.later {code : RawAttribute} {length : Nat}
    {rows : List (ClassBytes.HandlerRow Nat)} (hcode : code.HasHandlers p length rows) (hle : p ≤ p') :
    code.HasHandlers p' length rows :=
  ⟨ConstantPool.text?_later hle hcode.1, fun c o hc => hcode.2 c o (hc.earlier hle)⟩

namespace CodeWriter

variable {w w' : CodeWriter}

/-- **The table that is written** has the handlers whose places are in order. -/
theorem Surveyed.finish (hw : Surveyed h rs w p)
    (hplace : ∀ r ∈ rs, ∀ l ∈ [r.start, r.stop, r.handler],
      w.assembler.place? l = some (place l) ∧ place l ≤ w.size)
    {context : UInt16 → MethodContext} (hcontext : ∀ n, (context n).hierarchy = h) {code : RawAttribute}
    (hret : Returns (finish context w) p (code, w') p') :
    code.HasHandlers p' w.size (ClassBytes.handlerRows place rs) := by
  obtain ⟨hs', hle, hname⟩ := hw.kept.finish hcontext hret
  obtain ⟨hcheck, maxStack, frames, handlers, -, -, lines, locals, map, p₁, -, -, -, hanalyse, htable, -, -,
    -, -, -, -, hpayload⟩ := returns_finish hret
  obtain ⟨-, g, -, -, rfl, -⟩ := returns_analyse_frames hw.standing.built.mode hanalyse
  obtain ⟨-, hsize⟩ := check_eq_ok_iff.1 hcheck
  have hrows : ∀ row ∈ w.handlers.toList, ∀ l ∈ [row.start, row.stop, row.handler],
      w.assembler.place? l = some (place l) := by
    intro row hrow l hl
    obtain ⟨r, hr, hlisted⟩ := exists_of_forall₂ hw.listed hrow
    rw [hlisted.start, hlisted.stop, hlisted.handler] at hl
    exact (hplace r hr l hl).1
  obtain ⟨b, htable', hbytes⟩ := handlerTable_eq (w := { w with graph := g }) hrows
  obtain rfl := Except.ok.inj (htable.symm.trans htable')
  refine ⟨hname, fun c o hc hat => ?_⟩
  rw [hpayload, MethodWriter.toList_putAll_head] at hat
  have hlength := hat.right.right.left
  have htableAt := hat.right.right.right.right.left
  rw [hbytes] at htableAt
  simp only [length_wordBytes, Array.length_toList] at hlength htableAt
  refine ⟨?_, hc.decodeHandlers hs'.inOrder (hw.listed.imp fun _ _ hr => hr.later hle)
    (fun r hr l hl => (hplace r hr l hl).2) hsize htableAt⟩
  rw [hlength.u32At]
  exact congrArg Except.ok (UInt32.toNat_ofNat_of_lt' (Nat.lt_of_le_of_lt hsize (by decide)))

end CodeWriter

/-! ## 4. Methods -/

theorem MethodEvent.handled?_eq_none {e : MethodEvent} (he : e.inCode = false) :
    e.handled? = none := by
  cases e
  case handler => exact nomatch he
  all_goals rfl

namespace MethodWriter

variable {c : ClassContext} {m m' : MethodWriter} {es : List MethodEvent} {e : MethodEvent}

/-- **An event**, other than the end. -/
theorem surveyed_event (hm : CodeWriter.Surveyed h rs m.code p) (he : e ≠ .finish)
    (hnew : ∀ l, e.placed? = some l → m.code.assembler.place? l = none)
    (hret : Returns (m.event c e) p m' p') :
    CodeWriter.Surveyed h (rs ++ [e].filterMap MethodEvent.handled?) m'.code p' := by
  rcases returns_event he hm.sound hret with
    ⟨hp, hle, hassembler, hgraph, hhandlers, hother⟩ | ⟨start, stop, target, caught, rfl, hrun⟩ |
    ⟨i, rfl, hrun⟩ | ⟨l, rfl, hrun⟩
  · rw [List.filterMap_cons_none (MethodEvent.handled?_eq_none hother), List.filterMap_nil,
      List.append_nil]
    exact hm.congr hp hle hassembler hgraph hhandlers
  · exact hm.handler hrun
  · exact (List.append_nil rs).symm ▸ hm.instruction hrun
  · exact (List.append_nil rs).symm ▸ hm.label (hnew l rfl) hrun

/-- **Events without an end**, in a method with frames that places each label once. -/
theorem surveyed_events {slots : UInt16} (hm : m.code = .start .frames slots) (hp : p.Sound h)
    (hopen : .finish ∉ es) (honce : (es.filterMap MethodEvent.placed?).Nodup)
    (hret : Returns (m.events c es) p m' p') :
    Laying c m p es m'.code ∧
      CodeWriter.Surveyed h (es.filterMap MethodEvent.handled?) m'.code p' := by
  refine of_events (Q := fun es w q => Laying c m p es w ∧
      CodeWriter.Surveyed h (es.filterMap MethodEvent.handled?) w q)
    ⟨laying_start hm, hm ▸ CodeWriter.surveyed_start hp slots⟩ ?_ hopen honce hret
  rintro es e m₁ p₁ m₂ p₂ hes he hne hnew ⟨hlaying, hsurveyed⟩
  refine ⟨hlaying.snoc hes (follows_event hne he) hnew, ?_⟩
  rw [List.filterMap_append]
  exact surveyed_event hsurveyed hne (fun l hl => (hlaying.place_eq_none_iff hes).2 (hnew l hl)) he

/-- Labels that come in have places. -/
theorem Laying.exists_place {w : CodeWriter} (hw : Laying c m p es w)
    (hret : Returns (m.events c es) p m' p') :
    ∃ place : Label → Nat, ∀ l, .label l ∈ es → w.assembler.place? l = some (place l) := by
  refine ⟨fun l => (w.assembler.place? l).getD 0, fun l hl => ?_⟩
  obtain ⟨k, hk⟩ := Option.ne_none_iff_exists'.1
    fun hnone => (hw.place_eq_none_iff hret).1 hnone hl
  simp only [hk, Option.getD_some]

/-- Code has no other table, if it mentions nothing in vain, and no lines or local variables. -/
theorem Linked.bare {w : CodeWriter} (hw : Linked c m p es w) (hret : Returns (m.events c es) p m' p')
    (hnoted : ∀ l, ¬ Missing MethodEvent.noted es l) (hlines : w.lines = #[]) (hlocals : w.locals = #[]) :
    w.Bare := by
  obtain ⟨place, hplace⟩ := hw.toLaying.exists_place hret
  have hrows : ∀ row ∈ w.handlers.toList, ∀ l ∈ [row.start, row.stop, row.handler],
      w.assembler.place? l = some (place l) := by
    intro row hrow l hl
    refine hplace l ?_
    by_contra hno
    have hmem : l ∈ w.noted := List.mem_append_left _ (List.mem_flatMap.2 ⟨row, hrow, hl⟩)
    exact hnoted l ⟨(hw.noted l).1 hmem, hno⟩
  obtain ⟨b, htable, -⟩ := CodeWriter.handlerTable_eq hrows
  exact ⟨hw.frameless.mode, ⟨_, htable⟩, hlines, hlocals⟩

/-- **The end of a method with code** writes the handlers whose places are in order. -/
theorem handlers_of_finish (hm : CodeWriter.Surveyed c.hierarchy rs m.code p)
    (hplace : ∀ r ∈ rs, ∀ l ∈ [r.start, r.stop, r.handler],
      m.code.assembler.place? l = some (place l) ∧ place l ≤ m.code.size)
    (hcode : m.hasCode = true) (hret : Returns (m.finish c) p m' p') :
    ∃ code others, m'.table = m.table.add m.header.info.access m.header.name m.header.descriptor
        (code :: others) ∧
      ∀ q, p' ≤ q → code.HasHandlers q m.code.size (ClassBytes.handlerRows place rs) := by
  obtain ⟨attributes, others, p₁, hattribute, htable, hrest⟩ :=
    returns_finish (h := c.hierarchy) hret
  rcases returns_codeAttribute hattribute with ⟨-, code, rfl, hend⟩ | ⟨hno, -⟩
  · have hhandlers := hm.finish hplace (fun _ => rfl) hend
    obtain ⟨hs₁, -⟩ := hm.kept.finish (fun _ => rfl) hend
    obtain ⟨-, hle⟩ := hrest hs₁
    exact ⟨code, others, htable, fun q hq => hhandlers.later (ConstantPool.le_trans hle hq)⟩
  · rw [hcode] at hno
    exact nomatch hno

end MethodWriter

namespace BlockGraph

/-- **What handlers protect**: in a graph to which their edges have been added, a block of the chain that
starts between the places of a handler has one more edge, to what stands for the label of the handler.
There are no other edges more, and they are in the order of the handlers. -/
def Protects (g g' : BlockGraph) (T : TypeTable) (place : Label → Nat) (rs : List HandlerRange) : Prop :=
  ∀ i, ∃ es, edgesAt g'.blocks i = edgesAt g.blocks i ++ es ∧
    List.Forall₂ (g.Catches T)
      (rs.filter fun r => i ∈ g.chain 0 ∧ place r.start ≤ g.positionOf i ∧
        g.positionOf i < place r.stop) es

end BlockGraph

/-- **The edges of handlers**, whose labels stand in the graph where they stand in the code. -/
theorem CodeWriter.Surveyed.protects {w : CodeWriter} (hw : Surveyed h rs w p)
    (hplace : ∀ r ∈ rs, ∀ l ∈ [r.start, r.stop, r.handler], ∃ k, w.graph.Sited l k (place l)) :
    ∃ g T, BlockGraph.addAllHandlerEdges w.graph p.types = ((.ok (), g), T) ∧
      w.graph.Protects g T place rs := by
  rcases hrun : BlockGraph.addAllHandlerEdges w.graph p.types with ⟨⟨ans, g⟩, T⟩
  obtain ⟨rfl, -, hgains⟩ := hw.standing.charted.addAllHandlerEdges_exact hw.sound.types
    hw.standing.built hrun
  refine ⟨g, T, rfl, fun i => ?_⟩
  obtain ⟨es, hedges, hes⟩ := hgains i
  rw [hw.registered] at hes
  refine ⟨es, hedges, ?_⟩
  rwa [List.filter_congr fun r hr => ?_]
  obtain ⟨j, hstart⟩ := hplace r hr r.start (by simp)
  obtain ⟨k, hstop⟩ := hplace r hr r.stop (by simp)
  exact decide_eq_decide.2 (hw.standing.charted.covers_iff hstart hstop).symm

/-- **Edges and rows of handlers agree**, in a method with frames of a class that is being written.  Each
label is placed at most once, and those of handlers are placed and are no debug labels.

The labels of handlers stand in the graph at their places in the code.  Inference adds the edges of the
handlers first, and no other (`BlockGraph.Protects`).  If the method is written, the attribute of its code
has a row for each handler whose places are in order, with these places, in the order of the handlers;
there must be no more of them than two bytes can count. -/
theorem ClassWriter.Run.handlers_protect {options : WriterOptions} {w w₁ : ClassWriter}
    {p p₁ p₂ : ConstantPool} {m m₂ : MethodWriter} {info : MethodInfo} {body : List MethodEvent}
    (hrun : Run options w p) (hmode : w.context.mode = .frames)
    (hstart : Returns (w.startMethod info) p (m, w₁) p₁) (hopen : .finish ∉ body)
    (honce : (body.filterMap MethodEvent.placed?).Nodup)
    (hlabels : ∀ r ∈ body.filterMap MethodEvent.handled?, ∀ l ∈ [r.start, r.stop, r.handler],
      l.debug = false ∧ .label l ∈ body)
    (hret : Returns (m.events w₁.context body) p₁ m₂ p₂) :
    ∃ place : Label → Nat,
      (∀ r ∈ body.filterMap MethodEvent.handled?, ∀ l ∈ [r.start, r.stop, r.handler],
        MethodWriter.HasPlace w₁.context m p₁ body l (place l) ∧
        m₂.code.graph.firstOf l ∈ m₂.code.graph.chain 0 ∧
        m₂.code.graph.positionOf (m₂.code.graph.firstOf l) = place l) ∧
      (∃ g T, BlockGraph.addAllHandlerEdges m₂.code.graph p₂.types = ((.ok (), g), T) ∧
        m₂.code.graph.Protects g T place (body.filterMap MethodEvent.handled?) ∧
        ∀ context ans g' T', BlockGraph.infer context m₂.code.graph p₂.types = ((ans, g'), T') →
          ∀ i, BlockGraph.edgesAt g'.blocks i = BlockGraph.edgesAt g.blocks i) ∧
      ∀ m₃ p₃, .code ∈ body → Returns (m₂.finish w₁.context) p₂ m₃ p₃ →
        ∃ code others, m₃.table =
            w.methods.add info.access m.header.name m.header.descriptor (code :: others) ∧
          ∀ q, p₃ ≤ q → code.HasHandlers q m₂.code.size
            (ClassBytes.handlerRows place (body.filterMap MethodEvent.handled?)) := by
  obtain ⟨hp, rfl⟩ := hrun.sound
  obtain ⟨hstart', rfl⟩ := ClassWriter.returns_startMethod.1 hstart
  obtain ⟨slots, hm, hinfo, htable⟩ := MethodWriter.returns_start hstart'
  obtain ⟨hs₁, -⟩ := MethodWriter.leads_start _ _ _ _ _ _ hstart' hp
  rw [show w.header.mode w.options = .frames from hmode] at hm
  obtain ⟨hlaying, hsurveyed⟩ := MethodWriter.surveyed_events hm hs₁ hopen honce hret
  obtain ⟨place, hplaced⟩ := hlaying.exists_place hret
  have hplace := fun r hr l hl => hplaced l (hlabels r hr l hl).2
  have hsited := fun r hr l hl => hsurveyed.located l _ (hlabels r hr l hl).1 (hplace r hr l hl)
  refine ⟨place, fun r hr l hl => ?_, ?_, fun m₃ p₃ hcode hfinish => ?_⟩
  · obtain ⟨k, hk⟩ := hsited r hr l hl
    have hfirst := hk.firstOf_eq
    obtain ⟨i, -, hstands⟩ := hk
    refine ⟨(hlaying.place l _).1 (hplace r hr l hl), ?_, ?_⟩ <;> rw [hfirst]
    · exact hsurveyed.standing.charted.mem_chain hstands.passed
    · exact hstands.position
  · obtain ⟨g, T, hedges, hprotects⟩ := hsurveyed.protects hsited
    exact ⟨g, T, hedges, hprotects, fun context ans g' T' hinfer =>
      hsurveyed.standing.built.infer_edges hsurveyed.sound.types hedges hinfer⟩
  · obtain ⟨hheader, htable₂, hhas⟩ := MethodWriter.header_events hopen hret
    obtain ⟨ops, hops, -⟩ := hlaying.laid
    have hwritten := MethodWriter.handlers_of_finish hsurveyed
      (fun r hr l hl => ⟨hplace r hr l hl, hops.reached l _ (hplace r hr l hl)⟩)
      (hhas.2 (.inr hcode)) hfinish
    rwa [htable₂, htable, hheader, hinfo] at hwritten

/-- **Plain events make a method**, where only heights are recorded, if they mention no label in vain and there
are not too many of them. -/
theorem MethodWriter.written_plain {es : List MethodEvent} (hplain : ∀ e ∈ es, e.Plain)
    (honce : (es.filterMap MethodEvent.placed?).Nodup)
    (hmentions : ∀ e ∈ es, ∀ l ∈ e.branches ++ e.noted, .label l ∈ es) (hshort : 8 * es.length ≤ 32767) :
    ∃ name descriptor p m' p',
      Returns ((ClassWriter.start ⟨.maxStack, .empty⟩).startMethod staticInfo) .empty
        (staticWriter name descriptor false (.start .maxStack 0), ClassWriter.start ⟨.maxStack, .empty⟩) p ∧
      Returns (events (ClassWriter.start ⟨.maxStack, .empty⟩).context
        (staticWriter name descriptor false (.start .maxStack 0)) (.code :: es ++ [.finish])) p m' p' := by
  obtain ⟨name, descriptor, p, hstart, hroom⟩ := starts_static ⟨.maxStack, .empty⟩
  have hopen : .finish ∉ .code :: es := fun h => by
    rcases List.mem_cons.1 h with h | h
    · exact nomatch h
    · exact (hplain _ h).elim
  obtain ⟨w, hbody, hsize, hlines, hlocals⟩ := exists_events name descriptor
    (ClassWriter.start ⟨.maxStack, .empty⟩).context p hplain honce hshort
  have hlinked := linked_events rfl hopen honce hbody
  have hplaced : ∀ e ∈ .code :: es, ∀ l ∈ e.branches ++ e.noted, .label l ∈ .code :: es := by
    intro e he l hl
    rcases List.mem_cons.1 he with rfl | he
    · exact absurd hl List.not_mem_nil
    · exact List.mem_cons_of_mem _ (hmentions e he l hl)
  have hcheck : w.check = .ok () := hlinked.check hbody (fun l ⟨⟨e, he, hl⟩, hno⟩ =>
    hno (hplaced e he l (List.mem_append_left _ hl))) (hsize.trans (hshort.trans (by decide)))
  have hbare := hlinked.bare hbody (fun l ⟨⟨e, he, hl⟩, hno⟩ =>
    hno (hplaced e he l (List.mem_append_right _ hl))) hlines hlocals
  obtain ⟨m', p', hfinish⟩ := hbare.finish hcheck name descriptor
    (ClassWriter.start ⟨.maxStack, .empty⟩).context hroom
  exact ⟨name, descriptor, p, m', p', hstart, returns_events_append.2 ⟨_, _, hbody, hfinish⟩⟩

/-! ## 5. A handler that throws again -/

section Rethrown

variable {labels : InternTable Label BlockId} {i : Nat} {a : Assembler}

/-- What is caught is all that the stack map says. -/
theorem stackMap_rethrown (labels : InternTable Label BlockId)
    (hi : p.types.entries[i]? = some (.initialized "java/lang/Throwable"))
    (hroom : p.records.nextOffset + 2 ≤ 65535) : ∃ k p',
    Returns (BlockGraph.stackMap
        { rethrownComplete labels with blocks := rethrownSettled (.scalar (.object i)) } []) p
      [.sameOneStack 3 (.object k)] p' ∧ p'.records.nextOffset ≤ p.records.nextOffset + 2 := by
  obtain ⟨k, p', hclass, hwithin⟩ : ∃ k p', Returns (ConstantPool.classRef "java/lang/Throwable") p k p' ∧
      ConstantPool.Within 2 p p' :=
    ConstantPool.takes_classRef (by decide) hroom
  have htype : Returns (SlotType.verificationType (.scalar (.object i))) p (.object k) p' :=
    returns_bind.2 ⟨_, p, ConstantPool.returns_onTypes.2
      ⟨_, TypeTable.returns_entry.2 ⟨hi, rfl⟩, rfl⟩, returns_bind.2 ⟨k, p', hclass, rfl⟩⟩
  have hstack : Returns ([SlotType.scalar (.object i)].mapM SlotType.verificationType) p
      [.object k] p' := by
    rw [List.mapM_cons, List.mapM_nil]
    exact returns_bind.2 ⟨_, p', htype, rfl⟩
  have hframes : Returns (BlockGraph.writeFrames [] none []
      [(3, caughtFrame (.scalar (.object i)))]) p [.sameOneStack 3 (.object k)] p' :=
    returns_bind.2 ⟨[], p, rfl, returns_bind.2 ⟨[.object k], p', hstack, rfl⟩⟩
  exact ⟨k, p', returns_bind.2 ⟨[], p, rfl, hframes⟩, hwithin.next⟩

/-- The graph of the method at its end, with the type of what is caught. -/
def rethrownInferred (labels : InternTable Label BlockId) (i : TypeIndex) : BlockGraph :=
  { rethrownComplete labels with blocks := rethrownSettled (.scalar (.object i)) }

/-- What is found out about the method at its end. -/
theorem analyse_rethrown (h₀ : labels.get? ⟨0, false⟩ = some 1) (h₁ : labels.get? ⟨1, false⟩ = some 2)
    (hp : p.Sound .empty) (hroom : p.records.nextOffset + 2 ≤ 65535) (a : Assembler) : ∃ i k p',
    Returns (CodeWriter.analyse
        (MethodWriter.context (ClassWriter.start ⟨.frames, .empty⟩).context staticInfo 1)
        (rethrownCode 1 a (rethrownComplete labels))) p
      ((1, [.sameOneStack 3 (.object k)]), rethrownCode 1 a (rethrownInferred labels i)) p' ∧
    p'.types.entries[i]? = some (.initialized "java/lang/Throwable") ∧
    p'.records.nextOffset ≤ p.records.nextOffset + 2 := by
  obtain ⟨i, T, hi, hinfer⟩ := settles_rethrown h₀ h₁ hp.types
  obtain ⟨k, p', hmap, hnext⟩ := stackMap_rethrown labels (p := { p with types := T }) hi hroom
  have htypes : p'.types = T := ConstantPool.sameTypes_stackMap _ _ _ _ _ hmap
  refine ⟨i, k, p', ?_, htypes ▸ hi, hnext⟩
  refine returns_bind_above.2 ⟨_, _, p, returns_get_above.2 ⟨rfl, rfl, rfl⟩, ?_⟩
  refine returns_bind_above.2 ⟨_, _, _, CodeWriter.returns_onGraph.2 ⟨_, T, hinfer, rfl, rfl⟩, ?_⟩
  refine returns_bind_above.2 ⟨_, _, _, returns_get_above.2 ⟨rfl, rfl, rfl⟩, ?_⟩
  refine returns_bind_above.2 ⟨_, _, p', returns_lift_above.2 ⟨hmap, rfl⟩, ?_⟩
  exact returns_pure_above.2 ⟨rfl, rfl, rfl⟩

/-- The method can be ended. -/
theorem finish_rethrown (h₀ : labels.get? ⟨0, false⟩ = some 1) (h₁ : labels.get? ⟨1, false⟩ = some 2)
    (hp : p.Sound .empty) (hroom : p.records.nextOffset ≤ 3)
    (hcheck : (rethrownCode 1 a (rethrownComplete labels)).check = .ok ())
    (hplace : ∀ l ∈ [⟨0, false⟩, ⟨1, false⟩, ⟨1, false⟩], a.place? l = some (place l))
    (name descriptor : ConstantIndex) : ∃ i m' p',
    Returns (MethodWriter.finish (ClassWriter.start ⟨.frames, .empty⟩).context
      (staticWriter name descriptor true (rethrownCode 1 a (rethrownComplete labels)))) p m' p' ∧
    m'.code = rethrownCode 1 a (rethrownInferred labels i) ∧
    p'.types.entries[i]? = some (.initialized "java/lang/Throwable") := by
  obtain ⟨i, k, p₁, hanalyse, hi, hroom₁⟩ := analyse_rethrown h₀ h₁ hp (by omega) a
  have hrows : ∀ row ∈ (rethrownCode 1 a (rethrownInferred labels i)).handlers.toList,
      ∀ l ∈ [row.start, row.stop, row.handler],
        (rethrownCode 1 a (rethrownInferred labels i)).assembler.place? l = some (place l) := by
    intro row hrow
    obtain rfl := List.mem_singleton.1 hrow
    exact hplace
  obtain ⟨b, hhandlers, -⟩ := CodeWriter.handlerTable_eq hrows
  obtain ⟨j, p₂, hmap, hwithin₂⟩ : ∃ j p₂, Returns (ConstantPool.utf8 "StackMapTable") p₁ j p₂ ∧
      ConstantPool.Within 1 p₁ p₂ :=
    ConstantPool.takes_utf8 (by decide) (by omega)
  have hroom₂ := hwithin₂.next
  obtain ⟨n, p', hname, -⟩ : ∃ n p', Returns (ConstantPool.utf8 "Code") p₂ n p' ∧
      ConstantPool.Within 1 p₂ p' :=
    ConstantPool.takes_utf8 (by decide) (by omega)
  have htable : Returns (CodeWriter.table .stackMapTable [MapFrame.sameOneStack 3 (.object k)]) p₁
      [⟨j, (Attribute.stackMapTable [.sameOneStack 3 (.object k)]).payload⟩] p₂ :=
    CodeWriter.returns_table.2 (.inr ⟨List.cons_ne_nil _ _, j, hmap, rfl⟩)
  obtain ⟨m', hm', hcode⟩ := returns_finish_static name descriptor
    (CodeWriter.returns_finish_plain hcheck hanalyse hhandlers rfl rfl htable hname)
  have htypes : p'.types = p₁.types := ((ConstantPool.interning_utf8 _).types_eq hname).trans
    ((ConstantPool.interning_utf8 _).types_eq hmap)
  exact ⟨i, m', p', hm', hcode, htypes ▸ hi⟩

/-- The two blocks in front of the handler have an edge to it, and that of the handler has none. -/
theorem protects_rethrown {g : BlockGraph} {T : TypeTable} (hstart : place ⟨0, false⟩ = 0)
    (hstop : place ⟨1, false⟩ = 3) (hprotects : (rethrownComplete labels).Protects g T place
      [⟨⟨0, false⟩, ⟨1, false⟩, ⟨1, false⟩, none⟩]) : ∃ e₁ e₂,
    (rethrownComplete labels).Catches T ⟨⟨0, false⟩, ⟨1, false⟩, ⟨1, false⟩, none⟩ e₁ ∧
      (rethrownComplete labels).Catches T ⟨⟨0, false⟩, ⟨1, false⟩, ⟨1, false⟩, none⟩ e₂ ∧
      BlockGraph.edgesAt g.blocks 0 = [⟨.normal, 3⟩, e₁] ∧ BlockGraph.edgesAt g.blocks 3 = [e₂] ∧
      BlockGraph.edgesAt g.blocks 4 = [] := by
  have hpositions : (rethrownComplete labels).positionOf 0 = 0 ∧
      (rethrownComplete labels).positionOf 3 = 2 ∧ (rethrownComplete labels).positionOf 4 = 3 :=
    ⟨rfl, rfl, rfl⟩
  have hmem : 0 ∈ (rethrownComplete labels).chain 0 ∧ 3 ∈ (rethrownComplete labels).chain 0 :=
    ⟨List.mem_cons_self, List.mem_cons_of_mem _ List.mem_cons_self⟩
  obtain ⟨es₁, hentered, hes₁⟩ := hprotects 0
  obtain ⟨es₂, hbehind, hes₂⟩ := hprotects 3
  obtain ⟨es₃, hleft, hes₃⟩ := hprotects 4
  rw [List.filter_cons_of_pos (by simp [hpositions, hstart, hstop, hmem])] at hes₁ hes₂
  rw [List.filter_cons_of_neg (by simp [hpositions, hstop])] at hes₃
  obtain ⟨e₁, rest, hcatches₁, hnil, rfl⟩ := List.forall₂_cons_left_iff.1 hes₁
  cases hnil
  obtain ⟨e₂, rest, hcatches₂, hnil, rfl⟩ := List.forall₂_cons_left_iff.1 hes₂
  cases hnil
  cases hes₃
  exact ⟨e₁, e₂, hcatches₁, hcatches₂, hentered, hbehind, hleft⟩

/-- The method can be written, up to its end and with it. -/
theorem events_rethrown (name descriptor : ConstantIndex) (hp : p.Sound .empty)
    (hroom : p.records.nextOffset ≤ 3) : ∃ labels a i m' p',
    labels.get? ⟨0, false⟩ = some 1 ∧ labels.get? ⟨1, false⟩ = some 2 ∧ a.code = #[3, 59, 177, 191] ∧
    Returns (MethodWriter.events (ClassWriter.start ⟨.frames, .empty⟩).context
      (staticWriter name descriptor false (.start .frames 0)) rethrownBody) p
      (staticWriter name descriptor true (rethrownCode 1 a (rethrownComplete labels))) p ∧
    Returns (MethodWriter.finish (ClassWriter.start ⟨.frames, .empty⟩).context
      (staticWriter name descriptor true (rethrownCode 1 a (rethrownComplete labels)))) p m' p' ∧
    m'.code = rethrownCode 1 a (rethrownInferred labels i) ∧
    p'.types.entries[i]? = some (.initialized "java/lang/Throwable") := by
  obtain ⟨labels, h₀, h₁, hbefore⟩ :=
    before_rethrown name descriptor (ClassWriter.start ⟨.frames, .empty⟩).context p
  obtain ⟨waiting, hafter⟩ := after_rethrown name descriptor
    (ClassWriter.start ⟨.frames, .empty⟩).context p h₁
    ((∅ : Std.HashMap Label Nat).insert ⟨0, false⟩ 0)
  have hret := MethodWriter.returns_events_append.2 ⟨_, _, hbefore, hafter⟩
  obtain ⟨hlaying, -⟩ := MethodWriter.surveyed_events rfl hp (by simp [rethrownBody]) (by decide) hret
  have hcheck := hlaying.check hret (fun l => by
    simp [MethodWriter.Missing, rethrownBody, MethodEvent.branches, Instruction.targets])
    (Nat.le_of_ble_eq_true rfl)
  obtain ⟨place, hplaced⟩ := hlaying.exists_place hret
  have hplace : ∀ l ∈ [⟨0, false⟩, ⟨1, false⟩, ⟨1, false⟩], _ = some (place l) :=
    fun l hl => hplaced l (by simpa [rethrownBody] using hl)
  obtain ⟨i, m', p', hfinish, hcode, hi⟩ :=
    finish_rethrown h₀ h₁ hp hroom hcheck hplace name descriptor
  exact ⟨labels, _, i, m', p', h₀, h₁, rfl, hret, hfinish, hcode, hi⟩

/-- The method in a class that is being written. -/
theorem written_rethrown : ∃ name descriptor p labels a i m' p',
    Returns ((ClassWriter.start ⟨.frames, .empty⟩).startMethod staticInfo) .empty
      (staticWriter name descriptor false (.start .frames 0), ClassWriter.start ⟨.frames, .empty⟩) p ∧
    Returns (MethodWriter.events (ClassWriter.start ⟨.frames, .empty⟩).context
      (staticWriter name descriptor false (.start .frames 0)) (rethrownBody ++ [.finish])) p m' p' ∧
    m'.code = rethrownCode 1 a (rethrownInferred labels i) ∧
    p'.types.entries[i]? = some (.initialized "java/lang/Throwable") := by
  obtain ⟨name, descriptor, p, hstart, hnext⟩ := starts_early ⟨.frames, .empty⟩
  have hsound : p.Sound .empty := by
    obtain ⟨hstart', -⟩ := ClassWriter.returns_startMethod.1 hstart
    exact (MethodWriter.leads_start _ _ _ _ _ _ hstart' (ConstantPool.sound_empty _)).1
  obtain ⟨labels, a, i, m', p', -, -, -, hbody, hfinish, hcode, hi⟩ :=
    events_rethrown name descriptor hsound hnext
  have hend : Returns (MethodWriter.events (ClassWriter.start ⟨.frames, .empty⟩).context
      (staticWriter name descriptor true (rethrownCode 1 a (rethrownComplete labels))) [.finish])
      p m' p' := MethodWriter.returns_events_singleton.2 hfinish
  exact ⟨name, descriptor, p, labels, a, i, m', p', hstart,
    MethodWriter.returns_events_append.2 ⟨_, _, hbody, hend⟩, hcode, hi⟩

/-- No debug label is used. -/
theorem used_rethrown : ∀ e ∈ rethrownBody, ∀ l ∈ e.used, l.debug = false := by
  simp [rethrownBody, MethodEvent.used, Instruction.targets]

theorem plain_rethrown : ∀ e ∈ rethrownBody.tail, e.Plain := by
  simp only [rethrownBody, List.tail_cons, List.forall_mem_cons, MethodEvent.Plain, true_and]
  exact ⟨by decide, by decide, by decide, by decide, fun _ he => absurd he List.not_mem_nil⟩

/-- Labels that are mentioned are placed. -/
theorem placed_rethrown : ∀ e ∈ rethrownBody.tail, ∀ l ∈ e.branches ++ e.noted,
    .label l ∈ rethrownBody.tail := by
  simp [rethrownBody, MethodEvent.branches, MethodEvent.noted, Instruction.targets]

/-- A handler that throws again what it catches has its edges from the two blocks in front of it, and its row
in the table. -/
theorem ClassWriter.Run.handlers_protect_rethrown : ∃ name descriptor p m₂ m₃ p₃,
    Returns ((ClassWriter.start ⟨.frames, .empty⟩).startMethod staticInfo) .empty
      (staticWriter name descriptor false (.start .frames 0), ClassWriter.start ⟨.frames, .empty⟩) p ∧
    Returns (MethodWriter.events (ClassWriter.start ⟨.frames, .empty⟩).context
      (staticWriter name descriptor false (.start .frames 0)) rethrownBody) p m₂ p ∧
    Returns (m₂.finish (ClassWriter.start ⟨.frames, .empty⟩).context) p m₃ p₃ ∧
    (∃ g T e₁ e₂, BlockGraph.addAllHandlerEdges m₂.code.graph p.types = ((.ok (), g), T) ∧
      m₂.code.graph.Catches T ⟨⟨0, false⟩, ⟨1, false⟩, ⟨1, false⟩, none⟩ e₁ ∧
      m₂.code.graph.Catches T ⟨⟨0, false⟩, ⟨1, false⟩, ⟨1, false⟩, none⟩ e₂ ∧
      BlockGraph.edgesAt g.blocks 0 = [⟨.normal, 3⟩, e₁] ∧ BlockGraph.edgesAt g.blocks 3 = [e₂] ∧
      BlockGraph.edgesAt g.blocks 4 = []) ∧
    ∃ code others, m₃.table = MemberTable.empty.add 8 name descriptor (code :: others) ∧
      code.HasHandlers p₃ 4 [⟨0, 3, 3, none⟩] := by
  obtain ⟨name, descriptor, p, hstart, hnext⟩ := starts_early ⟨.frames, .empty⟩
  have hsound : p.Sound .empty := by
    obtain ⟨hstart', -⟩ := ClassWriter.returns_startMethod.1 hstart
    exact (MethodWriter.leads_start _ _ _ _ _ _ hstart' (ConstantPool.sound_empty _)).1
  obtain ⟨labels, a, -, m₃, p₃, h₀, h₁, hbytes, hret, hfinish, -⟩ :=
    events_rethrown name descriptor hsound hnext
  have hopen : .finish ∉ rethrownBody := by simp [rethrownBody]
  have honce : (rethrownBody.filterMap MethodEvent.placed?).Nodup := by decide
  have hlabels : ∀ r ∈ rethrownBody.filterMap MethodEvent.handled?,
      ∀ l ∈ [r.start, r.stop, r.handler], l.debug = false ∧ .label l ∈ rethrownBody := by
    simp [rethrownBody, MethodEvent.handled?]
  obtain ⟨place, hplaces, ⟨g, T, hedges, hprotects, -⟩, hwritten⟩ :=
    ClassWriter.Run.handlers_protect .fresh rfl hstart hopen honce hlabels hret
  have hhandled : rethrownBody.filterMap MethodEvent.handled? =
      [⟨⟨0, false⟩, ⟨1, false⟩, ⟨1, false⟩, none⟩] := rfl
  rw [hhandled] at hplaces hprotects hwritten
  have hfirst : place ⟨0, false⟩ = 0 ∧ place ⟨1, false⟩ = 3 := by
    obtain ⟨-, -, hstarts⟩ := hplaces _ (List.mem_singleton.2 rfl) ⟨0, false⟩ (by simp)
    obtain ⟨-, -, hstops⟩ := hplaces _ (List.mem_singleton.2 rfl) ⟨1, false⟩ (by simp)
    refine ⟨hstarts.symm.trans ?_, hstops.symm.trans ?_⟩ <;> unfold BlockGraph.firstOf
    · rw [show BlockGraph.labels _ = labels from rfl, h₀]
      rfl
    · rw [show BlockGraph.labels _ = labels from rfl, h₁]
      rfl
  obtain ⟨hstarts, hstops⟩ := hfirst
  refine ⟨name, descriptor, p, _, m₃, p₃, hstart, hret, hfinish, ?_, ?_⟩
  · obtain ⟨e₁, e₂, hcatches₁, hcatches₂, hentered⟩ := protects_rethrown hstarts hstops hprotects
    exact ⟨g, T, e₁, e₂, hedges, hcatches₁, hcatches₂, hentered⟩
  · obtain ⟨code, others, htable, hhas⟩ := hwritten m₃ p₃ List.mem_cons_self hfinish
    refine ⟨code, others, htable, ?_⟩
    have hsize : (rethrownCode 1 a (rethrownComplete labels)).size = 4 := congrArg Array.size hbytes
    have hhas : code.HasHandlers p₃ (rethrownCode 1 a (rethrownComplete labels)).size _ :=
      hhas p₃ (ConstantPool.le_refl _)
    rw [hsize] at hhas
    simpa [ClassBytes.handlerRows, hstarts, hstops] using hhas

end Rethrown

end ClassFile
