/-
# The stack map of a method

When a method has been written with frames, its stack map has one entry for each block that control
gets to and that something leads to, in the order of their positions (`Tracked.finish`).  Read back, the
entries are those that were inferred.  Only counts of more than two bytes are lost.
-/
import ClassFile.Proofs.ClassWriter
import ClassFile.Proofs.Code.HandlerTable

namespace ClassFile

variable {h : Hierarchy}

/-! ## 1. Entries of blocks -/

/-- Lists that are related entry by entry to one between them. -/
theorem forall₂_comp {α β γ : Type} {R : α → β → Prop} {S : β → γ → Prop} {as : List α}
    {bs : List β} {cs : List γ} (hab : List.Forall₂ R as bs) (hbc : List.Forall₂ S bs cs) :
    List.Forall₂ (Relation.Comp R S) as cs := by
  induction hab generalizing cs with
  | nil =>
    cases hbc
    exact .nil
  | cons hr _ ih =>
    obtain _ | ⟨hs, hbc⟩ := hbc
    exact .cons ⟨_, hr, hs⟩ (ih hbc)

/-- **What a stack map has to say**: the entries are those of blocks at ascending positions.  Control
gets to each of the blocks, and something leads to it. -/
structure BlockGraph.MapEntries (g : BlockGraph) (T : TypeTable) (ids : List BlockId)
    (entries : List MapEntry) : Prop where
  framed : List.Forall₂ (fun i e => ∃ f, frameAt g.blocks i = some f ∧
    f.mapEntryOf? T (g.positionOf i) = some e) ids entries
  ascending : ids.Pairwise fun i j => g.positionOf i < g.positionOf j
  room : ∀ i ∈ ids, g.positionOf i ≤ 65535
  needed : ∀ i ∈ ids, Reaches g.blocks i ∧ isTargetAt g.blocks i

theorem BlockGraph.MapEntries.later {g : BlockGraph} {T T' : TypeTable} {ids : List BlockId}
    {entries : List MapEntry} (he : g.MapEntries T ids entries) (hle : T ≤ T') :
    g.MapEntries T' ids entries :=
  ⟨he.framed.imp fun _ _ ⟨f, hf, hentry⟩ => ⟨f, hf, Frame.mapEntryOf?_later hle hentry⟩,
    he.ascending, he.room, he.needed⟩

theorem MapRow.ascending_of_pairwise {position : Option Nat} {rows : List MapRow}
    (hbehind : ∀ p, position = some p → ∀ r ∈ rows, p < r.position)
    (hup : rows.Pairwise fun r r' => r.position < r'.position)
    (hroom : ∀ r ∈ rows, r.position ≤ 65535) : MapRow.Ascending position rows := by
  induction rows generalizing position with
  | nil => trivial
  | cons r rows ih =>
    obtain ⟨hr, hup⟩ := List.pairwise_cons.1 hup
    refine ⟨fun p hp => hbehind p hp r List.mem_cons_self, hroom r List.mem_cons_self, ?_⟩
    refine ih ?_ hup fun r' hr' => hroom r' (List.mem_cons_of_mem _ hr')
    rintro p hp r' hr'
    exact Option.some.inj hp ▸ hr r' hr'

/-- The rows of blocks go up as the blocks do. -/
theorem BlockGraph.MapEntries.rows_ascending {g : BlockGraph} {T : TypeTable} {ids : List BlockId}
    {entries : List MapEntry} (he : g.MapEntries T ids entries) {rows : List MapRow}
    {classes : ConstantIndex → Option String}
    (hrows : List.Forall₂ (MapRow.Says classes) rows entries) : MapRow.Ascending none rows := by
  have hplaces : ids.map g.positionOf = rows.map MapRow.position := by
    have hids : ids.map g.positionOf = entries.map MapEntry.position := by
      rw [← List.forall₂_eq_eq_eq, List.forall₂_map_left_iff, List.forall₂_map_right_iff]
      exact he.framed.imp fun _ _ ⟨_, _, hentry⟩ => (Frame.mapEntryOf?_eq_some_iff.1 hentry).1
    have hread : rows.map MapRow.position = entries.map MapEntry.position := by
      rw [← List.forall₂_eq_eq_eq, List.forall₂_map_left_iff, List.forall₂_map_right_iff]
      exact hrows.imp fun _ _ hr => hr.position
    rw [hids, hread]
  have hup : (ids.map g.positionOf).Pairwise (· < ·) := List.pairwise_map.2 he.ascending
  have hroom : ∀ n ∈ ids.map g.positionOf, n ≤ 65535 := by
    intro n hn
    obtain ⟨i, hi, rfl⟩ := List.mem_map.1 hn
    exact he.room i hi
  rw [hplaces] at hup hroom
  exact MapRow.ascending_of_pairwise (fun _ hp => nomatch hp) (List.pairwise_map.1 hup)
    fun r hr => hroom _ (List.mem_map_of_mem hr)

/-! ## 2. The end of code -/

namespace CodeWriter

variable {w w' : CodeWriter} {p p' : ConstantPool} {done : List Label}

/-- The stack map of code is what its graph says. -/
structure MapWritten (w : CodeWriter) (p : ConstantPool) (previous : List MapType)
    (code : RawAttribute) (ids : List BlockId) (entries : List MapEntry) : Prop where
  blocks : w.graph.MapEntries p.types ids entries
  named : p.text? code.name = some "Code"
  written : ∃ maxStack maxLocals handlers tables map frames,
    code.payload = RawAttribute.putAll (w.head maxStack maxLocals handlers) (tables ++ map) ∧
    (∀ a ∈ tables, ∃ name, p.text? a.name = some name ∧ name ≠ "StackMapTable") ∧
    (map = [] ↔ entries = []) ∧
    ∀ a ∈ map, map = [a] ∧ p.text? a.name = some "StackMapTable" ∧
      a.payload = (Attribute.stackMapTable frames).payload ∧
      ((∀ e ∈ entries, e.Fits) → ∀ f ∈ frames, f.Fits) ∧
      ∀ p', p ≤ p' → (StackMap.decode p'.className? previous a.payload = some entries ↔
        entries.length ≤ 65535 ∧ ∀ f ∈ frames, f.Fits)

theorem MapWritten.later {previous : List MapType} {code : RawAttribute} {ids : List BlockId}
    {entries : List MapEntry} (hw : w.MapWritten p previous code ids entries) (hle : p ≤ p') :
    w.MapWritten p' previous code ids entries := by
  obtain ⟨maxStack, maxLocals, handlers, tables, map, frames, hpayload, htables, hnil, hmap⟩ :=
    hw.written
  refine ⟨hw.blocks.later hle.types, ConstantPool.text?_later hle hw.named, maxStack, maxLocals,
    handlers, tables, map, frames, hpayload, fun a ha => ?_, hnil, fun a ha => ?_⟩
  · obtain ⟨name, hname, hother⟩ := htables a ha
    exact ⟨name, ConstantPool.text?_later hle hname, hother⟩
  · obtain ⟨hsingle, hname, ha, hfits, hdecode⟩ := hmap a ha
    exact ⟨hsingle, ConstantPool.text?_later hle hname, ha, hfits, fun p'' hle' =>
      hdecode p'' (ConstantPool.le_trans hle hle')⟩

/-- **Entries that two bytes can count are read back**, from the one attribute that holds them. -/
theorem MapWritten.decode {previous : List MapType} {code : RawAttribute} {ids : List BlockId}
    {entries : List MapEntry} (hw : w.MapWritten p previous code ids entries) (hsome : entries ≠ [])
    (hcount : entries.length ≤ 65535) (hfits : ∀ e ∈ entries, e.Fits) :
    ∃ maxStack maxLocals handlers tables a,
      code.payload = RawAttribute.putAll (w.head maxStack maxLocals handlers) (tables ++ [a]) ∧
      p.text? a.name = some "StackMapTable" ∧
      ∀ p', p ≤ p' → StackMap.decode p'.className? previous a.payload = some entries := by
  obtain ⟨maxStack, maxLocals, handlers, tables, map, frames, hpayload, -, hnil, hmap⟩ := hw.written
  obtain ⟨a, ha⟩ := List.exists_mem_of_ne_nil map fun hno => hsome (hnil.1 hno)
  obtain ⟨rfl, hname, -, hframes, hdecode⟩ := hmap a ha
  exact ⟨maxStack, maxLocals, handlers, tables, a, hpayload, hname, fun p' hle =>
    (hdecode p' hle).2 ⟨hcount, hframes hfits⟩⟩

/-- **The stack map says what was inferred.** -/
theorem Tracked.finish (hw : Tracked h done w p) {context : UInt16 → MethodContext}
    (hcontext : ∀ n, (context n).hierarchy = h) {code : RawAttribute}
    (hret : Returns (finish context w) p (code, w') p') :
    p'.Sound h ∧ p ≤ p' ∧ ∃ n previous ids entries,
      implicitLocals? (context n).className (context n).access (context n).name
        (context n).descriptor = some previous ∧
      w'.MapWritten p' previous code ids entries ∧
      (h.Rooted ∨ BlockGraph.Finished w'.graph.blocks → ∀ i, BlockGraph.Reaches w'.graph.blocks i →
        BlockGraph.isTargetAt w'.graph.blocks i → i ∈ ids) := by
  obtain ⟨hcheck, maxStack, frames, handlers, lineEntries, localEntries, lines, locals, map, p₁, p₂, p₃,
    p₄, hanalyse, hhandlers, -, -, hlines, hlocals, hmap, hname, hpayload⟩ := returns_finish hret
  obtain ⟨entry, g, T, hinfer, rfl, hrows⟩ := returns_analyse_frames hw.wellBuilt.mode hanalyse
  generalize max w.usedLocals w.givenLocals = n at hinfer hpayload
  obtain ⟨hplaced, hsize⟩ := named_placed_of_check hcheck hhandlers
  have hT : p.types.Sound (context n).hierarchy := hcontext n ▸ hw.sound.types
  obtain ⟨hmarks, hup, hneeded, hall⟩ := hw.charted.infer_marks hT hw.wellBuilt hplaced hinfer
  obtain ⟨hsT, hleT, g₁, T₁, f, slots, T₂, s, -, -, hslots, hsT₁, hleT₂, -, -, hentry⟩ :=
    hw.wellBuilt.infer_returns hT hinfer
  obtain ⟨hs₀, hle₀⟩ := hw.sound.withTypes (hcontext n ▸ hsT) hleT
  obtain ⟨hs₁, hle₁, ps, previous, rows, entries, hprevious, hps, hframes, hspelled, hentries⟩ :=
    BlockGraph.stackMap_rows hs₀ hrows
  obtain ⟨hs₂, hle₂, -, hlinesnamed⟩ := table_names hs₁ hlines
  obtain ⟨hs₃, hle₃, -, hlocalsnamed⟩ := table_names hs₂ hlocals
  obtain ⟨hs₄, hle₄, hmapnil, hmapnamed⟩ := table_names hs₃ hmap
  obtain ⟨hs', hle₅, hcode⟩ := hs₄.utf8 hname
  have hle₁' : p₁ ≤ p' := ConstantPool.le_trans hle₂ (ConstantPool.le_trans hle₃
    (ConstantPool.le_trans hle₄ hle₅))
  have himplicit := says_implicitLocals hsT₁ hslots f (TypeTable.le_trans hleT₂ hle₁.types)
  have hblocks : g.MapEntries p₁.types g.markedBlocks entries := by
    refine ⟨?_, hup, fun i hi => Nat.le_trans (hneeded i hi).1 hsize, fun i hi => (hneeded i hi).2⟩
    refine (forall₂_comp hmarks hentries).imp ?_
    rintro i e ⟨r, ⟨hposition, hf⟩, he⟩
    exact ⟨r.2, hf, hposition ▸ he⟩
  refine ⟨hs', ConstantPool.le_trans hle₀ (ConstantPool.le_trans hle₁ hle₁'), n, previous,
    g.markedBlocks, entries, ?_, ⟨hblocks.later hle₁'.types, hcode, ?_⟩, ?_⟩
  · rw [← himplicit, ← hprevious]
    exact congrArg _ hentry.symm
  · refine ⟨_, _, _, _, map, frames, hpayload, ?_, ?_, fun a ha => ?_⟩
    · intro a ha
      have hle₄' := ConstantPool.le_trans hle₄ hle₅
      rcases List.mem_append.1 ha with ha | ha
      · have hname := ConstantPool.text?_later (ConstantPool.le_trans hle₃ hle₄') (hlinesnamed a ha).1
        exact ⟨"LineNumberTable", hname, by decide⟩
      · have hname := ConstantPool.text?_later hle₄' (hlocalsnamed a ha).1
        exact ⟨"LocalVariableTable", hname, by decide⟩
    · have hlength := hspelled.length_eq
      rw [hmapnil, hframes, ← List.length_eq_zero_iff, StackMap.length_relative, hlength,
        List.length_eq_zero_iff]
    · obtain ⟨htext, hsingle, ha⟩ := hmapnamed a ha
      refine ⟨hsingle, ConstantPool.text?_later hle₅ htext, ha, fun hfits => ?_, fun p'' hle'' => ?_⟩
      · rw [hframes]
        exact StackMap.fits_relative hspelled hfits _ _
      · have hle := ConstantPool.le_trans hle₁' hle''
        rw [ha, hframes]
        exact StackMap.decode_relative_iff (hps.later hle) (hspelled.imp fun _ _ hr => hr.later hle)
          (hblocks.rows_ascending hspelled)
  · exact fun hr => hall (hcontext n ▸ hr)

end CodeWriter

/-! ## 3. Methods -/

/-- **The stack map of a method says exactly what was inferred**, in a class that is being written.  The
events of the method end with its end, each label is placed once, and no debug label is used.

The attribute of the code comes first.  Its stack map has an entry for each block that control gets to
and that something leads to; there is none just if there are no such blocks.  With the pool of the class
file, the entries are read back from it, starting with the locals that the descriptor gives, just if all
of its counts fit two bytes. -/
theorem ClassWriter.Run.stackMap_of_method {options : WriterOptions} {w w₁ : ClassWriter}
    {p p₁ p' : ConstantPool} {m m' : MethodWriter} {info : MethodInfo} {body : List MethodEvent}
    (hrun : Run options w p) (hmode : w.context.mode = .frames)
    (hstart : Returns (w.startMethod info) p (m, w₁) p₁)
    (hcode : .code ∈ body) (hopen : .finish ∉ body)
    (hplaced : (body.filterMap MethodEvent.placed?).Nodup)
    (hused : ∀ e ∈ body, ∀ l ∈ e.used, l.debug = false)
    (hret : Returns (m.events w₁.context (body ++ [.finish])) p₁ m' p') :
    (∀ (es : List ClassEvent) b p'', (∀ e ∈ es, e.Closed) →
      Returns (do (← es.foldlM ClassWriter.event (w₁.endMethod m')).bytes) p' b p'' → p' ≤ p'') ∧
    ∃ code others previous ids entries,
      m'.table = w.methods.add info.access m.header.name m.header.descriptor (code :: others) ∧
      implicitLocals? w.header.name info.access info.name info.descriptor = some previous ∧
      m'.code.MapWritten p' previous code ids entries ∧
      (options.hierarchy.Rooted ∨ BlockGraph.Finished m'.code.graph.blocks →
        ∀ i, BlockGraph.Reaches m'.code.graph.blocks i →
          BlockGraph.isTargetAt m'.code.graph.blocks i → i ∈ ids) := by
  obtain ⟨hp, rfl⟩ := hrun.sound
  obtain ⟨hstart', rfl⟩ := ClassWriter.returns_startMethod.1 hstart
  obtain ⟨slots, hm, hinfo, htable⟩ := MethodWriter.returns_start hstart'
  obtain ⟨hs₁, -⟩ := MethodWriter.leads_start _ _ _ _ _ _ hstart' hp
  have htracked : CodeWriter.Tracked w.options.hierarchy [] m.code p₁ := by
    rw [hm, show w.header.mode w.options = .frames from hmode]
    exact CodeWriter.tracked_start hs₁ slots
  obtain ⟨m₂, p₂, hevents, hfinish⟩ := MethodWriter.returns_events_append.1 hret
  obtain ⟨htracked₂, -⟩ := MethodWriter.tracked_events htracked hopen hplaced
    (fun _ _ => List.not_mem_nil) hused hevents
  obtain ⟨hheader, htable₂, hhas⟩ := MethodWriter.header_events hopen hevents
  obtain ⟨m₃, p₃, hend, hnil⟩ := MethodWriter.returns_events_cons.1 hfinish
  obtain ⟨rfl, rfl⟩ := returns_pure.1 hnil
  obtain ⟨attributes, others, p₄, hcodeAttribute, htable₃, hrest⟩ :=
    MethodWriter.returns_finish (h := w.options.hierarchy) hend
  rcases MethodWriter.returns_codeAttribute hcodeAttribute with ⟨-, code, rfl, hcodeFinish⟩ | ⟨hno, -⟩
  · obtain ⟨hs₄, -, n, previous, ids, entries, hprevious, hwritten, hall⟩ :=
      htracked₂.finish (fun _ => rfl) hcodeFinish
    obtain ⟨hs', hle⟩ := hrest hs₄
    rw [hheader] at hprevious htable₃
    rw [hinfo] at hprevious htable₃
    refine ⟨fun es b p'' hes hclass => ?_, code, others, previous, ids, entries, ?_, hprevious,
      hwritten.later hle, hall⟩
    · exact (ClassWriter.later_class (w := { w with methods := m₃.table }) hs' hes hclass).2
    rw [htable₃, htable₂, htable]
    rfl
  · rw [hhas.2 (.inr hcode)] at hno
    exact nomatch hno

/-- Something leads to one block only, when what is caught is thrown again. -/
theorem eq_of_isTargetAt_rethrown {t : SlotType} {i : BlockId}
    (hi : BlockGraph.isTargetAt (rethrownSettled t) i) : i = 4 := by
  obtain ⟨b, hb, htarget⟩ := hi
  match i, hb with
  | 0, hb | 1, hb | 2, hb | 3, hb | 5, hb =>
    cases hb
    exact nomatch htarget
  | 4, _ => rfl

/-- Control gets to it. -/
theorem reaches_rethrown (t : SlotType) : BlockGraph.Reaches (rethrownSettled t) 4 :=
  .edge (e := ⟨.caught t, 4⟩) .entry (List.mem_cons_of_mem _ List.mem_cons_self)

/-- A handler that throws again what it catches is the one block that the stack map has an entry for. -/
theorem ClassWriter.Run.stackMap_of_method_rethrown : ∃ name descriptor p m' p',
    Returns ((ClassWriter.start ⟨.frames, .empty⟩).startMethod staticInfo) .empty
      (staticWriter name descriptor false (.start .frames 0), ClassWriter.start ⟨.frames, .empty⟩) p ∧
    Returns (MethodWriter.events (ClassWriter.start ⟨.frames, .empty⟩).context
      (staticWriter name descriptor false (.start .frames 0)) (rethrownBody ++ [.finish])) p m' p' ∧
    ∃ code others, m'.table = MemberTable.empty.add 8 name descriptor (code :: others) ∧
      m'.code.MapWritten p' [] code [4] [⟨3, [], [.object "java/lang/Throwable"]⟩] := by
  obtain ⟨name, descriptor, p, labels, a, i, m', p', hstart, hret, hcode, hi⟩ := written_rethrown
  have hopen : .finish ∉ rethrownBody := by simp [rethrownBody]
  obtain ⟨-, code, others, previous, ids, entries, htable, hprevious, hwritten, hall⟩ :=
    ClassWriter.Run.stackMap_of_method .fresh rfl hstart List.mem_cons_self hopen (by decide)
      used_rethrown hret
  have hentry : implicitLocals? "" 8 "m" "()V" = some [] := by decide +kernel
  obtain rfl : previous = [] := Option.some.inj (hprevious.symm.trans hentry)
  have hgraph : m'.code.graph = rethrownInferred labels i := congrArg CodeWriter.graph hcode
  have hblocks := hwritten.blocks
  rw [hgraph] at hblocks hall
  have hhandler : 4 ∈ ids :=
    hall (.inl Hierarchy.rooted_empty) 4 (reaches_rethrown _) ⟨_, rfl, rfl⟩
  have hnodup : ids.Nodup := hblocks.ascending.imp fun {j k} hlt (heq : j = k) =>
    Nat.lt_irrefl _ (heq ▸ hlt)
  have hids : ids = [4] := by
    refine List.Perm.eq_singleton ((List.perm_ext_iff_of_nodup hnodup (List.nodup_singleton 4)).2 fun j => ?_)
    rw [List.mem_singleton]
    refine ⟨fun hj => eq_of_isTargetAt_rethrown (hblocks.needed j hj).2, ?_⟩
    rintro rfl
    exact hhandler
  subst hids
  obtain ⟨e, rest, ⟨f, hf, he⟩, hnil, rfl⟩ := List.forall₂_cons_left_iff.1 hblocks.framed
  cases hnil
  have hcaught : (caughtFrame (.scalar (.object i))).mapEntryOf? p'.types 3 =
      some ⟨3, [], [.object "java/lang/Throwable"]⟩ := by
    refine Frame.mapEntryOf?_eq_some_iff.2 ⟨rfl, rfl, ?_⟩
    refine mapM_eq_some_iff.2 (.cons ?_ .nil)
    show (p'.types.entries[i]?).bind _ = _
    rw [hi]
    rfl
  cases hf
  obtain rfl : e = _ := Option.some.inj (he.symm.trans hcaught)
  exact ⟨name, descriptor, p, m', p', hstart, hret, code, others, htable, hwritten⟩

end ClassFile
