/-
# Graphs that are drawn from code

While the events of a method come in, a `Sketch` says for each instruction in which block it stands and
how high the stack is in front of it, above the height on entry of the block.  A graph is `Drawn` from a
routine if its blocks, its edges and this sketch say the same as the instructions and labels do.

Heights in a sketch do not go round.  Those in a graph have 32 bits where only heights are recorded, so
they are the same as in the sketch up to that (`HeightIs`, `Leaves`), and the greatest height in a block
(`Peaks`) is right if 32 bits hold all heights in the block (`Calm`).

Nothing here depends on whether the graph has frames.  The graph may go on in four ways: an instruction
(`Moves`), a block that starts (`Starts`), a label that is placed there (`LabelAt`), and labels that are only
mentioned (`Mentions`).  Each of them keeps what is drawn.
-/
import ClassFile.Proofs.BlockGraph.Chain
import ClassFile.Proofs.BlockGraph.Explore
import ClassFile.Proofs.BlockGraph.Search
import ClassFile.Proofs.Frame.Height

namespace ClassFile

/-- For each instruction the block in which it stands and the height in front of it; for each
instruction and for the end of the code the offset. -/
structure Sketch where
  rows : List (Option (BlockId × Int))
  offsets : List Nat

/-- The sketch of no code. -/
def Sketch.empty : Sketch := ⟨[], [0]⟩

/-- The sketch with one more instruction. -/
def Sketch.add (s : Sketch) (row : Option (BlockId × Int)) (stop : Nat) : Sketch :=
  ⟨s.rows ++ [row], s.offsets ++ [stop]⟩

/-- Control gets along an edge by a jump or by falling through. -/
def Edge.Onward (e : Edge) : Prop :=
  e.kind = .normal ∨ ∃ above, e.kind = .atHeight above

namespace BlockGraph

variable {r r' : Routine} {s s' : Sketch} {g g' g'' : BlockGraph} {i j : BlockId} {k : Nat} {a : Int}
  {e : Edge} {V : BlockId → Prop}

/-! ## 1. Views of graphs -/

/-- The stack is so high above its height on entry of the current block. -/
def HeightIs (g : BlockGraph) (a : Int) : Prop :=
  match g.mode with
  | .maxStack => g.height = .ofInt a
  | .frames => ((g.current.bind (frameAt g.blocks)).map Frame.net).getD 0 = a

/-- The greatest height in a block above that on entry. -/
def peakOf (g : BlockGraph) (i : BlockId) : Int :=
  match g.mode with
  | .maxStack => (if g.current = some i then g.peak else peakAt g.blocks i).toInt
  | .frames => ((frameAt g.blocks i).map fun f => (f.peak : Int)).getD 0

/-- An edge leaves a block with the stack so high above its height on entry, unless it is thrown. -/
def Leaves (g : BlockGraph) (i : BlockId) (e : Edge) (a : Int) : Prop :=
  match e.kind with
  | .atHeight above => above = .ofInt a
  | .normal => (frameAt g.blocks i).map Frame.net = some a
  | _ => False

/-- Is the position of a block known? -/
def IsPlaced (g : BlockGraph) (i : BlockId) : Prop :=
  ∃ b, g.blocks[i]? = some b ∧ b.isPlaced = true

theorem IsPlaced.lt (hi : g.IsPlaced i) : i < g.blocks.size :=
  have ⟨_, hb, _⟩ := hi
  (Array.getElem?_eq_some_iff.1 hb).1

/-- A block that begins in front of an instruction. -/
structure Begins (s : Sketch) (g : BlockGraph) (i : BlockId) (k : Nat) : Prop where
  placed : g.IsPlaced i
  offset : s.offsets[k]? = some (g.positionOf i)

/-- Control gets from the beginning of a block to an instruction, with this height above that on
entry. -/
inductive Gets (r : Routine) (s : Sketch) (g : BlockGraph) (i : BlockId) : Int → Nat → Prop
  | start {k : Nat} (hk : Begins s g i k) : Gets r s g i 0 k
  | next {k : Nat} {a : Int} {o : Instruction Label} {u : StackUse}
      (hk : s.rows[k]? = some (some (i, a))) (ho : r.code[k]? = some o) (hu : o.stackUse? = some u)
      (hfalls : o.fallsThrough = true) : Gets r s g i (a + u.net) (k + 1)

/-- Blocks among which are all that edges and aliases lead to. -/
structure Closed (g : BlockGraph) (V : BlockId → Prop) : Prop where
  edge : ∀ i, V i → ∀ e ∈ edgesAt g.blocks i, V e.successor
  sameAs : ∀ i j, V i → aliasAt g.blocks i = some j → V j

/-- The block of an instruction is among these; behind all instructions, the current one is. -/
def Stands (s : Sketch) (g : BlockGraph) (V : BlockId → Prop) (k : Nat) : Prop :=
  (∃ i a, s.rows[k]? = some (some (i, a)) ∧ V i) ∨ k = s.rows.length ∧ ∃ i, g.current = some i ∧ V i

/-- 32 bits hold all heights in a block above that on entry. -/
def Calm (r : Routine) (s : Sketch) (i : BlockId) : Prop :=
  ∀ (k : Nat) a (o : Instruction Label) (u : StackUse), s.rows[k]? = some (some (i, a)) →
    r.code[k]? = some o → o.stackUse? = some u → u.Within a

/-- So high, above its height on entry, is the stack nowhere in a block. -/
def Bounds (r : Routine) (s : Sketch) (i : BlockId) (n : Int) : Prop :=
  0 ≤ n ∧ ∀ (k : Nat) a (o : Instruction Label) (u : StackUse), s.rows[k]? = some (some (i, a)) →
    r.code[k]? = some o → o.stackUse? = some u → a ≤ n ∧ a + u.net ≤ n

/-- The greatest height in a block is the least bound of all. -/
structure Peaks (r : Routine) (s : Sketch) (g : BlockGraph) (i : BlockId) : Prop where
  bounds : Bounds r s i (g.peakOf i)
  least : ∀ n, Bounds r s i n → g.peakOf i ≤ n

/-! ## 2. What is drawn -/

/-- With this height above that on entry of a block, an edge goes on to the block behind, or is that of
a jump. -/
def Passes (r : Routine) (s : Sketch) (g : BlockGraph) (i : BlockId) (e : Edge) (a : Int) : Prop :=
  (∃ k, Gets r s g i a k ∧ Begins s g e.successor k) ∨
  ∃ (k : Nat) (b : Int) (o : Instruction Label) (u : StackUse) (l : Label),
    s.rows[k]? = some (some (i, b)) ∧ r.code[k]? = some o ∧ o.stackUse? = some u ∧
    l ∈ o.targets ∧ g.labels.get? l = some e.successor ∧ a = b + u.net

/-- **A graph as it is drawn from a routine.** -/
structure Drawn (r : Routine) (s : Sketch) (g : BlockGraph) : Prop where
  rows_length : s.rows.length = r.code.length
  offsets_length : s.offsets.length = r.code.length + 1
  ascending : s.offsets.Pairwise (· < ·)
  entry : Begins s g 0 0
  /-- Blocks hold instructions that follow each other. -/
  row : ∀ (k : Nat) i a, s.rows[k]? = some (some (i, a)) → g.IsPlaced i ∧ Gets r s g i a k
  now : ∀ i, g.current = some i → g.IsPlaced i ∧ ∃ a, g.HeightIs a ∧ Gets r s g i a r.code.length
  label : ∀ l k, (l, k) ∈ r.places → ∃ i, g.labels.get? l = some i ∧ Begins s g i k
  /-- Each edge has a reason. -/
  edge : ∀ i e, e ∈ edgesAt g.blocks i → e.Onward → ∃ a, g.Leaves i e a ∧ Passes r s g i e a
  /-- Each jump has an edge. -/
  sends : ∀ (k : Nat) i a (o : Instruction Label), s.rows[k]? = some (some (i, a)) →
    r.code[k]? = some o → ∀ l ∈ o.targets, ∃ e ∈ edgesAt g.blocks i, g.labels.get? l = some e.successor
  /-- Control that comes to a place stands in a block. -/
  entryStands : ∀ V, g.Closed V → V 0 → Stands s g V 0
  labelStands : ∀ V, g.Closed V → ∀ l k i, (l, k) ∈ r.places → g.labels.get? l = some i → V i →
    Stands s g V k
  nextStands : ∀ V, g.Closed V → ∀ (k : Nat) i a (o : Instruction Label),
    s.rows[k]? = some (some (i, a)) → r.code[k]? = some o → o.fallsThrough = true → V i →
      Stands s g V (k + 1)
  peaks : ∀ i, g.IsPlaced i → Calm r s i → Peaks r s g i

theorem Drawn.offset_lt (hd : Drawn r s g) {m n p q : Nat} (hmn : m < n)
    (hp : s.offsets[m]? = some p) (hq : s.offsets[n]? = some q) : p < q := by
  obtain ⟨hm, rfl⟩ := List.getElem?_eq_some_iff.1 hp
  obtain ⟨hn, rfl⟩ := List.getElem?_eq_some_iff.1 hq
  exact List.pairwise_iff_getElem.1 hd.ascending m n hm hn hmn

theorem begins_start (mode : ComputeMode) : Begins .empty (start mode) 0 0 :=
  ⟨⟨_, rfl, rfl⟩, rfl⟩

/-- The graph of no code. -/
theorem drawn_start (mode : ComputeMode) : Drawn .empty .empty (start mode) where
  rows_length := rfl
  offsets_length := rfl
  ascending := List.pairwise_singleton _ _
  entry := begins_start mode
  row k i a hk := nomatch hk
  now i hi := by
    obtain rfl : i = 0 := (Option.some.inj hi).symm
    have hbegins := begins_start mode
    have hzero : (start mode).HeightIs 0 := by cases mode <;> rfl
    exact ⟨hbegins.placed, 0, hzero, .start hbegins⟩
  label l k hl := absurd hl List.not_mem_nil
  edge i e he := by
    rcases i with _ | i <;> exact absurd he List.not_mem_nil
  sends k i a o hk := nomatch hk
  entryStands V _ h0 := .inr ⟨rfl, 0, rfl, h0⟩
  labelStands V _ l k i hl := absurd hl List.not_mem_nil
  nextStands V _ k i a o hk := nomatch hk
  peaks i hi _ := by
    obtain rfl : i = 0 := Nat.lt_one_iff.1 hi.lt
    have hzero : (start mode).peakOf 0 = 0 := by cases mode <;> rfl
    refine ⟨?_, fun n hn => ?_⟩
    · rw [hzero]
      exact ⟨le_rfl, fun k a o u hk => nomatch hk⟩
    · rw [hzero]
      exact hn.1

/-- What never goes away when a graph grows. -/
structure Extends (g g' : BlockGraph) : Prop where
  labels : ∀ l i, g.labels.get? l = some i → g'.labels.get? l = some i
  placed : ∀ i, g.IsPlaced i → g'.IsPlaced i ∧ g'.positionOf i = g.positionOf i
  edges : ∀ i, edgesAt g.blocks i ⊆ edgesAt g'.blocks i
  sameAs : ∀ i j, aliasAt g.blocks i = some j → aliasAt g'.blocks i = some j

theorem Extends.refl (g : BlockGraph) : Extends g g :=
  ⟨fun _ _ => id, fun _ h => ⟨h, rfl⟩, fun _ => List.Subset.refl _, fun _ _ => id⟩

theorem Extends.trans (h : Extends g g') (h' : Extends g' g'') : Extends g g'' where
  labels l i hl := h'.labels l i (h.labels l i hl)
  placed i hi :=
    have ⟨hi', hp⟩ := h.placed i hi
    have ⟨hi'', hp'⟩ := h'.placed i hi'
    ⟨hi'', hp'.trans hp⟩
  edges i := List.Subset.trans (h.edges i) (h'.edges i)
  sameAs i j hj := h'.sameAs i j (h.sameAs i j hj)

theorem Extends.closed (h : Extends g g') (hV : g'.Closed V) : g.Closed V :=
  ⟨fun i hi e he => hV.edge i hi e (h.edges i he), fun i j hi hj => hV.sameAs i j hi (h.sameAs i j hj)⟩

/-! ## 3. Going on -/

theorem getElem?_extended {α : Type} {l l' : List α} {x : α} (h : l <+: l')
    (hk : l[k]? = some x) : l'[k]? = some x := by
  obtain ⟨t, rfl⟩ := h
  rw [List.getElem?_append_left (List.getElem?_eq_some_iff.1 hk).1, hk]

theorem getElem?_concat_eq_some_iff {α : Type} {l : List α} {x y : α} :
    (l ++ [x])[k]? = some y ↔ l[k]? = some y ∨ k = l.length ∧ y = x := by
  rw [List.getElem?_append]
  constructor
  · intro h
    split at h
    · exact .inl h
    · obtain ⟨hlt, rfl⟩ := List.getElem?_eq_some_iff.1 h
      rw [List.length_singleton] at hlt
      exact .inr ⟨by omega, by simp⟩
  · rintro (h | ⟨rfl, rfl⟩)
    · rwa [if_pos (List.getElem?_eq_some_iff.1 h).1]
    · simp

theorem Begins.mono (hb : Begins s g i k) (h : Extends g g') (hs : s.offsets <+: s'.offsets) :
    Begins s' g' i k := by
  obtain ⟨hplaced, hposition⟩ := h.placed i hb.placed
  exact ⟨hplaced, by rw [hposition]; exact getElem?_extended hs hb.offset⟩

theorem Gets.mono (hg : Gets r s g i a k) (h : Extends g g') (hcode : r.code <+: r'.code)
    (hrows : s.rows <+: s'.rows) (hoffsets : s.offsets <+: s'.offsets) : Gets r' s' g' i a k := by
  cases hg with
  | start hk => exact .start (hk.mono h hoffsets)
  | next hk ho hu hfalls =>
    exact .next (getElem?_extended hrows hk) (getElem?_extended hcode ho) hu hfalls

theorem Passes.mono (hp : Passes r s g i e a) (h : Extends g g') (hcode : r.code <+: r'.code)
    (hrows : s.rows <+: s'.rows) (hoffsets : s.offsets <+: s'.offsets) : Passes r' s' g' i e a := by
  rcases hp with ⟨k, hgets, hbegins⟩ | ⟨k, b, o, u, l, hk, ho, hu, hl, hget, ha⟩
  · exact .inl ⟨k, hgets.mono h hcode hrows hoffsets, hbegins.mono h hoffsets⟩
  · exact .inr ⟨k, b, o, u, l, getElem?_extended hrows hk, getElem?_extended hcode ho, hu, hl,
      h.labels l _ hget, ha⟩

/-- Heights that are held behind all code are held in front of the rest. -/
theorem Calm.of_extended (hc : Calm r' s' i) (hcode : r.code <+: r'.code)
    (hrows : s.rows <+: s'.rows) : Calm r s i := fun k a o u hk ho hu =>
  hc k a o u (getElem?_extended hrows hk) (getElem?_extended hcode ho) hu

/-- The stack is not higher at the end of what is known of a block than it has been. -/
theorem Gets.le_bound {n : Int} (hn : Bounds r s i n) (hg : Gets r s g i a k) : a ≤ n := by
  cases hg with
  | start _ => exact hn.1
  | next hk ho hu _ => exact (hn.2 _ _ _ _ hk ho hu).2

theorem Drawn.sends_mono (hd : Drawn r s g) (h : Extends g g') {o : Instruction Label}
    (hk : s.rows[k]? = some (some (i, a))) (ho : r.code[k]? = some o) {l : Label}
    (hl : l ∈ o.targets) : ∃ e ∈ edgesAt g'.blocks i, g'.labels.get? l = some e.successor :=
  have ⟨e, he, hget⟩ := hd.sends k i a o hk ho l hl
  ⟨e, h.edges i he, h.labels l _ hget⟩

/-- The block of a placed label stays the same. -/
theorem Drawn.label_eq (hd : Drawn r s g) (h : Extends g g') {l : Label} (hl : (l, k) ∈ r.places)
    (hget : g'.labels.get? l = some i) : g.labels.get? l = some i := by
  obtain ⟨i', hi', -⟩ := hd.label l k hl
  rw [hi', ← h.labels l i' hi', hget]

/-- **An instruction** that ends at an offset: its jumps become edges from the current block; then the
block goes on, or another one does, to which an edge leads. -/
structure Moves (g g' : BlockGraph) (o : Instruction Label) (u : StackUse) (stop : Nat) : Prop where
  keeps : Extends g g'
  sends : ∀ i, g.current = some i → ∀ l ∈ o.targets,
    ∃ e ∈ edgesAt g'.blocks i, g'.labels.get? l = some e.successor
  sent : ∀ i e, e ∈ edgesAt g'.blocks i → e.Onward →
    e ∈ edgesAt g.blocks i ∧ (∀ a, g.Leaves i e a → g'.Leaves i e a) ∨
    g.current = some i ∧ (∀ a, g.HeightIs a → g'.Leaves i e (a + u.net)) ∧
      ((∃ l ∈ o.targets, g'.labels.get? l = some e.successor) ∨
        o.fallsThrough = true ∧ g'.IsPlaced e.successor ∧ g'.positionOf e.successor = stop)
  goes : ∀ i, g.current = some i → o.fallsThrough = true → ∃ j, g'.current = some j ∧
    ((j = i ∧ ∀ a, g.HeightIs a → g'.HeightIs (a + u.net)) ∨
      g'.IsPlaced j ∧ g'.positionOf j = stop ∧ g'.HeightIs 0 ∧ ∀ V, g'.Closed V → V i → V j)
  stops : ∀ j, g'.current = some j → ∃ i, g.current = some i ∧ o.fallsThrough = true
  fresh : ∀ j, g'.IsPlaced j → g.IsPlaced j ∨ g'.peakOf j = 0
  others : ∀ i, g.IsPlaced i → g.current ≠ some i → g'.peakOf i = g.peakOf i
  peak : ∀ i a, g.current = some i → g.HeightIs a → a ≤ g.peakOf i → u.Within a →
    g'.peakOf i = max (g.peakOf i) (a + u.net)

/-- An instruction that control does not get to changes nothing. -/
theorem moves_unreached (hc : g.current = none) (o : Instruction Label) (u : StackUse) (stop : Nat) :
    Moves g g o u stop := by
  have hidle : ∀ {P : Prop} (i), g.current = some i → P := fun i hi => nomatch hc.symm.trans hi
  exact ⟨.refl g, fun i hi => hidle i hi, fun i e he _ => .inl ⟨he, fun _ ha => ha⟩,
    fun i hi => hidle i hi, fun j hj => hidle j hj, fun j hj => .inl hj, fun _ _ _ => rfl,
    fun i _ hi => hidle i hi⟩

/-- Where the next instruction stands, and how high the stack is in front of it. -/
structure RowNow (r : Routine) (s : Sketch) (g : BlockGraph) (row : Option (BlockId × Int)) : Prop where
  block : row.map Prod.fst = g.current
  height : ∀ i a, row = some (i, a) → g.HeightIs a ∧ Gets r s g i a r.code.length

section RowNow

variable {row : Option (BlockId × Int)}

theorem Drawn.exists_rowNow (hd : Drawn r s g) : ∃ row, RowNow r s g row := by
  cases hcurrent : g.current with
  | none => exact ⟨none, hcurrent.symm, nofun⟩
  | some i =>
    obtain ⟨-, a, hheight, hgets⟩ := hd.now i hcurrent
    refine ⟨some (i, a), hcurrent.symm, fun j b heq => ?_⟩
    cases heq
    exact ⟨hheight, hgets⟩

theorem RowNow.current (h : RowNow r s g row) (hrow : row = some (i, a)) : g.current = some i := by
  rw [← h.block, hrow]
  rfl

theorem RowNow.exists_height (h : RowNow r s g row) (hi : g.current = some i) :
    ∃ a, row = some (i, a) := by
  obtain ⟨⟨j, a⟩, hrow, rfl⟩ := Option.map_eq_some_iff.1 (h.block.trans hi)
  exact ⟨a, hrow⟩

variable (hd : Drawn r s g) (h : RowNow r s g row) {o : Instruction Label} {u : StackUse} {stop : Nat}

include hd

/-- An instruction of the new routine is an old one or the new one, behind all others. -/
theorem Drawn.row_added {o' : Instruction Label} (hk : (s.add row stop).rows[k]? = some (some (i, a)))
    (ho : (r.event (.instruction o)).code[k]? = some o') :
    s.rows[k]? = some (some (i, a)) ∧ r.code[k]? = some o' ∨
      k = r.code.length ∧ row = some (i, a) ∧ o' = o := by
  rcases getElem?_concat_eq_some_iff.1 hk with hk | ⟨rfl, hnew⟩
  · refine .inl ⟨hk, ?_⟩
    rcases getElem?_concat_eq_some_iff.1 ho with ho | ⟨rfl, -⟩
    · exact ho
    · have hlt := (List.getElem?_eq_some_iff.1 hk).1
      rw [hd.rows_length] at hlt
      exact absurd hlt (Nat.lt_irrefl _)
  · rw [hd.rows_length] at ho ⊢
    have hat : (r.event (.instruction o)).code[r.code.length]? = some o :=
      getElem?_concat_eq_some_iff.2 (.inr ⟨rfl, rfl⟩)
    exact .inr ⟨rfl, hnew.symm, (Option.some.inj (hat.symm.trans ho)).symm⟩

include h

/-- **The greatest heights** behind an instruction. -/
theorem Drawn.peaks_added (hu : o.stackUse? = some u) (hm : Moves g g' o u stop)
    (hi : g'.IsPlaced i) (hcalm : Calm (r.event (.instruction o)) (s.add row stop) i) :
    Peaks (r.event (.instruction o)) (s.add row stop) g' i := by
  have hcode : r.code <+: (r.event (.instruction o)).code := List.prefix_append _ _
  have hrows : s.rows <+: (s.add row stop).rows := List.prefix_append _ _
  have hcalm' : Calm r s i := hcalm.of_extended hcode hrows
  have hrest : ∀ {n}, Bounds (r.event (.instruction o)) (s.add row stop) i n → Bounds r s i n :=
    fun hn => ⟨hn.1, fun k a o' u' hk ho hu' =>
      hn.2 k a o' u' (getElem?_extended hrows hk) (getElem?_extended hcode ho) hu'⟩
  -- where the new instruction does not stand, nothing changes
  have hsame : g.current ≠ some i → ∀ {n}, Bounds r s i n →
      Bounds (r.event (.instruction o)) (s.add row stop) i n := by
    refine fun hne n hn => ⟨hn.1, fun k a o' u' hk ho hu' => ?_⟩
    rcases hd.row_added hk ho with ⟨hk, ho⟩ | ⟨-, hrow, -⟩
    · exact hn.2 k a o' u' hk ho hu'
    · exact absurd (h.current hrow) hne
  by_cases hplaced : g.IsPlaced i
  · obtain ⟨hbounds, hleast⟩ := hd.peaks i hplaced hcalm'
    by_cases hcurrent : g.current = some i
    · obtain ⟨a, hrow⟩ := h.exists_height hcurrent
      obtain ⟨hheight, hgets⟩ := h.height i a hrow
      have hnew : (s.add row stop).rows[r.code.length]? = some (some (i, a)) :=
        getElem?_concat_eq_some_iff.2 (.inr ⟨hd.rows_length.symm, hrow.symm⟩)
      have hat : (r.event (.instruction o)).code[r.code.length]? = some o :=
        getElem?_concat_eq_some_iff.2 (.inr ⟨rfl, rfl⟩)
      have hle : a ≤ g.peakOf i := hgets.le_bound hbounds
      have hpeak := hm.peak i a hcurrent hheight hle (hcalm _ _ _ _ hnew hat hu)
      refine ⟨⟨?_, fun k b o' u' hk ho hu' => ?_⟩, fun n hn => ?_⟩
      · exact hpeak ▸ hbounds.1.trans (le_max_left _ _)
      · rw [hpeak]
        rcases hd.row_added hk ho with ⟨hk, ho⟩ | ⟨rfl, hrow', rfl⟩
        · obtain ⟨hbefore, hbehind⟩ := hbounds.2 k b o' u' hk ho hu'
          exact ⟨hbefore.trans (le_max_left _ _), hbehind.trans (le_max_left _ _)⟩
        · cases hrow.symm.trans hrow'
          cases hu.symm.trans hu'
          exact ⟨hle.trans (le_max_left _ _), le_max_right _ _⟩
      · rw [hpeak]
        exact max_le (hleast n (hrest hn)) (hn.2 _ _ _ _ hnew hat hu).2
    · have hpeak := hm.others i hplaced hcurrent
      exact ⟨hpeak ▸ hsame hcurrent hbounds, fun n hn => hpeak ▸ hleast n (hrest hn)⟩
  · have hpeak := (hm.fresh i hi).resolve_left hplaced
    refine ⟨?_, fun n hn => hpeak ▸ hn.1⟩
    rw [hpeak]
    refine hsame (fun hcurrent => hplaced (hd.now i hcurrent).1) ⟨le_rfl, fun k a o' u' hk => ?_⟩
    exact absurd (hd.row k i a hk).1 hplaced

theorem Drawn.instruction (hu : o.stackUse? = some u) (hstop : ∀ x ∈ s.offsets, x < stop)
    (hm : Moves g g' o u stop) : Drawn (r.event (.instruction o)) (s.add row stop) g' := by
  have hext := hm.keeps
  have hcode : r.code <+: (r.event (.instruction o)).code := List.prefix_append _ _
  have hrows : s.rows <+: (s.add row stop).rows := List.prefix_append _ _
  have hoffsets : s.offsets <+: (s.add row stop).offsets := List.prefix_append _ _
  have hlength : (s.add row stop).rows.length = r.code.length + 1 := by
    rw [Sketch.add, List.length_append, List.length_singleton, hd.rows_length]
  have hat : (r.event (.instruction o)).code[r.code.length]? = some o :=
    getElem?_concat_eq_some_iff.2 (.inr ⟨rfl, rfl⟩)
  have hnow : ∀ i, g.current = some i → ∃ a, g.HeightIs a ∧ Gets r s g i a r.code.length ∧
      (s.add row stop).rows[r.code.length]? = some (some (i, a)) := fun i hi =>
    have ⟨a, hrow⟩ := h.exists_height hi
    have ⟨hheight, hgets⟩ := h.height i a hrow
    ⟨a, hheight, hgets, getElem?_concat_eq_some_iff.2 (.inr ⟨hd.rows_length.symm, hrow.symm⟩)⟩
  have hend : (s.add row stop).offsets[r.code.length + 1]? = some stop :=
    getElem?_concat_eq_some_iff.2 (.inr ⟨hd.offsets_length.symm, rfl⟩)
  have hstands : ∀ {V k}, Stands s g V k → Stands (s.add row stop) g' V k := by
    rintro V k (⟨i, a, hk, hi⟩ | ⟨rfl, i, hi, hV⟩)
    · exact .inl ⟨i, a, getElem?_extended hrows hk, hi⟩
    · obtain ⟨a, -, -, hrow⟩ := hnow i hi
      exact .inl ⟨i, a, hd.rows_length ▸ hrow, hV⟩
  refine ⟨?_, ?_, ?_, hd.entry.mono hext hoffsets, ?_, ?_, ?_, ?_, ?_, ?_, ?_, ?_,
    fun i hi => hd.peaks_added h hu hm hi⟩
  · rw [hlength, Routine.event, List.length_append, List.length_singleton]
  · rw [Sketch.add, Routine.event, List.length_append, List.length_append, hd.offsets_length]
    rfl
  · refine List.pairwise_append.2 ⟨hd.ascending, List.pairwise_singleton _ _, fun x hx y hy => ?_⟩
    rw [List.mem_singleton.1 hy]
    exact hstop x hx
  · intro k i a hk
    rcases getElem?_concat_eq_some_iff.1 hk with hk | ⟨rfl, hnew⟩
    · obtain ⟨hplaced, hgets⟩ := hd.row k i a hk
      exact ⟨(hext.placed i hplaced).1, hgets.mono hext hcode hrows hoffsets⟩
    · have hi := h.current hnew.symm
      rw [hd.rows_length]
      exact ⟨(hext.placed i (hd.now i hi).1).1,
        (h.height i a hnew.symm).2.mono hext hcode hrows hoffsets⟩
  · intro j hj
    have hcode' : (r.event (.instruction o)).code.length = r.code.length + 1 := by
      rw [Routine.event, List.length_append, List.length_singleton]
    obtain ⟨i, hi, hfalls⟩ := hm.stops j hj
    obtain ⟨a, hheight, -, hrow⟩ := hnow i hi
    obtain ⟨j', hj', hcases⟩ := hm.goes i hi hfalls
    obtain rfl : j' = j := Option.some.inj (hj'.symm.trans hj)
    rw [hcode']
    rcases hcases with ⟨rfl, hbehind⟩ | ⟨hplaced, hposition, hbehind, -⟩
    · exact ⟨(hext.placed _ (hd.now _ hi).1).1, _, hbehind a hheight, .next hrow hat hu hfalls⟩
    · exact ⟨hplaced, 0, hbehind, .start ⟨hplaced, by rw [hposition, hend]⟩⟩
  · intro l k hl
    obtain ⟨i, hi, hbegins⟩ := hd.label l k hl
    exact ⟨i, hext.labels l i hi, hbegins.mono hext hoffsets⟩
  · intro i e he honward
    rcases hm.sent i e he honward with ⟨he, hsame⟩ | ⟨hi, hleaves, hcases⟩
    · obtain ⟨a, ha, hpasses⟩ := hd.edge i e he honward
      exact ⟨a, hsame a ha, hpasses.mono hext hcode hrows hoffsets⟩
    · obtain ⟨a, hheight, -, hrow⟩ := hnow i hi
      refine ⟨_, hleaves a hheight, ?_⟩
      rcases hcases with ⟨l, hl, hget⟩ | ⟨hfalls, hplaced, hposition⟩
      · exact .inr ⟨_, _, o, u, l, hrow, hat, hu, hl, hget, rfl⟩
      · exact .inl ⟨_, .next hrow hat hu hfalls, hplaced, by rw [hposition, hend]⟩
  · intro k i a o' hk ho l hl
    rcases hd.row_added hk ho with ⟨hk, ho⟩ | ⟨rfl, hrow, rfl⟩
    · exact hd.sends_mono hext hk ho hl
    · exact hm.sends i (h.current hrow) l hl
  · exact fun V hV h0 => hstands (hd.entryStands V (hext.closed hV) h0)
  · exact fun V hV l k i hl hget hi =>
      hstands (hd.labelStands V (hext.closed hV) l k i hl (hd.label_eq hext hl hget) hi)
  · intro V hV k i a o' hk ho hfalls hi
    rcases hd.row_added hk ho with ⟨hk, ho⟩ | ⟨rfl, hrow, rfl⟩
    · exact hstands (hd.nextStands V (hext.closed hV) k i a o' hk ho hfalls hi)
    · obtain ⟨j, hj, hcases⟩ := hm.goes i (h.current hrow) hfalls
      refine .inr ⟨hlength.symm, j, hj, ?_⟩
      rcases hcases with ⟨rfl, -⟩ | ⟨-, -, -, hV'⟩
      · exact hi
      · exact hV' V hV hi

end RowNow

/-- **A block starts** at an offset, and is the current one from then on.  The block that was the current
one before leads to it. -/
structure Starts (g g' : BlockGraph) (offset : Nat) : Prop where
  keeps : Extends g g'
  current : ∀ j, g'.current = some j → g'.IsPlaced j ∧ g'.positionOf j = offset ∧ g'.HeightIs 0
  leads : ∀ i, g.current = some i → ∀ V, g'.Closed V → V i → ∃ j, g'.current = some j ∧ V j
  sent : ∀ i e, e ∈ edgesAt g'.blocks i → e.Onward →
    e ∈ edgesAt g.blocks i ∧ (∀ a, g.Leaves i e a → g'.Leaves i e a) ∨
    g.current = some i ∧ (∀ a, g.HeightIs a → g'.Leaves i e a) ∧ g'.IsPlaced e.successor ∧
      g'.positionOf e.successor = offset
  fresh : ∀ j, g'.IsPlaced j → g.IsPlaced j ∨ g'.peakOf j = 0
  peak : ∀ i, g.IsPlaced i → g'.peakOf i = g.peakOf i

/-- **A label** at an offset: its block is the current one, or leads to it. -/
structure LabelAt (g : BlockGraph) (l : Label) (i : BlockId) (offset : Nat) : Prop where
  label : g.labels.get? l = some i
  placed : g.IsPlaced i
  position : g.positionOf i = offset
  leads : ∀ V, g.Closed V → V i → ∃ j, g.current = some j ∧ V j

/-- Greatest heights stay the same, and blocks that get a place are empty. -/
theorem Drawn.peaks_mono (hd : Drawn r s g) (hcode : r'.code = r.code)
    (hfresh : ∀ j, g'.IsPlaced j → g.IsPlaced j ∨ g'.peakOf j = 0)
    (hpeak : ∀ i, g.IsPlaced i → g'.peakOf i = g.peakOf i) (hi : g'.IsPlaced i)
    (hcalm : Calm r' s i) : Peaks r' s g' i := by
  have hbounds : ∀ {n}, Bounds r' s i n ↔ Bounds r s i n := by
    intro n
    unfold Bounds
    rw [hcode]
  by_cases hplaced : g.IsPlaced i
  · have hcalm' : Calm r s i := hcalm.of_extended (hcode ▸ List.prefix_refl _) (List.prefix_refl _)
    obtain ⟨hb, hleast⟩ := hd.peaks i hplaced hcalm'
    exact ⟨hbounds.2 (hpeak i hplaced ▸ hb), fun n hn => hpeak i hplaced ▸ hleast n (hbounds.1 hn)⟩
  · have hzero := (hfresh i hi).resolve_left hplaced
    refine ⟨?_, fun n hn => hzero ▸ hn.1⟩
    rw [hzero]
    exact ⟨le_rfl, fun k a o u hk => absurd (hd.row k i a hk).1 hplaced⟩

theorem Drawn.start (hd : Drawn r s g) {offset : Nat}
    (hoffset : s.offsets[r.code.length]? = some offset) (hs : Starts g g' offset) : Drawn r s g' := by
  have hext := hs.keeps
  have hgets : ∀ {i a k}, Gets r s g i a k → Gets r s g' i a k := fun hg =>
    hg.mono hext (List.prefix_refl _) (List.prefix_refl _) (List.prefix_refl _)
  have hbegins : ∀ {i k}, Begins s g i k → Begins s g' i k := fun hb =>
    hb.mono hext (List.prefix_refl _)
  have hstands : ∀ {V k}, g'.Closed V → Stands s g V k → Stands s g' V k := by
    rintro V k hV (hk | ⟨rfl, i, hi, hVi⟩)
    · exact .inl hk
    · exact .inr ⟨rfl, hs.leads i hi V hV hVi⟩
  refine ⟨hd.rows_length, hd.offsets_length, hd.ascending, hbegins hd.entry, ?_, ?_, ?_, ?_,
    fun k i a o hk ho l hl => hd.sends_mono hext hk ho hl, ?_, ?_, ?_,
    fun i hi => hd.peaks_mono rfl hs.fresh hs.peak hi⟩
  · intro k i a hk
    obtain ⟨hplaced, hg⟩ := hd.row k i a hk
    exact ⟨(hext.placed i hplaced).1, hgets hg⟩
  · intro j hj
    obtain ⟨hplaced, hposition, hheight⟩ := hs.current j hj
    exact ⟨hplaced, 0, hheight, .start ⟨hplaced, by rw [hposition, hoffset]⟩⟩
  · intro l k hl
    obtain ⟨i, hi, hb⟩ := hd.label l k hl
    exact ⟨i, hext.labels l i hi, hbegins hb⟩
  · intro i e he honward
    rcases hs.sent i e he honward with ⟨he, hsame⟩ | ⟨hi, hleaves, hplaced, hposition⟩
    · obtain ⟨a, ha, hpasses⟩ := hd.edge i e he honward
      exact ⟨a, hsame a ha, hpasses.mono hext (List.prefix_refl _) (List.prefix_refl _)
        (List.prefix_refl _)⟩
    · obtain ⟨-, a, hheight, hg⟩ := hd.now i hi
      exact ⟨a, hleaves a hheight, .inl ⟨_, hgets hg, hplaced, by rw [hposition, hoffset]⟩⟩
  · exact fun V hV h0 => hstands hV (hd.entryStands V (hext.closed hV) h0)
  · exact fun V hV l k i hl hget hi =>
      hstands hV (hd.labelStands V (hext.closed hV) l k i hl (hd.label_eq hext hl hget) hi)
  · exact fun V hV k i a o hk ho hfalls hi =>
      hstands hV (hd.nextStands V (hext.closed hV) k i a o hk ho hfalls hi)

/-- A label whose block has its place is placed as well. -/
theorem Drawn.labelAt (hd : Drawn r s g) {l : Label} (hdebug : l.debug = false) {offset : Nat}
    (hoffset : s.offsets[r.code.length]? = some offset) (hm : LabelAt g l i offset) :
    Drawn (r.event (.label l)) s g := by
  have hevent : r.event (.label l) = { r with places := r.places ++ [(l, r.code.length)] } :=
    if_neg (by rw [hdebug]; exact Bool.false_ne_true)
  rw [hevent]
  have hcode : r.code <+: ({ r with places := r.places ++ [(l, r.code.length)] } : Routine).code :=
    List.prefix_refl _
  have hgets : ∀ {i a k}, Gets r s g i a k →
      Gets { r with places := r.places ++ [(l, r.code.length)] } s g i a k := fun hg =>
    hg.mono (.refl g) hcode (List.prefix_refl _) (List.prefix_refl _)
  refine ⟨hd.rows_length, hd.offsets_length, hd.ascending, hd.entry, ?_, ?_, ?_, ?_, hd.sends,
    hd.entryStands, ?_, hd.nextStands,
    fun i hi => hd.peaks_mono rfl (fun _ => .inl) (fun _ _ => rfl) hi⟩
  · exact fun k i a hk => ⟨(hd.row k i a hk).1, hgets (hd.row k i a hk).2⟩
  · intro i hi
    obtain ⟨hplaced, a, hheight, hg⟩ := hd.now i hi
    exact ⟨hplaced, a, hheight, hgets hg⟩
  · intro l' k hl
    rcases List.mem_append.1 hl with hl | hl
    · exact hd.label l' k hl
    · obtain ⟨rfl, rfl⟩ := Prod.mk.injEq .. ▸ List.mem_singleton.1 hl
      exact ⟨i, hm.label, hm.placed, by rw [hm.position, hoffset]⟩
  · intro i e he honward
    obtain ⟨a, ha, hpasses⟩ := hd.edge i e he honward
    exact ⟨a, ha, hpasses.mono (.refl g) hcode (List.prefix_refl _) (List.prefix_refl _)⟩
  · intro V hV l' k i' hl hget hi
    rcases List.mem_append.1 hl with hl | hl
    · exact hd.labelStands V hV l' k i' hl hget hi
    · obtain ⟨rfl, rfl⟩ := Prod.mk.injEq .. ▸ List.mem_singleton.1 hl
      obtain rfl : i = i' := Option.some.inj (hm.label.symm.trans hget)
      exact .inr ⟨hd.rows_length.symm, hm.leads V hV hi⟩

/-- **Labels that are mentioned** get blocks, and nothing else changes. -/
structure Mentions (g g' : BlockGraph) : Prop where
  keeps : Extends g g'
  current : g'.current = g.current
  height : ∀ a, g.HeightIs a → g'.HeightIs a
  sent : ∀ i e, e ∈ edgesAt g'.blocks i →
    e ∈ edgesAt g.blocks i ∧ ∀ a, g.Leaves i e a → g'.Leaves i e a
  placed : ∀ i, g'.IsPlaced i → g.IsPlaced i
  peak : ∀ i, g.IsPlaced i → g'.peakOf i = g.peakOf i

theorem Drawn.mention (hd : Drawn r s g) (hcode : r'.code = r.code) (hplaces : r'.places = r.places)
    (hm : Mentions g g') : Drawn r' s g' := by
  have hext := hm.keeps
  have hprefix : r.code <+: r'.code := hcode ▸ List.prefix_refl _
  have hgets : ∀ {i a k}, Gets r s g i a k → Gets r' s g' i a k := fun hg =>
    hg.mono hext hprefix (List.prefix_refl _) (List.prefix_refl _)
  have hstands : ∀ {V k}, Stands s g V k → Stands s g' V k := by
    rintro V k (hk | ⟨rfl, hi⟩)
    · exact .inl hk
    · exact .inr ⟨rfl, hm.current ▸ hi⟩
  refine ⟨hcode ▸ hd.rows_length, hcode ▸ hd.offsets_length, hd.ascending,
    hd.entry.mono hext (List.prefix_refl _), ?_, ?_, ?_, ?_, ?_, ?_, ?_, ?_,
    fun i hi => hd.peaks_mono hcode (fun j hj => .inl (hm.placed j hj)) hm.peak hi⟩
  · intro k i a hk
    obtain ⟨hplaced, hg⟩ := hd.row k i a hk
    exact ⟨(hext.placed i hplaced).1, hgets hg⟩
  · intro i hi
    obtain ⟨hplaced, a, hheight, hg⟩ := hd.now i (hm.current ▸ hi)
    rw [hcode]
    exact ⟨(hext.placed i hplaced).1, a, hm.height a hheight, hgets hg⟩
  · intro l k hl
    obtain ⟨i, hi, hb⟩ := hd.label l k (hplaces ▸ hl)
    exact ⟨i, hext.labels l i hi, hb.mono hext (List.prefix_refl _)⟩
  · intro i e he honward
    obtain ⟨he, hsame⟩ := hm.sent i e he
    obtain ⟨a, ha, hpasses⟩ := hd.edge i e he honward
    exact ⟨a, hsame a ha, hpasses.mono hext hprefix (List.prefix_refl _) (List.prefix_refl _)⟩
  · exact fun k i a o hk ho l hl => hd.sends_mono hext hk (hcode ▸ ho) hl
  · exact fun V hV h0 => hstands (hd.entryStands V (hext.closed hV) h0)
  · exact fun V hV l k i hl hget hi => hstands
      (hd.labelStands V (hext.closed hV) l k i (hplaces ▸ hl) (hd.label_eq hext (hplaces ▸ hl) hget) hi)
  · exact fun V hV k i a o hk ho hfalls hi =>
      hstands (hd.nextStands V (hext.closed hV) k i a o hk (hcode ▸ ho) hfalls hi)

end BlockGraph

end ClassFile
