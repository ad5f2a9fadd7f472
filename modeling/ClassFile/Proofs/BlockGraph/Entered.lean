/-
# Heights in drawn graphs

Control gets to the instructions of a routine just as edges lead to the blocks of a graph that is drawn
from it.

* If the machine gets to the beginning of a block (`Enters`), it gets to each instruction in the block
  (`Drawn.reaches`), and along each edge to the beginning of another block (`Drawn.enters`).
* If some blocks are closed under edges and the entry is one of them, each instruction that the machine
  gets to stands in one (`Drawn.stands`).

So heights of blocks that the machine enters them with, and that are closed under edges, bound the stack
if each instruction is entered with one height only (`Drawn.below`).  If no more slots are taken than there
are and 32 bits hold all heights, they hold all heights in blocks (`Drawn.calm`).
-/
import ClassFile.Proofs.BlockGraph.Drawn

namespace ClassFile

/-- All labels that instructions lead to have been placed. -/
def Routine.TargetsPlaced (r : Routine) : Prop :=
  ∀ o ∈ r.code, ∀ l ∈ o.targets, ∃ t, (l, t) ∈ r.places

namespace BlockGraph

variable {r : Routine} {s : Sketch} {g : BlockGraph} {i : BlockId} {e : Edge} {k : Nat} {a H : Int}
  {V : BlockId → Prop}

/-- The machine gets to the beginning of a block with a height. -/
def Enters (r : Routine) (s : Sketch) (g : BlockGraph) (i : BlockId) (H : Int) : Prop :=
  ∃ k, Begins s g i k ∧ r.Reaches k H

/-! ## 1. From blocks to instructions -/

/-- No two instructions are at one offset. -/
theorem Drawn.begins_unique (hd : Drawn r s g) {k' : Nat} (hk : Begins s g i k)
    (hk' : Begins s g i k') : k = k' := by
  rcases Nat.lt_trichotomy k k' with hlt | heq | hlt
  · exact absurd (hd.offset_lt hlt hk.offset hk'.offset) (Nat.lt_irrefl _)
  · exact heq
  · exact absurd (hd.offset_lt hlt hk'.offset hk.offset) (Nat.lt_irrefl _)

/-- **From the beginning of a block to an instruction.** -/
theorem Drawn.reaches (hd : Drawn r s g) (hi : Enters r s g i H) (hk : Gets r s g i a k) :
    r.Reaches k (H + a) := by
  obtain ⟨k₀, hbegins, hreaches⟩ := hi
  have hstart : ∀ {k}, Begins s g i k → r.Reaches k (H + 0) := fun hk => by
    rw [Int.add_zero, hd.begins_unique hk hbegins]
    exact hreaches
  induction k generalizing a with
  | zero =>
    cases hk with
    | start hk => exact hstart hk
  | succ k ih =>
    cases hk with
    | start hk => exact hstart hk
    | next hk ho hu hfalls =>
      rw [← Int.add_assoc]
      exact (ih (hd.row k i _ hk).2).next ho hu hfalls

/-- **From the beginning of a block along an edge**, unless it is thrown. -/
theorem Drawn.enters (hd : Drawn r s g) (hplaced : r.TargetsPlaced) (hi : Enters r s g i H)
    (he : Passes r s g i e a) : Enters r s g e.successor (H + a) := by
  rcases he with ⟨k, hk, hbegins⟩ | ⟨k, b, o, u, l, hk, ho, hu, hl, hget, rfl⟩
  · exact ⟨k, hbegins, hd.reaches hi hk⟩
  · obtain ⟨t, ht⟩ := hplaced o (List.mem_of_getElem? ho) l hl
    obtain ⟨j, hj, hbegins⟩ := hd.label l t ht
    obtain rfl : j = e.successor := Option.some.inj (hj.symm.trans hget)
    refine ⟨t, hbegins, ?_⟩
    rw [← Int.add_assoc]
    exact (hd.reaches hi (hd.row k i b hk).2).jump ho hu hl ht

/-! ## 2. From instructions to blocks -/

/-- Blocks among which are those of all handlers that cover an instruction in one of them. -/
def ThrownTo (r : Routine) (s : Sketch) (g : BlockGraph) (V : BlockId → Prop) : Prop :=
  ∀ range ∈ r.handlers, ∀ a b t, (range.start, a) ∈ r.places → (range.stop, b) ∈ r.places →
    (range.handler, t) ∈ r.places → ∀ (k : Nat) i x, a ≤ k → k < b →
    s.rows[k]? = some (some (i, x)) → V i → ∃ j, g.labels.get? range.handler = some j ∧ V j

/-- A label is placed at an instruction or behind all of them. -/
theorem Drawn.place_le (hd : Drawn r s g) {l : Label} (hl : (l, k) ∈ r.places) :
    k ≤ r.code.length := by
  obtain ⟨i, -, hbegins⟩ := hd.label l k hl
  have hlt := (List.getElem?_eq_some_iff.1 hbegins.offset).1
  rw [hd.offsets_length] at hlt
  exact Nat.le_of_lt_succ hlt

/-- The block of an instruction. -/
theorem Drawn.row_of_stands (hd : Drawn r s g) (hk : Stands s g V k) (hlt : k < r.code.length) :
    ∃ i a, s.rows[k]? = some (some (i, a)) ∧ V i := by
  rcases hk with hk | ⟨rfl, -⟩
  · exact hk
  · rw [hd.rows_length] at hlt
    exact absurd hlt (Nat.lt_irrefl _)

/-- **Where control gets to**, it stands in a block. -/
theorem Drawn.stands (hd : Drawn r s g) (hV : g.Closed V) (h0 : V 0) (hthrown : ThrownTo r s g V)
    (hk : r.Reaches k H) : Stands s g V k := by
  induction hk with
  | entry => exact hd.entryStands V hV h0
  | next _ ho hu hfalls ih =>
    obtain ⟨i, a, hrow, hi⟩ := hd.row_of_stands ih (List.getElem?_eq_some_iff.1 ho).1
    exact hd.nextStands V hV _ i a _ hrow ho hfalls hi
  | jump _ ho hu hl ht ih =>
    obtain ⟨i, a, hrow, hi⟩ := hd.row_of_stands ih (List.getElem?_eq_some_iff.1 ho).1
    obtain ⟨e, he, hget⟩ := hd.sends _ i a _ hrow ho _ hl
    exact hd.labelStands V hV _ _ _ ht hget (hV.edge i hi e he)
  | throw _ hrange ha hb hstart hstop ht ih =>
    obtain ⟨i, x, hrow, hi⟩ := hd.row_of_stands ih (Nat.lt_of_lt_of_le hstop (hd.place_le hb))
    obtain ⟨j, hget, hj⟩ := hthrown _ hrange _ _ _ ha hb ht _ i x hstart hstop hrow hi
    exact hd.labelStands V hV _ _ _ ht hget hj

/-! ## 3. Bounds -/

section Held

variable (hd : Drawn r s g) (hcovered : r.Covered) (hheld : r.Below (2 ^ 31 - 1))
  (hi : Enters r s g i H)

include hcovered hheld hi

/-- 32 bits hold the height of a block. -/
theorem Enters.held : 0 ≤ H ∧ H < 2 ^ 31 := by
  obtain ⟨k, -, hk⟩ := hi
  have := hheld.reaches (by decide) hk
  exact ⟨hcovered.nonneg hk, by omega⟩

include hd

/-- The instructions of a block are entered with the height of the block and theirs. -/
theorem Drawn.calm : Calm r s i := by
  intro k a o u hk ho hu
  obtain ⟨hH, hH'⟩ := hi.held hcovered hheld
  have hreaches := hd.reaches hi (hd.row k i a hk).2
  have htaken := hcovered k _ o u hreaches ho hu
  have := hheld k _ o u hreaches ho hu
  exact ⟨by omega, by omega, by omega⟩

/-- 32 bits hold the greatest height in a block. -/
theorem Drawn.peak_held : 0 ≤ g.peakOf i ∧ H + g.peakOf i < 2 ^ 31 := by
  obtain ⟨hH, hH'⟩ := hi.held hcovered hheld
  obtain ⟨k, hk, -⟩ := id hi
  obtain ⟨hbounds, hleast⟩ := hd.peaks i hk.placed (hd.calm hcovered hheld hi)
  have hle : g.peakOf i ≤ 2 ^ 31 - 1 - H := by
    refine hleast _ ⟨by omega, fun k a o u hk ho hu => ?_⟩
    have := hheld k _ o u (hd.reaches hi (hd.row k i a hk).2) ho hu
    omega
  exact ⟨hbounds.1, by omega⟩

end Held

/-- **The height of blocks bounds the stack.** -/
theorem Drawn.below (hd : Drawn r s g) (hcovered : r.Covered) (hheld : r.Below (2 ^ 31 - 1))
    (hsteady : r.Steady) (found : BlockId → Int → Prop) {n : Int}
    (hentry : ∃ H, found 0 H) (hclosed : g.Closed fun i => ∃ H, found i H)
    (hthrown : ThrownTo r s g fun i => ∃ H, found i H)
    (henters : ∀ i H, found i H → Enters r s g i H)
    (hpeak : ∀ i H, found i H → H + g.peakOf i ≤ n) : r.Below n := by
  intro k h o u hk ho hu
  have hlt := (List.getElem?_eq_some_iff.1 ho).1
  obtain ⟨i, a, hrow, H, hi⟩ :=
    hd.row_of_stands (hd.stands hclosed hentry hthrown hk) hlt
  obtain ⟨hplaced, hgets⟩ := hd.row k i a hrow
  obtain rfl : h = H + a := hsteady k _ _ hlt hk (hd.reaches (henters i H hi) hgets)
  have hpeaks := hd.peaks i hplaced (hd.calm hcovered hheld (henters i H hi))
  obtain ⟨hbefore, hbehind⟩ := hpeaks.bounds.2 k a o u hrow ho hu
  have := hpeak i H hi
  omega

end BlockGraph

end ClassFile
