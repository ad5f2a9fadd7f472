/-
# The search for the greatest height

Where only heights are recorded, one search goes through the blocks.  It finds a block along an edge,
gives it the height that the edge says, and visits it once (`Searched`).  When nothing waits any more,
what has been found has the entry in it and is closed under edges, each height comes from a path, and
the greatest height is at least that of each block (`searchHeights_spec`).

`HeightSearch.load`, the blocks that wait and those that have not been found, goes down with each visit,
so the search does not stop too early.
-/
import ClassFile.Proofs.BlockGraph.Explore
import Mathlib.Data.Finset.Card
import Mathlib.Data.Finset.Range

namespace ClassFile

/-- The height with which an edge enters a block, from one that is entered with a height. -/
def Edge.entering (height : Int32) (e : Edge) : Int32 :=
  match e.kind with
  | .atHeight above => height + above
  | _ => 1

/-- Heights that go round are added like others. -/
theorem Edge.entering_ofInt {e : Edge} {above : Int} (hkind : e.kind = .atHeight (.ofInt above))
    (H : Int) : e.entering (.ofInt H) = .ofInt (H + above) := by
  rw [Edge.entering, hkind, Int32.ofInt_add]

namespace BlockGraph

/-- The greatest height in a block above that on entry. -/
def peakAt (blocks : Array Block) (i : BlockId) : Int32 := (blocks[i]?.map Block.peak).getD 0

/-- A block that has been found, with the height on entry. -/
def FoundAt (blocks : Array Block) (i : BlockId) (height : Int32) : Prop :=
  ∃ b, blocks[i]? = some b ∧ b.isPending = true ∧ b.entryHeight = height

/-- A block that has been found. -/
def Found (blocks : Array Block) (i : BlockId) : Prop := ∃ height, FoundAt blocks i height

namespace HeightSearch

variable {start : Array Block} {P : BlockId → Int32 → Prop} {s s' s'' : HeightSearch} {i : BlockId}
  {height : Int32} {e : Edge}

/-! ## 1. Following an edge -/

/-- What a search leaves alone of a block. -/
def shape (b : Block) : Array Edge × Int32 := (b.edges, b.peak)

open Classical in
/-- The blocks that have not been found. -/
noncomputable def unfound (s : HeightSearch) : Finset BlockId :=
  (Finset.range s.blocks.size).filter fun i => ¬ Found s.blocks i

open Classical in
theorem mem_unfound : i ∈ s.unfound ↔ i < s.blocks.size ∧ ¬ Found s.blocks i := by
  rw [unfound, Finset.mem_filter, Finset.mem_range]

/-- The number of blocks that wait, and of those that have not been found. -/
noncomputable def load (s : HeightSearch) : Nat := s.pending.length + s.unfound.card

/-- **A search on its way**: edges are those of the start, and each height has the property. -/
structure Searching (start : Array Block) (P : BlockId → Int32 → Prop) (s : HeightSearch) : Prop where
  alike : ∀ i : BlockId, s.blocks[i]?.map shape = start[i]?.map shape
  right : ∀ i height, FoundAt s.blocks i height → P i height
  pending : ∀ i ∈ s.pending, Found s.blocks i

/-- What following edges does to what has been found and to what waits. -/
structure Spreads (s s' : HeightSearch) : Prop where
  found : ∀ i height, FoundAt s.blocks i height → FoundAt s'.blocks i height
  fresh : ∀ i height, FoundAt s'.blocks i height → i ∉ s'.pending → FoundAt s.blocks i height
  waits : ∀ i ∈ s.pending, i ∈ s'.pending
  greatest : s'.greatest = s.greatest
  load : s'.load ≤ s.load

theorem Spreads.refl (s : HeightSearch) : Spreads s s :=
  ⟨fun _ _ => id, fun _ _ h _ => h, fun _ => id, rfl, Nat.le_refl _⟩

theorem Spreads.trans (h : Spreads s s') (h' : Spreads s' s'') : Spreads s s'' where
  found i height hi := h'.found i height (h.found i height hi)
  fresh i height hi hmem :=
    h.fresh i height (h'.fresh i height hi hmem) fun hp => hmem (h'.waits i hp)
  waits i hi := h'.waits i (h.waits i hi)
  greatest := h'.greatest.trans h.greatest
  load := Nat.le_trans h'.load h.load

theorem Searching.size_eq (hs : Searching start P s) : s.blocks.size = start.size := by
  have hiff : ∀ i : BlockId, s.blocks.size ≤ i ↔ start.size ≤ i := by
    intro i
    rw [← Array.getElem?_eq_none_iff, ← Array.getElem?_eq_none_iff,
      ← Option.map_eq_none_iff (f := shape), hs.alike, Option.map_eq_none_iff]
  exact Nat.le_antisymm ((hiff _).2 (Nat.le_refl _)) ((hiff _).1 (Nat.le_refl _))

/-- The block that is found, when it has not been found before. -/
def find (i : BlockId) (height : Int32) (s : HeightSearch) : HeightSearch :=
  ⟨s.blocks.modify i fun b => { b with entryHeight := height, isPending := true },
    i :: s.pending, s.greatest⟩

/-- Following an edge finds the block that it leads to, unless it has been found before. -/
theorem follow_cases (height : Int32) (s : HeightSearch) (e : Edge) :
    follow height s e = s ∧ (e.successor < s.blocks.size → Found s.blocks e.successor) ∨
    follow height s e = find e.successor (e.entering height) s ∧
      ∃ b, s.blocks[e.successor]? = some b ∧ b.isPending = false := by
  obtain ⟨blocks, pending, greatest⟩ := s
  unfold follow
  dsimp only
  cases hb : blocks[e.successor]? with
  | none =>
    refine .inl ⟨if_pos rfl, fun hlt => ?_⟩
    rw [Array.getElem?_eq_getElem hlt] at hb
    exact nomatch hb
  | some b =>
    cases hp : b.isPending with
    | true =>
      refine .inl ⟨if_pos hp, fun _ => ?_⟩
      exact ⟨b.entryHeight, b, hb, hp, rfl⟩
    | false =>
      refine .inr ⟨?_, b, rfl, hp⟩
      rw [if_neg (by simp [hp])]
      rfl

theorem getElem?_find (i j : BlockId) (height : Int32) (s : HeightSearch) :
    (find i height s).blocks[j]? = if i = j
      then s.blocks[j]?.map fun b => { b with entryHeight := height, isPending := true }
      else s.blocks[j]? := Array.getElem?_modify

section Find

variable {b : Block} (hb : s.blocks[i]? = some b) (hnew : b.isPending = false)

include hb in
theorem foundAt_find_self : FoundAt (find i height s).blocks i height := by
  refine ⟨{ b with entryHeight := height, isPending := true }, ?_, rfl, rfl⟩
  rw [getElem?_find, if_pos rfl, hb]
  rfl

include hb in
theorem foundAt_find {j : BlockId} {height' : Int32}
    (hj : FoundAt (find i height s).blocks j height') :
    j = i ∧ height' = height ∨ j ≠ i ∧ FoundAt s.blocks j height' := by
  obtain ⟨c, hc, hp, rfl⟩ := hj
  rw [getElem?_find] at hc
  split at hc
  · rename_i hij
    subst hij
    rw [hb] at hc
    cases hc
    exact .inl ⟨rfl, rfl⟩
  · rename_i hij
    exact .inr ⟨Ne.symm hij, c, hc, hp, rfl⟩

include hb hnew in
theorem not_found : ¬ Found s.blocks i := by
  rintro ⟨_, c, hc, hp, -⟩
  rw [hb] at hc
  cases hc
  rw [hnew] at hp
  exact nomatch hp

include hb hnew in
/-- A block that has been found stays as it is. -/
theorem foundAt_find_of {j : BlockId} {height' : Int32} (hj : FoundAt s.blocks j height') :
    FoundAt (find i height s).blocks j height' := by
  have hij : i ≠ j := by
    rintro rfl
    exact not_found hb hnew ⟨_, hj⟩
  obtain ⟨c, hc, hrest⟩ := hj
  exact ⟨c, by rw [getElem?_find, if_neg hij, hc], hrest⟩

include hb hnew in
theorem load_find : (find i height s).load ≤ s.load := by
  have hsize : (find i height s).blocks.size = s.blocks.size := Array.size_modify
  have hlt : i < s.blocks.size := (Array.getElem?_eq_some_iff.1 hb).1
  have hsub : (find i height s).unfound ⊂ s.unfound := by
    refine (Finset.ssubset_iff_of_subset fun j hj => ?_).2 ⟨i, ?_, fun hi => ?_⟩
    · rw [mem_unfound, hsize] at hj
      exact mem_unfound.2 ⟨hj.1, fun ⟨_, hf⟩ => hj.2 ⟨_, foundAt_find_of hb hnew hf⟩⟩
    · exact mem_unfound.2 ⟨hlt, not_found hb hnew⟩
    · exact (mem_unfound.1 hi).2 ⟨_, foundAt_find_self hb⟩
  have hcard := Finset.card_lt_card hsub
  show s.pending.length + 1 + (find i height s).unfound.card ≤ s.pending.length + s.unfound.card
  omega

include hb hnew in
theorem spreads_find : Spreads s (find i height s) where
  found _ _ hj := foundAt_find_of hb hnew hj
  fresh j height' hj hmem := by
    rcases foundAt_find hb hj with ⟨rfl, -⟩ | ⟨-, hj⟩
    · exact absurd List.mem_cons_self hmem
    · exact hj
  waits _ hj := List.mem_cons_of_mem _ hj
  greatest := rfl
  load := load_find hb hnew

include hb hnew in
theorem Searching.find (hs : Searching start P s) (hp : P i height) :
    Searching start P (find i height s) := by
  refine ⟨fun j => ?_, fun j height' hj => ?_, fun j hj => ?_⟩
  · rw [← hs.alike j, getElem?_find]
    split
    · rw [Option.map_map]
      rfl
    · rfl
  · rcases foundAt_find hb hj with ⟨rfl, rfl⟩ | ⟨-, hj⟩
    · exact hp
    · exact hs.right j height' hj
  · rcases List.mem_cons.1 hj with rfl | hj
    · exact ⟨_, foundAt_find_self hb⟩
    · obtain ⟨height', hf⟩ := hs.pending j hj
      exact ⟨height', foundAt_find_of hb hnew hf⟩

end Find

/-- **Following an edge** finds the block that it leads to. -/
theorem Searching.follow (hs : Searching start P s) (hp : P e.successor (e.entering height)) :
    Searching start P (follow height s e) ∧ Spreads s (follow height s e) ∧
      (e.successor < start.size → Found (HeightSearch.follow height s e).blocks e.successor) := by
  rcases follow_cases height s e with ⟨hsame, hfound⟩ | ⟨hfind, b, hb, hnew⟩
  · rw [hsame]
    exact ⟨hs, .refl s, fun hlt => hfound (hs.size_eq ▸ hlt)⟩
  · rw [hfind]
    exact ⟨hs.find hb hnew hp, spreads_find hb hnew, fun _ => ⟨_, foundAt_find_self hb⟩⟩

/-- Following several edges finds all blocks that they lead to. -/
theorem Searching.followAll {edges : List Edge} (hs : Searching start P s)
    (hp : ∀ e ∈ edges, P e.successor (e.entering height)) :
    Searching start P (edges.foldl (HeightSearch.follow height) s) ∧
      Spreads s (edges.foldl (HeightSearch.follow height) s) ∧
      ∀ e ∈ edges, e.successor < start.size →
        Found (edges.foldl (HeightSearch.follow height) s).blocks e.successor := by
  induction edges generalizing s with
  | nil => exact ⟨hs, .refl s, fun e he => absurd he List.not_mem_nil⟩
  | cons e edges ih =>
    obtain ⟨hs₁, hspread₁, hfound₁⟩ := hs.follow (hp e List.mem_cons_self)
    obtain ⟨hs', hspread, hfound⟩ := ih hs₁ fun e' he' => hp e' (List.mem_cons_of_mem _ he')
    refine ⟨hs', hspread₁.trans hspread, fun e' he' hlt => ?_⟩
    rcases List.mem_cons.1 he' with rfl | he'
    · obtain ⟨height', hf⟩ := hfound₁ hlt
      exact ⟨height', hspread.found _ _ hf⟩
    · exact hfound e' he' hlt

/-! ## 2. Visiting blocks -/

/-- **What holds when a block is to be visited**: an edge of a block that does not wait leads to a block
that has been found, and its height is not above the greatest one. -/
structure Searched (start : Array Block) (P : BlockId → Int32 → Prop) (s : HeightSearch) : Prop
    extends Searching start P s where
  entry : FoundAt s.blocks 0 0
  followed : ∀ i height, FoundAt s.blocks i height → i ∉ s.pending →
    (∀ e ∈ edgesAt start i, e.successor < start.size → Found s.blocks e.successor) ∧
      (height + peakAt start i).toInt ≤ s.greatest.toInt

variable {blocks : Array Block} {pending : List BlockId} {greatest : Int32}

/-- **Visiting a block** keeps what has been searched. -/
theorem Searched.visit (hs : Searched start P ⟨blocks, i :: pending, greatest⟩)
    (hp : ∀ i height, P i height → ∀ e ∈ edgesAt start i, P e.successor (e.entering height)) :
    Searched start P (visit i ⟨blocks, pending, greatest⟩) ∧
      (HeightSearch.visit i ⟨blocks, pending, greatest⟩).load <
        HeightSearch.load ⟨blocks, i :: pending, greatest⟩ := by
  obtain ⟨height, hi⟩ := hs.pending i List.mem_cons_self
  have hi' := hi
  obtain ⟨b, hb, -, hheight⟩ := hi
  have hshape : start[i]?.map shape = some (shape b) := by
    rw [← hs.alike i]
    exact congrArg (Option.map shape) hb
  obtain ⟨c, hc, hcb⟩ := Option.map_eq_some_iff.1 hshape
  obtain ⟨hedgesc, hpeakc⟩ := Prod.mk.injEq .. ▸ hcb
  have hedges : edgesAt start i = b.edges.toList := by
    rw [edgesAt, hc, ← hedgesc]
    rfl
  have hpeak : peakAt start i = b.peak := by
    rw [peakAt, hc, ← hpeakc]
    rfl
  have hvisit : HeightSearch.visit i ⟨blocks, pending, greatest⟩ =
      b.edges.toList.foldl (HeightSearch.follow height)
        ⟨blocks, pending, max greatest (height + b.peak)⟩ := by
    unfold HeightSearch.visit
    simp only [hb, hheight, ← Array.foldl_toList]
  have hstart : Searching start P ⟨blocks, pending, max greatest (height + b.peak)⟩ :=
    ⟨hs.alike, hs.right, fun j hj => hs.pending j (List.mem_cons_of_mem _ hj)⟩
  have hentered : ∀ e ∈ b.edges.toList, P e.successor (e.entering height) :=
    fun e he => hp i height (hs.right i height hi') e (hedges ▸ he)
  obtain ⟨hs', hspread, hfound⟩ := hstart.followAll hentered
  rw [hvisit]
  refine ⟨⟨hs', hspread.found 0 0 hs.entry, fun j height' hj hmem => ?_⟩,
    Nat.lt_of_le_of_lt hspread.load ?_⟩
  · have hbefore : FoundAt blocks j height' := hspread.fresh j height' hj hmem
    rw [hspread.greatest]
    by_cases hij : j = i
    · subst hij
      obtain ⟨b', hb', -, rfl⟩ := hbefore
      cases hb'.symm.trans hb
      refine ⟨fun e he => hfound e (hedges ▸ he), ?_⟩
      rw [hpeak, hheight, toInt_max]
      exact Int.le_max_right _ _
    · have hwait : j ∉ i :: pending := fun h =>
        hmem (hspread.waits j ((List.mem_cons.1 h).resolve_left hij))
      obtain ⟨hall, hle⟩ := hs.followed j height' hbefore hwait
      have hmax : greatest.toInt ≤ (max greatest (height + b.peak)).toInt := by
        rw [toInt_max]
        exact Int.le_max_left _ _
      refine ⟨fun e he hlt => ?_, Int.le_trans hle hmax⟩
      obtain ⟨height'', hf⟩ := hall e he hlt
      exact ⟨height'', hspread.found _ _ hf⟩
  · unfold load
    rw [List.length_cons]
    exact Nat.add_lt_add_right (Nat.lt_succ_self _) _

/-- **The search ends** with nothing waiting. -/
theorem Searched.run {limit : Nat} (hs : Searched start P s) (hlimit : s.load ≤ limit)
    (hp : ∀ i height, P i height → ∀ e ∈ edgesAt start i, P e.successor (e.entering height)) :
    Searched start P (run limit s) ∧ (HeightSearch.run limit s).pending = [] := by
  induction limit generalizing s with
  | zero =>
    refine ⟨hs, List.length_eq_zero_iff.1 ?_⟩
    unfold load at hlimit
    exact Nat.le_zero.1 (Nat.le_trans (Nat.le_add_right _ _) hlimit)
  | succ limit ih =>
    obtain ⟨blocks, pending, greatest⟩ := s
    cases pending with
    | nil => exact ⟨hs, rfl⟩
    | cons i pending =>
      obtain ⟨hs', hload⟩ := hs.visit hp
      exact ih hs' (by omega)

end HeightSearch

/-! ## 3. All blocks -/

variable {g : BlockGraph} {P : BlockId → Int32 → Prop}

/-- No block has been found yet. -/
def Unsearched (blocks : Array Block) : Prop :=
  ∀ b ∈ blocks, b.isPending = false ∧ b.entryHeight = 0

/-- The search before any block has been visited. -/
def searchStart (g : BlockGraph) : HeightSearch :=
  ⟨(g.onBlock 0 fun b => { b with isPending := true }).blocks, [0], 0⟩

/-- The search starts in the entry. -/
theorem searched_start (hfresh : Unsearched g.blocks) (hsize : 0 < g.blocks.size) (hentry : P 0 0) :
    HeightSearch.Searched g.blocks P (searchStart g) := by
  have hget : ∀ j : BlockId, (searchStart g).blocks[j]? =
      if 0 = j then g.blocks[j]?.map (fun b => { b with isPending := true }) else g.blocks[j]? :=
    fun j => Array.getElem?_modify
  obtain ⟨b, hb⟩ : ∃ b, g.blocks[0]? = some b := ⟨_, Array.getElem?_eq_getElem hsize⟩
  have hzero : FoundAt (searchStart g).blocks 0 0 := by
    refine ⟨{ b with isPending := true }, ?_, rfl, (hfresh b (Array.mem_of_getElem? hb)).2⟩
    rw [hget, if_pos rfl, hb]
    rfl
  have honly : ∀ j height, FoundAt (searchStart g).blocks j height → j = 0 ∧ height = 0 := by
    rintro j height ⟨c, hc, hpending, rfl⟩
    rw [hget] at hc
    split at hc
    · rename_i hj
      subst hj
      rw [hb] at hc
      cases hc
      exact ⟨rfl, (hfresh b (Array.mem_of_getElem? hb)).2⟩
    · rw [(hfresh c (Array.mem_of_getElem? hc)).1] at hpending
      exact nomatch hpending
  refine ⟨⟨fun j => ?_, fun j height hj => ?_, fun j hj => ?_⟩, hzero, fun j height hj hmem => ?_⟩
  · rw [hget]
    split
    · rw [Option.map_map]
      rfl
    · rfl
  · obtain ⟨rfl, rfl⟩ := honly j height hj
    exact hentry
  · obtain rfl := List.mem_singleton.1 hj
    exact ⟨0, hzero⟩
  · exact absurd (List.mem_singleton.2 (honly j height hj).1) hmem

/-- As many visits are enough as there are blocks, and one more. -/
theorem load_searchStart (g : BlockGraph) : (searchStart g).load ≤ g.blocks.size + 1 := by
  have hsub : (searchStart g).unfound ⊆ Finset.range g.blocks.size := fun j hj =>
    Finset.mem_range.2 (Nat.lt_of_lt_of_eq (HeightSearch.mem_unfound.1 hj).1 (size_onBlock g 0 _))
  have hcard := Finset.card_le_card hsub
  rw [Finset.card_range] at hcard
  show 1 + (searchStart g).unfound.card ≤ g.blocks.size + 1
  omega

theorem toNat_writtenHeight (height : Int) :
    (writtenHeight height).toNat = min height.toNat 65535 :=
  UInt16.toNat_ofNat_of_lt' (show min height.toNat 65535 < 65536 by omega)

/-- **What a search finds**: the entry, and with a block all that its edges lead to.  A property of
heights on entry that edges keep holds of all that are found, and the greatest height is at least that of
each block that is found. -/
theorem searchHeights_spec (hfresh : Unsearched g.blocks) (hsize : 0 < g.blocks.size)
    (hentry : P 0 0)
    (hp : ∀ i height, P i height → ∀ e ∈ edgesAt g.blocks i, P e.successor (e.entering height)) :
    ∃ found : BlockId → Int32 → Prop, found 0 0 ∧
      (∀ i height, found i height → P i height ∧
        (height + peakAt g.blocks i).toInt ≤ g.searchHeights.2.toInt ∧
        ∀ e ∈ edgesAt g.blocks i, e.successor < g.blocks.size →
          ∃ height', found e.successor height') := by
  obtain ⟨hs, hdone⟩ := (searched_start hfresh hsize hentry).run (load_searchStart g) hp
  refine ⟨FoundAt (HeightSearch.run (g.blocks.size + 1) (searchStart g)).blocks, hs.entry,
    fun i height hi => ?_⟩
  obtain ⟨hall, hle⟩ := hs.followed i height hi (by rw [hdone]; exact List.not_mem_nil)
  exact ⟨hs.right i height hi, hle, hall⟩

end BlockGraph

end ClassFile
