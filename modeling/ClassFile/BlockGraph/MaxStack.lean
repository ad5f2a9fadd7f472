/-
# The greatest height of the stack

Where only heights are recorded, the height on entry of a block follows from that of any block
that leads to it, so each block is visited once.  The entry of the method has height 0, and
handlers have height 1.
-/
import ClassFile.BlockGraph.Handlers

namespace ClassFile.BlockGraph

/-- What a search through the blocks has still to visit, and has found so far. -/
structure HeightSearch where
  blocks : Array Block
  /-- The last one comes first. -/
  pending : List BlockId
  greatest : Int32

namespace HeightSearch

/-- Follows an edge from a block with a height on entry, unless it leads to a block that has been
found already. -/
def follow (height : Int32) (s : HeightSearch) (e : Edge) : HeightSearch :=
  match s with
  | ⟨blocks, pending, greatest⟩ =>
    if (blocks[e.successor]?.map Block.isPending).getD true then ⟨blocks, pending, greatest⟩
    else
      let entryHeight := match e.kind with
        | .atHeight above => height + above
        | _ => 1
      ⟨blocks.modify e.successor fun b => { b with entryHeight, isPending := true },
        e.successor :: pending, greatest⟩

/-- Visits a block. -/
def visit (i : BlockId) (s : HeightSearch) : HeightSearch :=
  match s.blocks[i]? with
  | none => s
  | some b =>
    b.edges.foldl (follow b.entryHeight)
      { s with greatest := max s.greatest (b.entryHeight + b.peak) }

/-- Visits what is pending, at most so many blocks. -/
def run : Nat → HeightSearch → HeightSearch
  | 0, s => s
  | limit + 1, s =>
    match s with
    | ⟨_, [], _⟩ => s
    | ⟨blocks, i :: pending, greatest⟩ => run limit (visit i ⟨blocks, pending, greatest⟩)

end HeightSearch

/-- A height as it is written. -/
def writtenHeight (height : Int) : UInt16 := UInt16.ofNat (min height.toNat 65535)

/-- Searches all blocks that can be reached from the entry. -/
def searchHeights (g : BlockGraph) : BlockGraph × Int32 :=
  let limit := g.blocks.size + 1
  let g := g.onBlock 0 fun b => { b with isPending := true }
  let s := HeightSearch.run limit ⟨g.blocks, [0], 0⟩
  ({ g with blocks := s.blocks }, s.greatest)

/-- The greatest height of the stack. -/
def computeMaxStack : GraphM UInt16 := do
  modify closeHeights
  addAllHandlerEdges
  let greatest ← modifyGet fun g =>
    let (g, greatest) := g.searchHeights
    (greatest, g)
  return writtenHeight greatest.toInt

end ClassFile.BlockGraph
