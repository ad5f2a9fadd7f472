/-
# Edges to handlers

A handler can be entered from every block between the two labels of its range.  Its edges are
added when the chain of blocks is complete; a range that covers no code has none.
-/
import ClassFile.BlockGraph.Step

namespace ClassFile.BlockGraph

/-- The blocks of the chain from a block on, at most so many. -/
def chainFrom (blocks : Array Block) : Nat → Option BlockId → List BlockId
  | 0, _ | _, none => []
  | limit + 1, some i => i :: chainFrom blocks limit (blocks[i]?.bind Block.next)

/-- The blocks of the chain from a block on. -/
def chain (g : BlockGraph) (i : BlockId) : List BlockId := chainFrom g.blocks g.blocks.size (some i)

/-- The blocks of the chain from one block up to another one. -/
def range (g : BlockGraph) (start stop : BlockId) : List BlockId :=
  (g.chain start).takeWhile fun i => i ≠ stop

/-- The block that stands for the block of a label. -/
def firstOf (g : BlockGraph) (l : Label) : BlockId := g.first ((g.labels.get? l).getD 0)

/-- How control gets to a handler. -/
def handlerKind (h : HandlerRange) : GraphM EdgeKind := do
  match (← get).mode with
  | .maxStack => return .thrown
  | .frames =>
    let object : TypeM SlotType := SlotType.object (h.caught.getD "java/lang/Throwable")
    return .caught (← fun g types =>
      let (answer, types) := object types
      ((answer, g), types))

/-- Adds an edge from each block of a range. -/
def addEdges (e : Edge) (range : List BlockId) (g : BlockGraph) : BlockGraph :=
  range.foldl (fun g i => g.onBlock i (Block.addEdge e)) g

/-- Adds the edges to a handler. -/
def addHandlerEdges (h : HandlerRange) : GraphM Unit := do
  let (start, stop, handler) ← modifyGet fun g =>
    ((g.firstOf h.start, g.firstOf h.stop, g.firstOf h.handler), g)
  if (← get).positionOf start < (← get).positionOf stop then
    let kind ← handlerKind h
    if (← get).mode = .frames then modify (onBlock handler fun b => { b with isTarget := true })
    modify fun g =>
      let range := g.range start stop
      g.addEdges ⟨kind, handler⟩ range

/-- Adds the edges to all handlers. -/
def addAllHandlerEdges : GraphM Unit := do
  for h in (← get).handlers.toList do
    addHandlerEdges h

end ClassFile.BlockGraph
