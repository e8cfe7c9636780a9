import MiddleEnd.IR.Function

/-!
# Edges

The edges of a function follow from how its blocks end. A block that ends in a terminator leads
where the terminator says; any other block falls through to the next one.

## Main definitions

* `Function.addEdge`: adds one edge.
* `Function.targets`: where a block leads.
* `Function.buildEdges`: derives all edges, and puts the arguments of phis in the order of the
  predecessors.
-/

namespace MiddleEnd

namespace Function

/-- Adds the edge `source ⟶ target`, unless it is there already or leads out of the function. -/
def link (f : Function) (source target : BlockId) : Function :=
  if f.blocks.size ≤ target ∨ target ∈ f.succs source then f
  else
    let f := f.modifyBlock source fun b => { b with succs := b.succs ++ [target] }
    f.modifyBlock target fun b => { b with preds := b.preds ++ [source] }

/-- Adds one edge. An edge out of the function is ignored; one from outside is a fault. -/
def addEdge (f : Function) (source target : BlockId) : Except Fault Function :=
  if target < f.blocks.size ∧ f.blocks.size ≤ source then .error (.missingBlock source)
  else .ok (f.link source target)

/-- Where a block leads. A block that does not end in a terminator falls through. -/
def targets (f : Function) (b : BlockId) : List BlockId :=
  match f.blocks[b]?.bind (·.terminator?) with
  | some last => last.targets
  | none => if b + 1 < f.blocks.size then [b + 1] else []

/-- All edges in the order in which they are added. -/
def edges (f : Function) : List (BlockId × BlockId) :=
  f.blockIds.flatMap fun b => (f.targets b).map fun target => (b, target)

/-- The function without edges. -/
def clearEdges (f : Function) : Function :=
  f.mapBlocks fun b => { b with preds := [], succs := [] }

end Function

/-- The arguments of a phi in the order of the predecessors. Arguments from elsewhere keep their
order and come last. -/
def alignArgs (preds : List BlockId) (args : List PhiArg) : List PhiArg :=
  args.mergeSort fun a b => preds.idxOf a.pred ≤ preds.idxOf b.pred

/-- Aligns the arguments of the phis at the head of a block. -/
def Block.alignPhis (b : Block) : Block :=
  b.mapPhis (·.mapPhiArgs (alignArgs b.preds))

/-- Derives all edges from the ends of the blocks, and aligns the phis. -/
def Function.buildEdges (f : Function) : Function :=
  let linked := f.edges.foldl (fun g edge => g.link edge.1 edge.2) f.clearEdges
  linked.mapBlocks (·.alignPhis)

end MiddleEnd
