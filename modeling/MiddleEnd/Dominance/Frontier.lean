import MiddleEnd.IR.Function

/-!
# Dominance frontiers

The frontier of a block holds the joins at which its dominance ends: it dominates a predecessor of
the join, but not the join strictly. From each predecessor of a join, all blocks on the way up to
the join's immediate dominator have the join in their frontier.

## Main definitions

* `Function.pathUp`: the blocks on the way up from a block.
* `Function.withFrontiers`: the function with all frontiers recorded in its blocks.
-/

namespace MiddleEnd

namespace Function

/-- The blocks from `b` up to, and without, `stop`, but at most `steps` of them. -/
def pathUp (f : Function) (stop : Option BlockId) : Nat → BlockId → Except Fault (List BlockId)
  | 0, _ => .ok []
  | steps + 1, b =>
    if some b = stop then .ok []
    else do
      match (← f.block b).idom with
      | some parent => return b :: (← f.pathUp stop steps parent)
      | none => return [b]

/-- Puts a join into the frontier of a block, unless it is there already. -/
def addFrontier (join : BlockId) (f : Function) (b : BlockId) : Function :=
  f.modifyBlock b fun block =>
    if join ∈ block.frontier then block
    else { block with frontier := block.frontier ++ [join] }

/-- Puts a block with several predecessors into the frontiers of the blocks on the ways up from
them. No way up is longer than there are blocks. -/
def spreadJoin (f : Function) (join : BlockId) : Except Fault Function :=
  if (f.preds join).length < 2 then .ok f
  else do
    let paths ← (f.preds join).mapM (f.pathUp (f.idom? join) (f.blockCount + 1))
    return paths.flatten.foldl (addFrontier join) f

/-- Records the frontier of each block. -/
def withFrontiers (f : Function) : Except Fault Function :=
  f.blockIds.foldlM spreadJoin (f.mapBlocks fun block => { block with frontier := [] })

end Function

end MiddleEnd
