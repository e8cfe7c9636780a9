import MiddleEnd.IR.Function
import MiddleEnd.IndexSet

/-!
# Reverse postorder

The order in which the analyses visit blocks. A depth-first search from the entry follows the
successors of each block in their order; a block is finished when all of its successors were
followed, and the order lists the blocks from the last one finished to the first.

## Main definitions

* `explore`: the search, with its stack of unfinished blocks.
* `Function.reversePostorder`: the blocks that control can reach, in reverse postorder.
* `Function.orderNumbers`: the place of each block in that order.

## Design notes

The search keeps for each unfinished block the successors that are still to be followed. It ends
because every step either marks a block as seen or takes something off the stack.
-/

namespace MiddleEnd

/-- Searches depth first until the stack is empty. A block that is finished goes to the front of
`order`, so that `order` is always in reverse postorder. Blocks that do not exist are not
entered. -/
def explore (succs : BlockId → List BlockId) (count : Nat) (seen : IndexSet)
    (stack : List (BlockId × List BlockId)) (order : List BlockId) : List BlockId :=
  match stack with
  | [] => order
  | (b, []) :: rest => explore succs count seen rest (b :: order)
  | (b, next :: later) :: rest =>
    if next < count ∧ next ∉ seen then
      explore succs count (seen.insert next) ((next, succs next) :: (b, later) :: rest) order
    else
      explore succs count seen ((b, later) :: rest) order
termination_by ((seen.absent count).length, (stack.flatMap fun entry => entry.1 :: entry.2).length)
decreasing_by
  · exact Prod.Lex.right _ (by simp)
  · rename_i h
    exact Prod.Lex.left _ _ (IndexSet.length_absent_insert_lt h.1 h.2)
  · exact Prod.Lex.right _ (by simp)

namespace Function

/-- All successors that any block names. -/
def allSuccs (f : Function) : List BlockId := f.blocks.toList.flatMap (·.succs)

/-- All predecessors that any block names. -/
def allPreds (f : Function) : List BlockId := f.blocks.toList.flatMap (·.preds)

/-- The blocks that control can reach from the entry, in reverse postorder. -/
def reversePostorder (f : Function) : Except Fault (List BlockId) :=
  if f.blocks.isEmpty then .ok []
  else do
    f.checkBlocks (f.entry :: f.allSuccs)
    return explore f.succs f.blockCount (IndexSet.insert ∅ f.entry) [(f.entry, f.succs f.entry)] []

end Function

/-- The place of each of the first `count` blocks in an order. -/
def orderNumbers (count : Nat) (order : List BlockId) : Array (Option Nat) :=
  ((List.range count).map order.idxOf?).toArray

end MiddleEnd
