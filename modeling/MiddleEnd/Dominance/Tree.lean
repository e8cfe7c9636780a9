import MiddleEnd.Dominance.Order

/-!
# The dominator tree

The immediate dominators that the blocks record, read as a tree.

## Main definitions

* `DomTree`: the tree, with the order of the blocks that control can reach.
* `DomTree.ofFunction`: the tree of a function.
* `DomTree.dominates`, `DomTree.strictlyDominates`: dominance.
* `DomTree.roots`: where a walk over all blocks starts.
-/

namespace MiddleEnd

/-- The dominator tree of a function. -/
structure DomTree where
  /-- The immediate dominator of each block. -/
  parents : Array (Option BlockId)
  /-- The blocks that each block dominates immediately, in ascending order. -/
  children : Array (List BlockId)
  /-- The blocks that control can reach, in reverse postorder. -/
  order : List BlockId
  entry : BlockId
  deriving DecidableEq, Repr

/-- The other blocks that record `b` as their immediate dominator. -/
def Function.domChildren (f : Function) (b : BlockId) : List BlockId :=
  f.blockIds.filter fun child => f.idom? child = some b ∧ child ≠ b

/-- The immediate dominators that other blocks record. -/
def Function.domParents (f : Function) : List BlockId :=
  f.blockIds.filterMap fun b => (f.idom? b).filter (· ≠ b)

namespace DomTree

/-- The tree of the immediate dominators that the blocks of a function record. -/
def ofFunction (f : Function) : Except Fault DomTree := do
  f.checkBlocks f.domParents
  let order ← f.reversePostorder
  return {
    parents := f.blocks.map (·.idom)
    children := (f.blockIds.map f.domChildren).toArray
    order
    entry := f.entry }

/-- How many blocks there are. -/
def blockCount (t : DomTree) : Nat := t.parents.size

/-- The blocks in the tree. -/
def blockIds (t : DomTree) : List BlockId := List.range t.parents.size

/-- The place of a block in the order, if control can reach it. -/
def number? (t : DomTree) (b : BlockId) : Option Nat := t.order.idxOf? b

/-- Whether control can reach a block. -/
def isReachable (t : DomTree) (b : BlockId) : Bool := t.order.contains b

/-- The blocks that a block dominates immediately. -/
def childrenOf (t : DomTree) (b : BlockId) : List BlockId := t.children[b]?.getD []

/-- Whether `a` is among the next `steps` ancestors of `b`. -/
def hasAncestor (t : DomTree) (a : BlockId) : Nat → BlockId → Except Fault Bool
  | 0, _ => .ok false
  | steps + 1, b => do
    match ← require (.missingBlock b) t.parents[b]? with
    | none => return false
    | some parent => if parent = a then return true else t.hasAncestor a steps parent

/-- Whether `a` dominates `b`. A block that control cannot reach is dominated by itself alone. No
chain of ancestors is longer than there are blocks. -/
def dominates (t : DomTree) (a b : BlockId) : Except Fault Bool :=
  if a = b then .ok true
  else if t.blockCount ≤ b then .error (.missingBlock b)
  else if t.isReachable b then t.hasAncestor a (t.blockCount + 1) b
  else .ok false

/-- Whether `a` dominates `b` and differs from it. -/
def strictlyDominates (t : DomTree) (a b : BlockId) : Except Fault Bool :=
  if a = b then .ok false else t.dominates a b

/-- Where a walk over all blocks starts: at the entry, and at each block that control cannot
reach. -/
def roots (t : DomTree) : List BlockId :=
  if t.parents.isEmpty then []
  else t.entry :: t.blockIds.filter fun b => b ≠ t.entry ∧ !t.isReachable b

end DomTree

end MiddleEnd
