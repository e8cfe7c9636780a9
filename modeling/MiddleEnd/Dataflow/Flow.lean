import MiddleEnd.Descent
import MiddleEnd.IR.Function
import MiddleEnd.IndexSet

/-!
# Flow equations

Live registers and reaching definitions solve the same equations. Each block gathers the facts of
the blocks it depends on, drops some of them and adds its own:

* `gathered b` is the union of `result a` over the sources `a` of `b`;
* `result b` is `gathered b` without `kill b`, together with `gen b`.

The least solution is found by sweeping over the blocks, starting from nothing, until a sweep
changes nothing.

## Main definitions

* `Flow`: the data of the equations.
* `FlowSets`: a set of facts before and after each block.
* `Flow.solve`: the least solution.

## Design notes

From nothing, the sets only grow, and they stay within the facts there are. So the room that they
leave shrinks with each sweep that changes something, and `descend` watches it.
-/

namespace MiddleEnd

/-- The data of a system of flow equations. -/
structure Flow where
  /-- How many blocks there are. -/
  blockCount : Nat
  /-- How many facts there are. -/
  factCount : Nat
  /-- The order in which a sweep visits the blocks. -/
  order : List BlockId
  /-- The blocks whose facts a block gathers. -/
  sources : BlockId → List BlockId
  /-- The facts that a block adds. -/
  gen : Array IndexSet
  /-- The facts that a block drops. -/
  kill : Array IndexSet

/-- The facts that each block gathers, and the facts that it passes on. -/
structure FlowSets where
  gathered : Array IndexSet
  result : Array IndexSet
  deriving DecidableEq, Repr

/-- The set of facts in a table at a block. -/
def factsAt (table : Array IndexSet) (b : BlockId) : IndexSet := table[b]?.getD ∅

namespace Flow

/-- No facts anywhere. -/
def start (flow : Flow) : FlowSets where
  gathered := Array.replicate flow.blockCount ∅
  result := Array.replicate flow.blockCount ∅

/-- The facts that a block gathers. -/
def gather (flow : Flow) (sets : FlowSets) (b : BlockId) : IndexSet :=
  IndexSet.unions ((flow.sources b).map (factsAt sets.result))

/-- The facts that a block passes on. -/
def transfer (flow : Flow) (b : BlockId) (facts : IndexSet) : IndexSet :=
  (facts \ factsAt flow.kill b) ∪ factsAt flow.gen b

/-- Renews the sets of one block. -/
def renew (flow : Flow) (sets : FlowSets) (b : BlockId) : FlowSets :=
  let facts := flow.gather sets b
  { gathered := sets.gathered.setIfInBounds b facts
    result := sets.result.setIfInBounds b (flow.transfer b facts) }

/-- Renews the sets of all blocks in turn. -/
def sweep (flow : Flow) (sets : FlowSets) : FlowSets := flow.order.foldl flow.renew sets

/-- How much room the sets leave for further facts. -/
def room (flow : Flow) (sets : FlowSets) : Nat :=
  total ((sets.gathered.toList ++ sets.result.toList).map (·.room flow.factCount))

/-- The least solution of the equations. -/
def solve (flow : Flow) : FlowSets := descend flow.room flow.sweep flow.start

end Flow

end MiddleEnd
