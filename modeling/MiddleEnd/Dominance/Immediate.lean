import MiddleEnd.Descent
import MiddleEnd.Dominance.Order

/-!
# Immediate dominators

A block dominates another if control cannot reach the second without passing the first. The nearest
strict dominator of each block is found by iteration: sweeps over the blocks in reverse postorder
replace each guess by the nearest common ancestor of the predecessors, until nothing changes.

## Main definitions

* `Guesses`: the current guess for each block.
* `Guesses.meet`: the nearest common ancestor of two blocks.
* `Guesses.candidate`: the guess that the predecessors of a block suggest.
* `Function.immediateDominators`: the result of the iteration.
* `Function.withDominators`: the function with the result recorded in its blocks.

## Design notes

During the iteration the entry is its own guess, and a block without a guess has not been reached
yet. Guesses only ever move towards the entry, so the sum of their places in the order falls with
each change, and `descend` watches that sum.
-/

namespace MiddleEnd

/-- The current guess for the immediate dominator of each block. -/
abbrev Guesses := Array (Option BlockId)

namespace Guesses

/-- The guess for a block. -/
def get? (guesses : Guesses) (b : BlockId) : Option BlockId := guesses[b]?.join

/-- The nearest common ancestor of two blocks. The block that comes later in the order moves up to
its guess, as long as that guess comes earlier. -/
def meet (guesses : Guesses) (place : BlockId → Nat) (a b : BlockId) : BlockId :=
  if a = b then a
  else if place b < place a then
    match guesses.get? a with
    | some parent => if place parent < place a then guesses.meet place parent b else a
    | none => a
  else
    match guesses.get? b with
    | some parent => if place parent < place b then guesses.meet place a parent else a
    | none => a
termination_by place a + place b

/-- The common ancestor of the predecessors that already have a guess. -/
def candidate (guesses : Guesses) (place : BlockId → Nat) (preds : List BlockId) :
    Option BlockId :=
  preds.foldl (fun best pred =>
    match guesses.get? pred, best with
    | none, best => best
    | some _, none => some pred
    | some _, some current => some (guesses.meet place current pred)) none

/-- Renews the guess for one block. -/
def renew (place : BlockId → Nat) (preds : BlockId → List BlockId) (guesses : Guesses)
    (b : BlockId) : Guesses :=
  match guesses.candidate place (preds b) with
  | some guess => guesses.setIfInBounds b (some guess)
  | none => guesses

/-- Renews the guesses for all the given blocks in turn. -/
def sweep (place : BlockId → Nat) (preds : BlockId → List BlockId) (blocks : List BlockId)
    (guesses : Guesses) : Guesses :=
  blocks.foldl (renew place preds) guesses

/-- How far the guesses are from the entry, where a block without a guess counts as `count`. -/
def distance (place : BlockId → Nat) (count : Nat) (guesses : Guesses) : Nat :=
  total (guesses.toList.map fun guess => (guess.map place).getD count)

end Guesses

namespace Function

/-- The immediate dominators of all blocks. The entry and the blocks that control cannot reach have
none. -/
def immediateDominators (f : Function) : Except Fault Guesses := do
  let order ← f.reversePostorder
  f.checkBlocks f.allPreds
  let numbers := orderNumbers f.blockCount order
  let place b := numbers[b]?.join.getD 0
  let start := (Array.replicate f.blockCount none).setIfInBounds f.entry (some f.entry)
  let guesses := descend (Guesses.distance place f.blockCount)
    (Guesses.sweep place f.preds order.tail) start
  return guesses.setIfInBounds f.entry none

/-- Records the immediate dominator of each block. -/
def withDominators (f : Function) : Except Fault Function := do
  let guesses ← f.immediateDominators
  return { f with blocks := f.blocks.mapIdx fun b block => { block with idom := guesses.get? b } }

end Function

end MiddleEnd
