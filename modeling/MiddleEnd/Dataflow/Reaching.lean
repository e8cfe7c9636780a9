import MiddleEnd.Dataflow.Flow
import MiddleEnd.Dominance.Order

/-!
# Reaching definitions

A definition reaches a point if control can come from it to the point without passing another
definition of the same register.

## Main definitions

* `DefPoint`: an instruction that writes a register.
* `ReachingDefs`: the definitions that reach the ends of each block, as positions in a list.
* `Function.reachingDefs`: the analysis of a function.
* `ReachingDefs.definitionsOf`: the definitions of a register that reach a block.
-/

namespace MiddleEnd

/-- An instruction that writes a register: the number that its block carries, the register, and its position. -/
structure DefPoint where
  block : BlockId
  reg : Reg
  index : Nat
  deriving DecidableEq, Repr

/-- The result of the analysis, block by block. The sets hold positions in `defs`. -/
structure ReachingDefs where
  /-- All definitions in block and instruction order. -/
  defs : List DefPoint
  /-- The definitions of a block that reach its end. -/
  gen : Array IndexSet
  /-- The definitions that a block overwrites. -/
  kill : Array IndexSet
  reachIn : Array IndexSet
  reachOut : Array IndexSet
  deriving DecidableEq, Repr

/-- The definitions of one block, with their positions in the list of all definitions. -/
def defsIn (defs : List DefPoint) (b : BlockId) : List (DefPoint × Nat) :=
  defs.zipIdx.filter (·.1.block == b)

/-- The last definition of each register in a block. -/
def genSet (defs : List DefPoint) (b : BlockId) : IndexSet :=
  let here := defsIn defs b
  let lasts := here.filter fun (d, i) => here.all fun (e, j) => e.reg != d.reg || j ≤ i
  IndexSet.ofList (lasts.map (·.2))

/-- The definitions that share a register with another definition, which is in the block. -/
def killSet (defs : List DefPoint) (b : BlockId) : IndexSet :=
  let here := defsIn defs b
  let killed := defs.zipIdx.filter fun (d, i) => here.any fun (e, j) => e.reg == d.reg && j != i
  IndexSet.ofList (killed.map (·.2))

namespace Function

/-- All definitions in block and instruction order. -/
def defPoints (f : Function) : List DefPoint :=
  f.blocks.toList.flatMap fun block =>
    block.instrs.zipIdx.filterMap fun (i, index) => i.def?.map fun r => ⟨block.id, r, index⟩

/-- The flow equations of reaching definitions: facts flow from the predecessors, in block order. -/
def reachingFlow (f : Function) : Flow where
  blockCount := f.blockCount
  factCount := f.defPoints.length
  order := f.blockIds
  sources := f.preds
  gen := (f.blockIds.map (genSet f.defPoints)).toArray
  kill := (f.blockIds.map (killSet f.defPoints)).toArray

/-- The reaching definitions of a function. -/
def reachingDefs (f : Function) : Except Fault ReachingDefs := do
  f.checkBlocks (f.defPoints.map (·.block) ++ f.allPreds)
  let flow := f.reachingFlow
  let sets := flow.solve
  return {
    defs := f.defPoints
    gen := flow.gen
    kill := flow.kill
    reachIn := sets.gathered
    reachOut := sets.result }

end Function

/-- The definitions of a register that reach the start of a block. -/
def ReachingDefs.definitionsOf (r : ReachingDefs) (b : BlockId) (reg : Reg) :
    Except Fault (List DefPoint) := do
  let reaching ← require (.missingBlock b) r.reachIn[b]?
  return (reaching.toList.filterMap (r.defs[·]?)).filter (·.reg == reg)

end MiddleEnd
