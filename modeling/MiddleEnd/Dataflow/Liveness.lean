import MiddleEnd.Dataflow.Flow
import MiddleEnd.Dominance.Order

/-!
# Live registers

A register is live where its value may still be read. An argument of a phi is read at the end of the
predecessor it belongs to, not in the block of the phi; the arguments of a function are written by
its entry.

The tables of the analysis have an entry for each block. What belongs to a block is kept at the number that
the block carries.

## Main definitions

* `Liveness`: the registers that each block writes, reads first, and finds live at its ends.
* `Function.blockSets`: what each block writes and reads first.
* `Function.liveness`: the analysis of a function.
* `Liveness.isLiveIn`, `Liveness.isLiveOut`: whether a register is live at an end of a block.
* `Liveness.render`: the analysis as text.
-/

namespace MiddleEnd

/-- The result of the analysis, block by block. -/
structure Liveness where
  /-- The registers that a block writes. -/
  defs : Array IndexSet
  /-- The registers whose value on entry a block reads, or that it hands to a phi. -/
  uses : Array IndexSet
  liveIn : Array IndexSet
  liveOut : Array IndexSet
  deriving DecidableEq, Repr

-- ════════════════════════════════════════════════════════════════════════
-- What a block writes and reads
-- ════════════════════════════════════════════════════════════════════════

/-- Adds the register of an operand to `used`, unless it is already written or was never handed
out. -/
def collectUse (regCount : Nat) (defined used : IndexSet) (operand : Operand) : IndexSet :=
  match operand.reg? with
  | some r => if r < regCount ∧ r ∉ defined then used.insert r else used
  | none => used

/-- What a block writes, and what it reads of the values on entry to it. -/
structure BlockSets where
  /-- The registers that the block writes. -/
  defs : IndexSet := ∅
  /-- The registers whose value on entry the block reads, or that it hands to a phi. -/
  uses : IndexSet := ∅
  deriving DecidableEq, Repr

namespace BlockSets

/-- Adds a register that is written. It was handed out. -/
def write (regCount : Nat) (sets : BlockSets) (r : Reg) : Except Fault BlockSets :=
  if r < regCount then .ok { sets with defs := sets.defs.insert r } else .error (.missingRegister r)

/-- Adds the registers that operands are read from, unless they are already written. -/
def read (regCount : Nat) (operands : List Operand) (sets : BlockSets) : BlockSets :=
  { sets with uses := operands.foldl (collectUse regCount sets.defs) sets.uses }

/-- Adds what an instruction reads and writes. A phi reads nothing here. -/
def scan (regCount : Nat) (sets : BlockSets) (i : Instr) : Except Fault BlockSets :=
  let sets := if i.isPhi then sets else sets.read regCount [i.src1, i.src2]
  match i.def? with
  | some r => sets.write regCount r
  | none => .ok sets

end BlockSets

namespace Function

/-- Changes, block by block, the entry of a table that has the number of the block. -/
def forBlocks {α : Type} (f : Function) (step : Block → α → Except Fault α) (table : Array α) :
    Except Fault (Array α) :=
  f.blocks.toList.foldlM (fun table block => do
    let entry ← require (.missingBlock block.id) table[block.id]?
    return table.setIfInBounds block.id (← step block entry)) table

/-- What is known before any instruction: the entry writes the arguments of the function. -/
def argumentSets (f : Function) : Except Fault (Array BlockSets) :=
  let table := Array.replicate f.blockCount {}
  if f.entry < f.blockCount then do
    let sets ← (f.paramVersions.filterMap id).foldlM (BlockSets.write f.regCount) {}
    return table.setIfInBounds f.entry sets
  else .ok table

/-- The values that a block hands to the phis of its successors. -/
def edgeValues (f : Function) (block : Block) : Except Fault (List Operand) := do
  let phis ← block.succs.mapM fun succ => do return (← f.block succ).phis
  return phis.flatten.flatMap fun phi => (phi.phiArgs.filter (·.pred == block.id)).map (·.value)

/-- What each block writes and reads. The values that blocks hand to phis are added when all instructions of
all blocks have been seen. -/
def blockSets (f : Function) : Except Fault (Array BlockSets) := do
  let table ← f.forBlocks (fun block sets => block.instrs.foldlM (BlockSets.scan f.regCount) sets)
    (← f.argumentSets)
  f.forBlocks (fun block sets => do return sets.read f.regCount (← f.edgeValues block)) table

-- ════════════════════════════════════════════════════════════════════════
-- The analysis
-- ════════════════════════════════════════════════════════════════════════

/-- The flow equations of liveness, given what each block writes and reads: facts flow from the successors, in
reverse block order. -/
def livenessFlow (f : Function) (table : Array BlockSets) : Flow where
  blockCount := f.blockCount
  factCount := f.regCount
  order := f.blockIds.reverse
  sources := f.succs
  gen := table.map (·.uses)
  kill := table.map (·.defs)

/-- The live registers of a function. -/
def liveness (f : Function) : Except Fault Liveness := do
  let flow := f.livenessFlow (← f.blockSets)
  let sets := flow.solve
  return { defs := flow.kill, uses := flow.gen, liveIn := sets.result, liveOut := sets.gathered }

end Function

namespace Liveness

/-- Whether a register is live at the start of a block. -/
def isLiveIn (l : Liveness) (b : BlockId) (r : Reg) : Except Fault Bool := do
  return (← require (.missingBlock b) l.liveIn[b]?).contains r

/-- Whether a register is live at the end of a block. -/
def isLiveOut (l : Liveness) (b : BlockId) (r : Reg) : Except Fault Bool := do
  return (← require (.missingBlock b) l.liveOut[b]?).contains r

/-- A set of registers as one line. -/
def setLine (title : String) (s : IndexSet) : String :=
  "    ; " ++ title ++ "(" ++ toString s.card ++ "):" ++
    String.join (s.toList.map fun r => " " ++ regText r) ++ "\n"

/-- The lines of a block. -/
def blockLines (l : Liveness) (block : Block) : Except Fault String := do
  let liveIn ← require (.missingBlock block.id) l.liveIn[block.id]?
  let liveOut ← require (.missingBlock block.id) l.liveOut[block.id]?
  return "  " ++ block.label ++ " (" ++ blockText block.id ++ "):\n" ++ setLine "live_in" liveIn ++
    setLine "live_out" liveOut

/-- The analysis of a function as text. -/
def render (l : Liveness) (f : Function) : Except Fault String := do
  return String.join (← f.blocks.toList.mapM l.blockLines)

end Liveness

end MiddleEnd
