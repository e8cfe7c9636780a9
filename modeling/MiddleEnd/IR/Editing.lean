import MiddleEnd.IR.Function

/-!
# Editing instructions in place

Changes to single instructions of a finished function.

## Main definitions

* `Function.instr`: the instruction at a position.
* `Function.insertInstr`, `Function.removeInstr`, `Function.duplicateInstr`: change how many there
  are.
* `Function.modifyInstr`: changes one.
-/

namespace MiddleEnd

namespace Function

/-- The instruction at a position of a block. -/
def instr (f : Function) (b position : Nat) : Except Fault Instr := do
  require (.missingInstr b position) (← f.block b).instrs[position]?

/-- Puts an instruction in front of all others of a block. -/
def prependInstr (f : Function) (b : BlockId) (i : Instr) : Except Fault Function := do
  let block ← f.block b
  return f.setBlock b (block.prepend i)

/-- Inserts an instruction so that it stands at `position`, which may be the end of the block. -/
def insertInstr (f : Function) (b : BlockId) (position : Nat) (i : Instr) :
    Except Fault Function := do
  let block ← f.block b
  if block.instrs.length < position then throw (.missingInstr b position)
  return f.setBlock b { block with instrs := block.instrs.insertIdx position i }

/-- Takes out the instruction at a position. -/
def removeInstr (f : Function) (b : BlockId) (position : Nat) :
    Except Fault (Instr × Function) := do
  let i ← f.instr b position
  return (i, f.modifyBlock b fun block => { block with instrs := block.instrs.eraseIdx position })

/-- Inserts another copy of the instruction at `position` so that it stands at `target`. -/
def duplicateInstr (f : Function) (b : BlockId) (position target : Nat) :
    Except Fault Function := do
  f.insertInstr b target (← f.instr b position)

/-- Changes the instruction at a position. -/
def modifyInstr (f : Function) (b : BlockId) (position : Nat)
    (g : Instr → Except Fault Instr) : Except Fault Function := do
  let i ← g (← f.instr b position)
  return f.modifyBlock b fun block => { block with instrs := block.instrs.set position i }

end Function

namespace Instr

/-- The instruction with another destination register. -/
def renameDst (i : Instr) (r : Reg) : Except Fault Instr := do
  return { i with dst := ← i.dst.rename r }

/-- The instruction with one phi argument replaced. -/
def setPhiArg (i : Instr) (position : Nat) (arg : PhiArg) : Except Fault Instr :=
  if position < i.phiArgs.length then .ok (i.mapPhiArgs (·.set position arg))
  else .error (.missingArgument position)

end Instr

end MiddleEnd
