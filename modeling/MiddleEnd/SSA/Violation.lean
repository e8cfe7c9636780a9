import MiddleEnd.IR.Function
import MiddleEnd.IndexSet

/-!
# Violations of single assignment form

In single assignment form each register is written once, each register that is read is written
somewhere, and each phi has one argument for each predecessor of its block.

## Main definitions

* `Violation`: one way in which a function falls short.
* `Violation.message`: the violation in words.
* `Function.violations`: all violations of a function.
-/

namespace MiddleEnd

/-- One way in which a function falls short of single assignment form. -/
inductive Violation where
  /-- The function was never brought into the form. -/
  | notInSsaForm
  /-- Several instructions write the register. -/
  | multipleDefinitions (reg : Reg) (count : Nat)
  /-- An instruction of the block reads a register that nothing writes. -/
  | undefinedUse (reg : Reg) (block : BlockId)
  /-- A phi of the block takes a register that nothing writes. -/
  | undefinedPhiArg (reg : Reg) (block pred : BlockId)
  /-- A phi of the block has more or fewer arguments than the block has predecessors. -/
  | phiArityMismatch (block : BlockId) (args preds : Nat)
  /-- A phi of the block has an argument for a block that is no predecessor. -/
  | phiPredNotPredecessor (block pred : BlockId)
  deriving DecidableEq, Repr

namespace Violation

/-- What was violated, without the heading that all violations share. -/
def detail : Violation → String
  | notInSsaForm => "function is not in SSA form"
  | multipleDefinitions reg count => regText reg ++ " defined " ++ toString count ++ " times"
  | undefinedUse reg block => regText reg ++ " used but not defined (" ++ blockText block ++ ")"
  | undefinedPhiArg reg block pred =>
    "PHI arg " ++ regText reg ++ " not defined (" ++ blockText block ++ " pred " ++
      blockText pred ++ ")"
  | phiArityMismatch block args preds =>
    "PHI in " ++ blockText block ++ " has " ++ toString args ++ " args but block has " ++
      toString preds ++ " preds"
  | phiPredNotPredecessor block pred =>
    "PHI in " ++ blockText block ++ " names " ++ blockText pred ++ " which is not a predecessor"

/-- The violation in words. -/
def message (v : Violation) : String := "SSA violation: " ++ v.detail

end Violation

namespace Function

/-- How many instructions write a register. -/
def defCount (f : Function) (r : Reg) : Nat :=
  (f.blocks.toList.flatMap (·.defs)).count r

/-- The registers, among those that were handed out, that an instruction writes or that hold an
argument on entry. -/
def definedRegs (f : Function) : IndexSet :=
  let written := f.blocks.toList.flatMap (·.defs) ++ f.paramVersions.filterMap id
  IndexSet.ofList (written.filter (· < f.regCount))

/-- The register of an operand, if it was handed out and is not among the given ones. -/
def undefinedReg? (f : Function) (defined : IndexSet) (operand : Operand) : Option Reg :=
  operand.reg?.filter fun r => r < f.regCount ∧ r ∉ defined

/-- The registers that are written more than once. -/
def definitionViolations (f : Function) : List Violation :=
  (List.range f.regCount).filterMap fun r =>
    if 1 < f.defCount r then some (.multipleDefinitions r (f.defCount r)) else none

/-- The registers that an instruction reads and nothing writes. -/
def instrViolations (f : Function) (defined : IndexSet) (b : BlockId) (i : Instr) :
    List Violation :=
  [i.src1, i.src2].filterMap (fun operand =>
    (f.undefinedReg? defined operand).map fun r => .undefinedUse r b) ++
  i.phiArgs.filterMap fun arg =>
    (f.undefinedReg? defined arg.value).map fun r => .undefinedPhiArg r b arg.pred

/-- The registers that are read and that nothing writes. -/
def useViolations (f : Function) : List Violation :=
  let defined := f.definedRegs
  f.blocks.toList.flatMap fun block => block.instrs.flatMap (f.instrViolations defined block.id)

end Function

/-- Where the arguments of a phi do not match the predecessors of its block. -/
def Block.phiViolations (block : Block) (phi : Instr) : List Violation :=
  (if phi.phiArgs.length = block.preds.length then []
    else [.phiArityMismatch block.id phi.phiArgs.length block.preds.length]) ++
  (phi.phiArgs.filter fun arg => arg.pred ∉ block.preds).map fun arg =>
    .phiPredNotPredecessor block.id arg.pred

namespace Function

/-- Where the arguments of the phis at the heads of blocks do not match the predecessors. -/
def joinViolations (f : Function) : List Violation :=
  f.blocks.toList.flatMap fun block => block.phis.flatMap block.phiViolations

/-- All violations of a function: registers written more than once, then registers that nothing
writes, then phis that do not match. -/
def violations (f : Function) : List Violation :=
  if f.isSsa then f.definitionViolations ++ f.useViolations ++ f.joinViolations
  else [.notInSsaForm]

/-- Whether a function is in single assignment form. -/
def isValidSsa (f : Function) : Bool := f.violations.isEmpty

end Function

end MiddleEnd
