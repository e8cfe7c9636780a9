import MiddleEnd.IR.Opcode
import MiddleEnd.IR.Operand

/-!
# Instructions

An instruction has an operation, a destination, two sources and the source line it comes from. Three
operations need more than that: a branch has a second target, a switch has a table of cases, and a
phi has one argument per predecessor.

## Main definitions

* `Instr`: one instruction.
* `Instr.unary`, `Instr.binary`, `Instr.jump`, ...: the usual instructions.
* `Instr.def?`, `Instr.uses`: the registers that are written and read.
* `Instr.targets`: where control may go.
* `Instr.agrees`: equality in which floating constants are compared as numbers.

## Design notes

A jump keeps its target in the first source. A branch keeps its condition in the first source and
the target for a condition that holds in the second. A store writes the second source to the address
in the first and has no destination. A call keeps the callee in the first source and the number of
its arguments in the second.
-/

namespace MiddleEnd

/-- An entry of a switch: the value that selects it and where it leads. -/
structure SwitchCase where
  value : Int
  target : BlockId
  deriving DecidableEq, Repr

/-- An argument of a phi: the value that is taken when control comes from `pred`. -/
structure PhiArg where
  value : Operand
  pred : BlockId
  deriving DecidableEq, Repr

/-- What an instruction carries besides its operands. -/
inductive Detail where
  | none
  /-- Where a branch leads when its condition does not hold. -/
  | branch (falseTarget : BlockId)
  /-- The entries of a switch, and where it leads when no entry matches. -/
  | switch (cases : List SwitchCase) (fallback : BlockId)
  /-- The variable that a phi joins, if it joins one, and its arguments. -/
  | phi (var : Option VarId) (args : List PhiArg)
  deriving DecidableEq, Repr

/-- One instruction. -/
structure Instr where
  opcode : Opcode
  dst : Operand := .none
  src1 : Operand := .none
  src2 : Operand := .none
  line : Nat
  detail : Detail := .none
  deriving DecidableEq, Repr

namespace Instr

-- ════════════════════════════════════════════════════════════════════════
-- The usual instructions
-- ════════════════════════════════════════════════════════════════════════

/-- Computes `dst` from one source. -/
def unary (opcode : Opcode) (dst src : Operand) (line : Nat) : Instr :=
  { opcode, dst, src1 := src, line }

/-- Computes `dst` from two sources. -/
def binary (opcode : Opcode) (dst lhs rhs : Operand) (line : Nat) : Instr :=
  { opcode, dst, src1 := lhs, src2 := rhs, line }

/-- Writes `value` to the address `addr`. -/
def store (addr value : Operand) (line : Nat) : Instr :=
  { opcode := .store, src1 := addr, src2 := value, line }

/-- Hands an argument to the next call. -/
def param (value : Operand) (line : Nat) : Instr :=
  { opcode := .param, src1 := value, line }

/-- Goes to `target`. -/
def jump (target : BlockId) (line : Nat) : Instr :=
  { opcode := .jump, src1 := .label target, line }

/-- Goes to `trueTarget` if the condition holds and to `falseTarget` otherwise. -/
def branch (cond : Operand) (trueTarget falseTarget : BlockId) (line : Nat) : Instr :=
  { opcode := .branch, src1 := cond, src2 := .label trueTarget, line,
    detail := .branch falseTarget }

/-- Goes to the entry that the value selects, or to `fallback`. -/
def switch (value : Operand) (cases : List SwitchCase) (fallback : BlockId) (line : Nat) : Instr :=
  { opcode := .switch, src1 := value, line, detail := .switch cases fallback }

/-- Leaves the function with a value, or with none. -/
def ret (value : Operand) (line : Nat) : Instr :=
  { opcode := .ret, src1 := value, line }

/-- Does nothing. -/
def nop (line : Nat) : Instr :=
  { opcode := .nop, line }

/-- Takes the argument that belongs to the block control came from. -/
def phi (dst : Operand) (var : Option VarId) (args : List PhiArg) (line : Nat) : Instr :=
  { opcode := .phi, dst, line, detail := .phi var args }

-- ════════════════════════════════════════════════════════════════════════
-- Parts
-- ════════════════════════════════════════════════════════════════════════

/-- Whether control leaves the block here. -/
def isTerminator (i : Instr) : Bool := i.opcode.isTerminator

/-- Whether the operation is a phi. -/
def isPhi (i : Instr) : Bool := i.opcode == .phi

/-- The variable that a phi joins. -/
def phiVar? (i : Instr) : Option VarId :=
  match i.detail with
  | .phi var _ => var
  | _ => none

/-- The arguments of a phi. -/
def phiArgs (i : Instr) : List PhiArg :=
  match i.detail with
  | .phi _ args => args
  | _ => []

/-- The instruction with its phi arguments changed; other instructions have none. -/
def mapPhiArgs (g : List PhiArg → List PhiArg) (i : Instr) : Instr :=
  match i.detail with
  | .phi var args => { i with detail := .phi var (g args) }
  | _ => i

/-- Where a branch leads when its condition does not hold. -/
def falseTarget? (i : Instr) : Option BlockId :=
  match i.detail with
  | .branch falseTarget => some falseTarget
  | _ => none

/-- The entries of a switch. -/
def cases (i : Instr) : List SwitchCase :=
  match i.detail with
  | .switch cases _ => cases
  | _ => []

/-- Where a switch leads when no entry matches. -/
def fallback? (i : Instr) : Option BlockId :=
  match i.detail with
  | .switch _ fallback => some fallback
  | _ => none

/-- The register that the instruction writes. -/
def def? (i : Instr) : Option Reg := i.dst.reg?

/-- The registers that the instruction reads, phi arguments included. -/
def uses (i : Instr) : List Reg :=
  i.src1.reg?.toList ++ i.src2.reg?.toList ++ i.phiArgs.filterMap (·.value.reg?)

/-- Where control may go after a terminator, in the order of its edges. Other instructions lead
nowhere. -/
def targets (i : Instr) : List BlockId :=
  match i.opcode with
  | .jump => i.src1.label?.toList
  | .branch => i.src2.label?.toList ++ i.falseTarget?.toList
  | .switch => i.cases.map (·.target) ++ i.fallback?.toList
  | _ => []

end Instr

-- ════════════════════════════════════════════════════════════════════════
-- Agreement
-- ════════════════════════════════════════════════════════════════════════

/-- Whether two arguments are equal, with floating constants compared as numbers. -/
def PhiArg.agrees (a b : PhiArg) : Bool := a.value.agrees b.value && a.pred == b.pred

/-- Whether two lists of arguments agree element by element. -/
def PhiArg.allAgree : List PhiArg → List PhiArg → Bool
  | [], [] => true
  | a :: as, b :: bs => a.agrees b && allAgree as bs
  | _, _ => false

/-- Whether two details are equal, with floating constants compared as numbers. -/
def Detail.agrees : Detail → Detail → Bool
  | .phi var args, .phi var' args' => var == var' && PhiArg.allAgree args args'
  | a, b => a == b

/-- Whether two instructions are equal, with floating constants compared as numbers. -/
def Instr.agrees (a b : Instr) : Bool :=
  a.opcode == b.opcode && a.dst.agrees b.dst && a.src1.agrees b.src1 && a.src2.agrees b.src2 &&
    a.line == b.line && a.detail.agrees b.detail

end MiddleEnd
