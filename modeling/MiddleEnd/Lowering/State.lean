import MiddleEnd.IR.Function
import MiddleEnd.Syntax.SourceUnit

/-!
# The state of lowering

Lowering a function emits instructions into a current block. Besides the function under construction
it keeps where `break`, `continue` and `goto` lead, and the line that instructions record.

## Main definitions

* `Lowering`: the state.
* `Lowering.pushBreak`, `popBreak`, `pushContinue`, `popContinue`: entering and leaving a construct.
* `LowerM`: actions on the state that may fail.
* `newBlock`, `switchTo`, `emit`, `ensureJump`: blocks and instructions.
* `newTemp`, `varOperand`, `emitUnary`, `emitBinary`: registers.
* `between`, `withLine`, `withBreak`, `withContinue`, `withLoop`: change part of the state for the time of an
  action.

## Design notes

Everything else in lowering is written with these actions alone, so what they keep, lowering keeps.
-/

namespace MiddleEnd

/-- The state of lowering one function. -/
structure Lowering where
  fn : Function
  /-- The string literals of the whole program so far. -/
  texts : Interner
  /-- The block that receives instructions. -/
  current : BlockId
  /-- The line that instructions record. -/
  line : Nat
  /-- Where `break` leads, innermost first. -/
  breakTargets : List BlockId := []
  /-- Where `continue` leads, innermost first. -/
  continueTargets : List BlockId := []
  /-- Where `goto` leads: the first label of each name. -/
  gotoTargets : List (Name × BlockId) := []
  /-- The block of each label statement, the latest first. -/
  labelBlocks : List (StmtId × BlockId) := []
  deriving DecidableEq, Repr

namespace Lowering

/-- `break` leads to the given block from here on. -/
def pushBreak (s : Lowering) (exit : BlockId) : Lowering := { s with breakTargets := exit :: s.breakTargets }

/-- `break` leads where it led before the last target was pushed. -/
def popBreak (s : Lowering) : Lowering := { s with breakTargets := s.breakTargets.tail }

/-- `continue` leads to the given block from here on. -/
def pushContinue (s : Lowering) (next : BlockId) : Lowering :=
  { s with continueTargets := next :: s.continueTargets }

/-- `continue` leads where it led before the last target was pushed. -/
def popContinue (s : Lowering) : Lowering := { s with continueTargets := s.continueTargets.tail }

end Lowering

/-- Actions on the state of lowering. -/
abbrev LowerM := StateT Lowering (Except Fault)

namespace LowerM

-- ════════════════════════════════════════════════════════════════════════
-- Blocks and instructions
-- ════════════════════════════════════════════════════════════════════════

/-- Appends a block. -/
def newBlock (label : String) : LowerM BlockId := fun s =>
  let (b, fn) := s.fn.newBlock (some label)
  .ok (b, { s with fn })

/-- Makes a block current. -/
def switchTo (b : BlockId) : LowerM Unit :=
  modify fun s => { s with current := b }

/-- The current block. -/
def current : LowerM BlockId := do return (← get).current

/-- Whether the current block ends in a terminator. -/
def isTerminated : LowerM Bool := do
  let s ← get
  return (← s.fn.block s.current).isTerminated

/-- Appends an instruction to the current block. The instruction is given as a function of its
line. -/
def emit (instr : Nat → Instr) : LowerM Unit := do
  let s ← get
  let fn ← s.fn.emit s.current (instr s.line)
  set { s with fn }

/-- Ends the current block with a jump, unless it ends in a terminator already. -/
def ensureJump (target : BlockId) : LowerM Unit := do
  unless ← isTerminated do
    emit (.jump target)

-- ════════════════════════════════════════════════════════════════════════
-- Registers
-- ════════════════════════════════════════════════════════════════════════

/-- A new register. -/
def newTemp (ty : Option TypeId) : LowerM Operand := fun s =>
  let (r, fn) := s.fn.newReg
  .ok (.reg r ty, { s with fn })

/-- The register of a variable, which is entered on its first use. -/
def varOperand (name : Name) (ty : Option TypeId) : LowerM Operand := fun s =>
  let (r, fn) := s.fn.varLookup name ty
  .ok (.reg r ty, { s with fn })

/-- The number of a string literal. -/
def internText (text : String) : LowerM TextId := fun s =>
  let (id, texts) := s.texts.intern text
  .ok (id, { s with texts })

/-- Computes a new register from one source. -/
def emitUnary (opcode : Opcode) (ty : Option TypeId) (src : Operand) : LowerM Operand := do
  let dst ← newTemp ty
  emit (.unary opcode dst src)
  return dst

/-- Computes a new register from two sources. -/
def emitBinary (opcode : Opcode) (ty : Option TypeId) (lhs rhs : Operand) : LowerM Operand := do
  let dst ← newTemp ty
  emit (.binary opcode dst lhs rhs)
  return dst

/-- Writes a variable. -/
def writeVar (name : Name) (ty : Option TypeId) (value : Operand) : LowerM Unit := do
  let var ← varOperand name ty
  emit (.unary .copy var value)

-- ════════════════════════════════════════════════════════════════════════
-- Scopes
-- ════════════════════════════════════════════════════════════════════════

/-- Runs an action between two changes of the state. -/
def between {α : Type} (enter leave : Lowering → Lowering) (act : LowerM α) : LowerM α := do
  modify enter
  let result ← act
  modify leave
  return result

/-- Runs an action with another line. -/
def withLine {α : Type} (line : Nat) (act : LowerM α) : LowerM α := do
  let saved := (← get).line
  between (fun s => { s with line }) (fun s => { s with line := saved }) act

/-- Runs an action inside a construct that `break` leaves for `exit`. The target is popped again behind the
action, which has to leave the targets as they were. -/
def withBreak {α : Type} (exit : BlockId) (act : LowerM α) : LowerM α :=
  between (·.pushBreak exit) (·.popBreak) act

/-- Runs an action inside a loop that `continue` repeats at `next`. -/
def withContinue {α : Type} (next : BlockId) (act : LowerM α) : LowerM α :=
  between (·.pushContinue next) (·.popContinue) act

/-- Runs an action inside a loop that `break` leaves for `exit` and `continue` repeats at `next`. -/
def withLoop {α : Type} (exit next : BlockId) (act : LowerM α) : LowerM α :=
  withBreak exit (withContinue next act)

end LowerM

end MiddleEnd
