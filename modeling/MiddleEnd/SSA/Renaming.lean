import MiddleEnd.Dominance.Tree

/-!
# Renaming variables

After renaming, each instruction that wrote the register of a variable writes a register of its own,
a version of the variable, and each use reads the version that reaches it. The versions in force are
kept on a stack for each variable. A walk over the dominator tree pushes the versions that a block
makes when it enters the block and pops them when it leaves it, so that at any time the stacks hold
what the blocks above have made.

## Main definitions

* `Versions`: the stacks, and the counter from which versions are taken.
* `renamePhi`, `renameInstr`: rename one instruction.
* `DomTree.tour`: the walk over a tree, as the list of its visits.
* `Renamer.visit`: what one visit does.
* `Function.renameVariables`: renames a function.

## Design notes

A use of a variable with no version in force reads the constant zero. Blocks that control cannot
reach are walked as trees of their own.
-/

namespace MiddleEnd

-- ════════════════════════════════════════════════════════════════════════
-- Versions
-- ════════════════════════════════════════════════════════════════════════

/-- The versions in force while a block is renamed. -/
structure Versions where
  /-- The register that the next version gets. -/
  nextReg : Reg
  /-- For each variable its versions, the newest first. -/
  versionStacks : Array (List Reg)
  /-- The variables that got a version in this block, the last one first. -/
  pushed : List VarId := []
  deriving DecidableEq, Repr

namespace Versions

/-- The version of a variable in force. -/
def current (s : Versions) (v : VarId) : Except Fault (Option Reg) := do
  return (← require (.missingVariable v) s.versionStacks[v]?).head?

/-- Gives an operand a new version of a variable. -/
def define (s : Versions) (v : VarId) (operand : Operand) :
    Except Fault (Operand × Versions) := do
  let renamed ← operand.rename s.nextReg
  let stack ← require (.missingVariable v) s.versionStacks[v]?
  return (renamed, {
    nextReg := s.nextReg + 1
    versionStacks := s.versionStacks.setIfInBounds v (s.nextReg :: stack)
    pushed := v :: s.pushed })

end Versions

/-- Applies a step to the elements of a list, handing a state from each to the next. -/
def threadMap {α β σ : Type} (step : α → σ → Except Fault (β × σ)) :
    List α → σ → Except Fault (List β × σ)
  | [], s => .ok ([], s)
  | a :: rest, s => do
    let (b, s) ← step a s
    let (bs, s) ← threadMap step rest s
    return (b :: bs, s)

-- ════════════════════════════════════════════════════════════════════════
-- Blocks
-- ════════════════════════════════════════════════════════════════════════

/-- Gives the destination of a phi that joins a variable a new version. -/
def renamePhi (phi : Instr) (s : Versions) : Except Fault (Instr × Versions) :=
  match phi.phiVar? with
  | none => .ok (phi, s)
  | some v => do
    let (dst, s) ← s.define v phi.dst
    return ({ phi with dst }, s)

/-- An operand that reads a variable, reading the version in force instead. -/
def renameUse (owners : Array (Option VarId)) (s : Versions) (operand : Operand) :
    Except Fault Operand :=
  match operand.owner? owners with
  | none => .ok operand
  | some v => do
    match ← s.current v with
    | some r => operand.rename r
    | none => return .int 0

/-- Renames the sources of an instruction, then its destination. -/
def renameInstr (owners : Array (Option VarId)) (i : Instr) (s : Versions) :
    Except Fault (Instr × Versions) := do
  let src1 ← renameUse owners s i.src1
  let src2 ← renameUse owners s i.src2
  match i.dst.owner? owners with
  | none => return ({ i with src1, src2 }, s)
  | some v =>
    let (dst, s) ← s.define v i.dst
    return ({ i with dst, src1, src2 }, s)

/-- Renames the phis at the head of a block, then its other instructions. -/
def renameInstrs (owners : Array (Option VarId)) (block : Block) (s : Versions) :
    Except Fault (List Instr × Versions) := do
  let (phis, s) ← threadMap renamePhi block.phis s
  let (body, s) ← threadMap (renameInstr owners) block.body s
  return (phis ++ body, s)

/-- Replaces the value of the first argument that comes from `pred`. -/
def setArgFrom (pred : BlockId) (value : Operand) : List PhiArg → List PhiArg
  | [] => []
  | arg :: rest =>
    if arg.pred = pred then { arg with value } :: rest else arg :: setArgFrom pred value rest

/-- Fills in what a phi takes when control comes from `pred`: the version in force there, or zero
if there is none. -/
def fillPhi (vars : List Variable) (s : Versions) (pred : BlockId) (phi : Instr) :
    Except Fault Instr :=
  match phi.phiVar? with
  | none => .ok phi
  | some v => do
    let value ← match ← s.current v with
      | some r => do
        let var ← require (.missingVariable v) vars[v]?
        pure (Operand.reg r var.ty)
      | none => pure (.int 0)
    return phi.mapPhiArgs (setArgFrom pred value)

/-- Fills in what the phis of a block take when control comes from `pred`. -/
def fillPhis (s : Versions) (pred : BlockId) (f : Function) (b : BlockId) :
    Except Fault Function := do
  let block ← f.block b
  let phis ← block.phis.mapM (fillPhi f.vars s pred)
  return f.setBlock b { block with instrs := phis ++ block.body }

-- ════════════════════════════════════════════════════════════════════════
-- The walk
-- ════════════════════════════════════════════════════════════════════════

/-- A visit of the walk over a tree. -/
inductive Visit where
  | enter (block : BlockId)
  | leave (block : BlockId)
  deriving DecidableEq, Repr

/-- The visits of a walk over a tree that is less than `depth` deep: a block is entered before the
blocks below it and left after them. -/
def DomTree.tour (t : DomTree) : Nat → BlockId → List Visit
  | 0, _ => []
  | depth + 1, b =>
    .enter b :: (t.childrenOf b).flatMap (t.tour depth) ++ [.leave b]

/-- The visits of the walks from all roots. No tree is deeper than there are blocks. -/
def DomTree.fullTour (t : DomTree) : List Visit := t.roots.flatMap (t.tour t.blockCount)

/-- The state of the walk. -/
structure Renamer where
  fn : Function
  versionStacks : Array (List Reg)
  /-- For each block that was entered and not left, the variables that got a version there. -/
  frames : List (List VarId) := []
  deriving DecidableEq, Repr

namespace Renamer

/-- Renames a block and fills in the phis of its successors. -/
def enter (owners : Array (Option VarId)) (w : Renamer) (b : BlockId) :
    Except Fault Renamer := do
  let block ← w.fn.block b
  let start : Versions := { nextReg := w.fn.regCount, versionStacks := w.versionStacks }
  let (instrs, s) ← renameInstrs owners block start
  let renamed := { w.fn.setBlock b { block with instrs } with regCount := s.nextReg }
  let fn ← block.succs.foldlM (fillPhis s b) renamed
  return { fn, versionStacks := s.versionStacks, frames := s.pushed :: w.frames }

/-- Takes back the versions of the block that was entered last. -/
def leave (w : Renamer) : Renamer :=
  match w.frames with
  | [] => w
  | pushed :: frames =>
    let popped := pushed.foldl (fun table v => table.modify v List.tail) w.versionStacks
    { w with versionStacks := popped, frames }

/-- Makes one visit. -/
def visit (owners : Array (Option VarId)) (w : Renamer) : Visit → Except Fault Renamer
  | .enter b => w.enter owners b
  | .leave _ => .ok w.leave

end Renamer

-- ════════════════════════════════════════════════════════════════════════
-- Functions
-- ════════════════════════════════════════════════════════════════════════

/-- The version that each variable has on entry, counting from `next`: parameters have one. The
second part is the count after them. -/
def entryVersions : List Variable → Reg → List (Option Reg) × Reg
  | [], next => ([], next)
  | var :: rest, next =>
    if var.isParam then
      let (versions, count) := entryVersions rest (next + 1)
      (some next :: versions, count)
    else
      let (versions, count) := entryVersions rest next
      (none :: versions, count)

/-- The function with a version for each parameter. -/
def Function.withEntryVersions (f : Function) : Function :=
  let (versions, count) := entryVersions f.vars f.regCount
  { f with paramVersions := versions, regCount := count }

/-- Renames all variables of a function along its dominator tree. -/
def Function.renameVariables (f : Function) (t : DomTree) : Except Fault Function :=
  let entered := f.withEntryVersions
  if f.vars.isEmpty then .ok entered
  else do
    let owners ← f.varOfReg
    let versionStacks := (entered.paramVersions.map Option.toList).toArray
    let w ← t.fullTour.foldlM (Renamer.visit owners) { fn := entered, versionStacks }
    return w.fn

end MiddleEnd
