import MiddleEnd.IR.Instr

/-!
# Functions

A function is a list of blocks, each a straight run of instructions, together with its variables and
a counter that hands out virtual registers. Edges and jumps name a block by its position. A block also
carries a number of its own, which is its position when the block is made.

## Main definitions

* `Block`: instructions, edges and what the analyses found out about them.
* `Block.push`: appends an instruction, unless the block already ends in a terminator.
* `Block.phis`, `Block.body`: the phis at the head of a block, and what follows them.
* `Variable`: a source variable and the register that stands for it.
* `Function`: the function.
* `Function.newBlock`, `Function.newReg`, `Function.varLookup`, `Function.declareParam`,
  `Function.emit`: the ways in which a function grows.
* `Function.varOfReg`: which variable each register stands for.
-/

namespace MiddleEnd

-- ════════════════════════════════════════════════════════════════════════
-- Blocks
-- ════════════════════════════════════════════════════════════════════════

/-- A straight run of instructions. -/
structure Block where
  /-- The number that the block carries. -/
  id : BlockId
  label : String
  instrs : List Instr := []
  /-- The blocks from which control may come. -/
  preds : List BlockId := []
  /-- The blocks to which control may go. -/
  succs : List BlockId := []
  /-- The immediate dominator. -/
  idom : Option BlockId := none
  /-- The dominance frontier. -/
  frontier : List BlockId := []
  /-- How many loops the block lies in. -/
  loopDepth : Nat := 0
  /-- The head of the innermost loop. -/
  loopHeader : Option BlockId := none
  deriving DecidableEq, Repr

namespace Block

instance : Inhabited Block := ⟨{ id := 0, label := "" }⟩

/-- Whether the block has no instructions. -/
def isEmpty (b : Block) : Bool := b.instrs.isEmpty

/-- The last instruction. -/
def last? (b : Block) : Option Instr := b.instrs.getLast?

/-- The last instruction, if control leaves the block there. -/
def terminator? (b : Block) : Option Instr := b.last?.filter (·.isTerminator)

/-- Whether the block ends in a terminator. -/
def isTerminated (b : Block) : Bool := b.terminator?.isSome

/-- Appends an instruction. Nothing may follow a terminator. -/
def push (b : Block) (i : Instr) : Except Fault Block :=
  if b.isTerminated then .error .afterTerminator
  else .ok { b with instrs := b.instrs ++ [i] }

/-- Puts an instruction in front of all others. -/
def prepend (b : Block) (i : Instr) : Block := { b with instrs := i :: b.instrs }

/-- The phis at the head of the block. -/
def phis (b : Block) : List Instr := b.instrs.takeWhile (·.isPhi)

/-- The instructions after the phis at the head. -/
def body (b : Block) : List Instr := b.instrs.dropWhile (·.isPhi)

/-- Changes the phis at the head of the block. -/
def mapPhis (g : Instr → Instr) (b : Block) : Block :=
  { b with instrs := b.phis.map g ++ b.body }

/-- The position of a block among the predecessors. -/
def predIndex? (b : Block) (pred : BlockId) : Option Nat := b.preds.idxOf? pred

/-- The registers that the instructions write, in order. -/
def defs (b : Block) : List Reg := b.instrs.filterMap (·.def?)

end Block

-- ════════════════════════════════════════════════════════════════════════
-- Functions
-- ════════════════════════════════════════════════════════════════════════

/-- A source variable. Before single assignment its register is written wherever the variable is. -/
structure Variable where
  name : Name
  reg : Reg
  ty : Option TypeId
  isParam : Bool := false
  deriving DecidableEq, Repr

/-- A parameter of a function. -/
structure Param where
  name : Name
  ty : TypeId
  deriving DecidableEq, Repr

/-- A function in intermediate code. -/
structure Function where
  name : Name
  line : Nat
  returnType : Option TypeId := none
  params : List Param := []
  blocks : Array Block := #[]
  entry : BlockId := 0
  vars : List Variable := []
  /-- Whether the function is in single assignment form. -/
  isSsa : Bool := false
  /-- For each variable the register that holds its argument on entry, if it is a parameter of a
  function in single assignment form. -/
  paramVersions : List (Option Reg) := []
  /-- How many registers were handed out. -/
  regCount : Nat := 0
  deriving DecidableEq, Repr

namespace Function

/-- How many blocks there are. -/
def blockCount (f : Function) : Nat := f.blocks.size

/-- The numbers of the blocks in order. -/
def blockIds (f : Function) : List BlockId := List.range f.blocks.size

/-- How many instructions there are. -/
def instrCount (f : Function) : Nat := (f.blocks.toList.flatMap (·.instrs)).length

/-- The block with the number `b`. -/
def block (f : Function) (b : BlockId) : Except Fault Block :=
  require (.missingBlock b) f.blocks[b]?

/-- The variable with the number `v`. -/
def var (f : Function) (v : VarId) : Except Fault Variable :=
  require (.missingVariable v) f.vars[v]?

/-- The successors of a block. -/
def succs (f : Function) (b : BlockId) : List BlockId := (f.blocks[b]?.map (·.succs)).getD []

/-- The predecessors of a block. -/
def preds (f : Function) (b : BlockId) : List BlockId := (f.blocks[b]?.map (·.preds)).getD []

/-- The immediate dominator that a block records. -/
def idom? (f : Function) (b : BlockId) : Option BlockId := f.blocks[b]?.bind (·.idom)

/-- The dominance frontier that a block records. -/
def frontier (f : Function) (b : BlockId) : List BlockId :=
  (f.blocks[b]?.map (·.frontier)).getD []

/-- Succeeds if all the given blocks exist. -/
def checkBlocks (f : Function) (ids : List BlockId) : Except Fault Unit :=
  match ids.find? (f.blocks.size ≤ ·) with
  | some b => .error (.missingBlock b)
  | none => .ok ()

/-- Changes one block. -/
def modifyBlock (f : Function) (b : BlockId) (g : Block → Block) : Function :=
  { f with blocks := f.blocks.modify b g }

/-- Changes every block. -/
def mapBlocks (f : Function) (g : Block → Block) : Function :=
  { f with blocks := f.blocks.map g }

/-- Replaces one block. -/
def setBlock (f : Function) (b : BlockId) (block : Block) : Function :=
  f.modifyBlock b fun _ => block

/-- Appends a block. A block without a label is named after its number. -/
def newBlock (f : Function) (label : Option String) : BlockId × Function :=
  let id := f.blocks.size
  (id, { f with blocks := f.blocks.push { id, label := label.getD (blockText id) } })

/-- Hands out a register. -/
def newReg (f : Function) : Reg × Function :=
  (f.regCount, { f with regCount := f.regCount + 1 })

/-- Appends an instruction to a block. -/
def emit (f : Function) (b : BlockId) (i : Instr) : Except Fault Function := do
  let block ← (← f.block b).push i
  return f.setBlock b block

-- ════════════════════════════════════════════════════════════════════════
-- Variables
-- ════════════════════════════════════════════════════════════════════════

/-- The number of the variable called `name`. -/
def findVar? (f : Function) (name : Name) : Option VarId := f.vars.findIdx? (·.name == name)

/-- The register of the variable called `name`. A variable that is new gets a new register. -/
def varLookup (f : Function) (name : Name) (ty : Option TypeId) : Reg × Function :=
  match f.vars.find? (·.name == name) with
  | some var => (var.reg, f)
  | none =>
    let (reg, f) := f.newReg
    (reg, { f with vars := f.vars ++ [{ name, reg, ty }] })

/-- Appends a parameter and marks its variable. Two parameters of one name share a variable. -/
def declareParam (f : Function) (name : Name) (ty : TypeId) : Reg × Function :=
  let (reg, f) := f.varLookup name (some ty)
  (reg, { f with
    vars := f.vars.map fun var => if var.name = name then { var with isParam := true } else var
    params := f.params ++ [{ name, ty }] })

/-- For each register the variable that it stands for, if any. A variable stands for a register that was
handed out. -/
def varOfReg (f : Function) : Except Fault (Array (Option VarId)) :=
  f.vars.zipIdx.foldlM (fun table (var, v) =>
    if var.reg < table.size then .ok (table.setIfInBounds var.reg (some v))
    else .error (.missingRegister var.reg)) (Array.replicate f.regCount none)

end Function

/-- The variable that an operand stands for, given the owner of each register. -/
def Operand.owner? (owners : Array (Option VarId)) (operand : Operand) : Option VarId := do
  let r ← operand.reg?
  let owner ← owners[r]?
  owner

end MiddleEnd
