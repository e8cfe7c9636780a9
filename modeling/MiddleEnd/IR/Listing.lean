import MiddleEnd.Decimal.General
import MiddleEnd.IR.Program
import MiddleEnd.Text.Quoted

/-!
# Listings

The text of intermediate code. Every line of a function starts with two or more blanks, and what is
not an instruction starts with a semicolon.

## Main definitions

* `Operand.text`, `Instr.text`, `Block.text`: the parts of a listing.
* `Function.listing`, `Program.listing`: the listing of a function and of a program.

## Design notes

Names and string literals are written out, so each function takes both tables. A listing fails only
on a number that is in neither.
-/

namespace MiddleEnd

/-- The texts behind the numbers of a program. -/
structure Tables where
  names : Interner
  texts : Interner

/-- The texts of a list, one after the other. -/
def joinMap {α : Type} (f : α → Except Fault String) (xs : List α) : Except Fault String :=
  String.join <$> xs.mapM f

/-- A remark that lists blocks, or nothing when there are none. -/
def blocksRemark (title : String) (blocks : List BlockId) : String :=
  if blocks.isEmpty then ""
  else "  ; " ++ title ++ ":" ++ String.join (blocks.map fun b => " " ++ blockText b)

-- ════════════════════════════════════════════════════════════════════════
-- Instructions
-- ════════════════════════════════════════════════════════════════════════

/-- The text of an operand. -/
def Operand.text (tables : Tables) : Operand → Except Fault String
  | .none => .ok "_"
  | .reg r _ => .ok (regText r)
  | .field name => do return "%" ++ (← tables.names.name name)
  | .int value => .ok ("$" ++ toString value)
  | .float value => .ok ("$" ++ value.text)
  | .label block => .ok (blockText block)
  | .func name => do return "@" ++ (← tables.names.name name)
  | .literal id => do return quote (← tables.texts.literal id)

/-- The text of a phi argument. -/
def PhiArg.text (tables : Tables) (arg : PhiArg) : Except Fault String := do
  return " [" ++ (← arg.value.text tables) ++ ", " ++ blockText arg.pred ++ "]"

/-- The text of a switch entry. -/
def SwitchCase.text (entry : SwitchCase) : String :=
  " case " ++ toString entry.value ++ ": " ++ blockText entry.target

namespace Instr

/-- An operand behind a separator, or nothing when the slot is empty. -/
def slotText (tables : Tables) (separator : String) (operand : Operand) : Except Fault String :=
  if operand.isNone then .ok ""
  else do return separator ++ (← operand.text tables)

/-- The part of an instruction that names its destination, or nothing when it has none. -/
def dstText (tables : Tables) (i : Instr) : Except Fault String :=
  if i.dst.isNone then .ok ""
  else do return (← i.dst.text tables) ++ " = "

/-- The text of an instruction. -/
def text (tables : Tables) (i : Instr) : Except Fault String :=
  match i.opcode with
  | .phi => do
    return (← i.dst.text tables) ++ " = phi" ++ (← joinMap (·.text tables) i.phiArgs)
  | .switch => do
    let entries := String.join (i.cases.map (·.text))
    let fallback := (i.fallback?.map fun b => " default: " ++ blockText b).getD ""
    return "switch " ++ (← i.src1.text tables) ++ " \x7b" ++ entries ++ fallback ++ " \x7d"
  | .branch => do
    let otherwise := (i.falseTarget?.map fun b => " : " ++ blockText b).getD ""
    return "branch " ++ (← i.src1.text tables) ++ " ? " ++ (← i.src2.text tables) ++ otherwise
  | opcode => do
    return (← i.dstText tables) ++ opcode.name ++ (← slotText tables " " i.src1) ++
      (← slotText tables ", " i.src2)

end Instr

-- ════════════════════════════════════════════════════════════════════════
-- Blocks and functions
-- ════════════════════════════════════════════════════════════════════════

namespace Block

/-- The remark on the innermost loop around a block. -/
def loopRemark (b : Block) : String :=
  match b.loopHeader with
  | some header =>
    if b.loopDepth = 0 then ""
    else "  ; loop: depth=" ++ toString b.loopDepth ++ " hdr=" ++ blockText header
  | none => ""

/-- The line that opens a block. -/
def headLine (b : Block) : String :=
  let dominator := (b.idom.map fun d => "  ; idom: " ++ blockText d).getD ""
  "  " ++ b.label ++ " (" ++ blockText b.id ++ "):" ++ blocksRemark "preds" b.preds ++ dominator ++
    blocksRemark "DF" b.frontier ++ b.loopRemark ++ "\n"

/-- The text of a block. -/
def text (tables : Tables) (b : Block) : Except Fault String := do
  let lines ← joinMap (fun i => do return "    " ++ (← i.text tables) ++ "\n") b.instrs
  let succs := if b.succs.isEmpty then "" else "  " ++ blocksRemark "succs" b.succs ++ "\n"
  return b.headLine ++ lines ++ succs

end Block

namespace Function

/-- The line that lists the variables, or nothing when there are none. -/
def varsLine (tables : Tables) (f : Function) : Except Fault String :=
  if f.vars.isEmpty then .ok ""
  else do
    let vars ← joinMap (fun var => do
      let mark := if var.isParam then "[param]" else ""
      return " " ++ (← tables.names.name var.name) ++ "=" ++ regText var.reg ++ mark) f.vars
    return "  ; vars:" ++ vars ++ "\n"

/-- The listing of a function. -/
def listing (tables : Tables) (f : Function) : Except Fault String := do
  let name ← tables.names.name f.name
  let params ← f.params.mapM fun param => tables.names.name param.name
  let vars ← f.varsLine tables
  let form := if f.isSsa then " (SSA)" else ""
  let counts := "  ; " ++ toString f.blockCount ++ " blocks, " ++ toString f.regCount ++ " vregs" ++
    form ++ "\n\n"
  let blocks ← joinMap (fun block => do return (← block.text tables) ++ "\n") f.blocks.toList
  return "function @" ++ name ++ "(" ++ ", ".intercalate params ++ ") \x7b\n" ++ vars ++ counts ++
    blocks ++ "\x7d\n\n"

end Function

-- ════════════════════════════════════════════════════════════════════════
-- Programs
-- ════════════════════════════════════════════════════════════════════════

/-- The line of a global variable. -/
def Global.line (names : Interner) (g : Global) : Except Fault String := do
  let init := (g.init.map fun value => " = " ++ toString value).getD ""
  return "@" ++ (← names.name g.name) ++ init ++ "\n"

/-- The listing of a program. -/
def Program.listing (names : Interner) (p : Program) : Except Fault String := do
  let globals ← joinMap (·.line names) p.globals
  let gap := if p.globals.isEmpty then "" else "\n"
  let functions ← joinMap (·.listing { names, texts := p.texts }) p.functions
  return "; === IR Program ===\n; " ++ toString p.functions.length ++ " functions, " ++
    toString p.globals.length ++ " globals\n\n" ++ globals ++ gap ++ functions

end MiddleEnd
